import PioFrontEnd.Draft.Evaluation

/-!
# Evaluation with a cache agrees with evaluation under fixed meanings

Evaluation takes a draft and gives back another one, in which some defines have gained a value. To
say what it computes without following the draft, give every place a *meaning*, a value or a
cause, and evaluate an expression over the meanings of the places that its names stand for
(`Expr.valueUnder`, `Draft.meaningOf`). Nothing is looked up twice there and nothing changes.

The meanings fit a draft (`Draft.Explains`) if a known value is the meaning of its place, and the
meaning of a place without a value is what its expression comes to under the same meanings.

* `evaluate_eq_valueUnder`: if the meanings fit, and the defines without a value need one another
  in a descending order, then evaluation yields what the meanings say, and every value that it
  stores is the meaning of the place where it is stored (`Draft.Caches`).
* `evaluate_eq_of_known`: if all visible defines have values, evaluation changes nothing.

The argument does not depend on how the draft came about. The order is given by a height that falls
from a define to the defines it needs; a height below the number of defines without a value is
enough, since that is the depth to which a draft evaluates.
-/

namespace PioFrontEnd

/-- The value of an expression, given the value of every name. The left operand comes first. -/
def Expr.valueUnder {ν : Type} (meaning : ν → Except Cause Int32) : Expr ν → Except Cause Int32
  | .literal v => .ok v
  | .name n => meaning n
  | .binary op l r _ =>
    match l.valueUnder meaning with
    | .error cause => .error cause
    | .ok a =>
      match r.valueUnder meaning with
      | .error cause => .error cause
      | .ok b =>
        match op.apply a b with
        | some v => .ok v
        | none => .error .divisionByZero

/-- Only the names that occur in an expression matter for its value. -/
theorem Expr.valueUnder_congr {ν : Type} {meaning meaning' : ν → Except Cause Int32} {e : Expr ν}
    (h : ∀ n ∈ e.names, meaning n = meaning' n) :
    e.valueUnder meaning = e.valueUnder meaning' := by
  induction e with
  | literal v => rfl
  | name n => exact h n (by simp [Expr.names])
  | binary op l r p ihl ihr =>
    have hl := ihl fun n hn => h n (by simp [Expr.names, hn])
    have hr := ihr fun n hn => h n (by simp [Expr.names, hn])
    simp only [Expr.valueUnder, hl, hr]

/-- Renaming and evaluating commute. -/
theorem Expr.valueUnder_map {ν μ : Type} (f : ν → μ) (meaning : μ → Except Cause Int32)
    (e : Expr ν) : (e.map f).valueUnder meaning = e.valueUnder fun n => meaning (f n) := by
  induction e with
  | literal v => rfl
  | name n => rfl
  | binary op l r p ihl ihr => simp only [Expr.map, Expr.valueUnder, ihl, ihr]

/-- An expression has a value unless one of its names has none or a divisor is zero. -/
theorem Expr.cause_of_valueUnder {ν : Type} {meaning : ν → Except Cause Int32} {e : Expr ν}
    {cause : Cause} (h : e.valueUnder meaning = .error cause) :
    cause = .divisionByZero ∨ ∃ n ∈ e.names, meaning n = .error cause := by
  induction e with
  | literal v => cases h
  | name n => exact .inr ⟨n, by simp [Expr.names], h⟩
  | binary op l r p ihl ihr =>
    simp only [Expr.valueUnder] at h
    split at h
    · rename_i c hl
      cases h
      obtain hzero | ⟨n, hn, hm⟩ := ihl hl
      · exact .inl hzero
      · exact .inr ⟨n, by simp [Expr.names, hn], hm⟩
    · split at h
      · rename_i c hr
        cases h
        obtain hzero | ⟨n, hn, hm⟩ := ihr hr
        · exact .inl hzero
        · exact .inr ⟨n, by simp [Expr.names, hn], hm⟩
      · split at h
        · cases h
        · cases h
          exact .inl rfl

/-! ### Storing a value -/

namespace Listing

variable {ν : Type}

/-- A stored value is seen at its place and nowhere else. -/
theorem at?_setValue (l : Listing ν) (v : Int32) (place other : Place) :
    (l.setValue v place).at? other =
      if other = place then (l.at? other).map fun d => { d with value := some v }
      else l.at? other := by
  obtain ⟨scope, i⟩ := place
  obtain ⟨scope', j⟩ := other
  cases scope with
  | none =>
    cases scope' with
    | none =>
      by_cases hij : j = i
      · simp [setValue, at?, definesIn, modifyDefines, hij]
      · simp [setValue, at?, definesIn, modifyDefines, hij, Ne.symm hij]
    | some q => simp [setValue, at?, definesIn, modifyDefines]
  | some p =>
    cases scope' with
    | none => simp [setValue, at?, definesIn, modifyDefines]
    | some q =>
      by_cases hqp : q = p
      · subst hqp
        cases hget : l.programs[q]? with
        | none => simp [setValue, at?, definesIn, modifyDefines, hget]
        | some program =>
          by_cases hij : j = i
          · simp [setValue, at?, definesIn, modifyDefines, hget, hij]
          · simp [setValue, at?, definesIn, modifyDefines, hget, hij, Ne.symm hij]
      · have hpq : ¬ p = q := fun h => hqp h.symm
        cases hget : l.programs[q]? <;>
          simp [setValue, at?, definesIn, modifyDefines, hget, hqp, hpq]

/-- A define that is seen after a value was stored was there before, and if it has no value now it
was the same then. -/
theorem at?_of_at?_setValue {l : Listing ν} {v : Int32} {place other : Place} {d' : Define ν}
    (h : (l.setValue v place).at? other = some d') :
    ∃ d, l.at? other = some d ∧ (d = d' ∨ (other = place ∧ d' = { d with value := some v })) := by
  rw [at?_setValue] at h
  split at h
  · rename_i ho
    obtain ⟨d, hd, rfl⟩ := Option.map_eq_some_iff.1 h
    exact ⟨d, hd, .inr ⟨ho, rfl⟩⟩
  · exact ⟨d', h, .inl rfl⟩

end Listing

namespace Draft

/-! ### Meanings and the drafts that they explain -/

/-- A look-up finds what stands at the place of the symbol. -/
theorem find?_eq_some {d : Draft} {n : Symbol} {place : Place} {define : Define Symbol} :
    d.find? n = some (place, define) ↔
      d.scopes.lookup n = some place ∧ d.file.listing.at? place = some define := by
  simp only [find?, Option.bind_eq_bind, Option.bind_eq_some_iff, Option.pure_def,
    Option.some.injEq, Prod.mk.injEq]
  constructor
  · rintro ⟨_, hlookup, _, hat, rfl, rfl⟩
    exact ⟨hlookup, hat⟩
  · rintro ⟨hlookup, hat⟩
    exact ⟨place, hlookup, define, hat, rfl, rfl⟩

/-- The meaning of a symbol in the current scope, given the meaning of every place. -/
def meaningOf (d : Draft) (meanings : Place → Except Cause Int32) (name : Symbol) :
    Except Cause Int32 :=
  match d.scopes.lookup name with
  | some place => meanings place
  | none => .error (.unknownIdentifier (d.file.names.resolve name))

/-- The define that a symbol stands for, if it has no value yet. -/
def Pending (d : Draft) (name : Symbol) (place : Place) (define : Define Symbol) : Prop :=
  d.scopes.lookup name = some place ∧ d.file.listing.at? place = some define ∧ define.value = none

/-- A name waits for the value of a define that it is found under and that has none. -/
theorem pending_iff {d : Draft} {n : Symbol} {place : Place} {define : Define Symbol} :
    d.Pending n place define ↔ d.find? n = some (place, define) ∧ define.value = none := by
  rw [Pending, find?_eq_some, and_assoc]

/-- The meanings fit what is visible in a draft. -/
structure Explains (d : Draft) (meanings : Place → Except Cause Int32) : Prop where
  /-- Every visible symbol has a define. -/
  defined : ∀ {name place}, d.scopes.lookup name = some place →
    ∃ define, d.file.listing.at? place = some define
  /-- A known value is the meaning of its place. -/
  known : ∀ {name place define v}, d.scopes.lookup name = some place →
    d.file.listing.at? place = some define → define.value = some v → meanings place = .ok v
  /-- The meaning of a define without a value is what its expression comes to. -/
  pending : ∀ {name place define}, d.Pending name place define →
    meanings place = define.expr.valueUnder (d.meaningOf meanings)

/-- Along the names in defines without a value, the height of the defines without a value falls. -/
def Descends (d : Draft) (height : Place → Nat) : Prop :=
  ∀ {name place define}, d.Pending name place define →
    ∀ other ∈ define.expr.names, ∀ {place' define'}, d.Pending other place' define' →
      height place' < height place

/-- The second draft is the first one with the meanings of some visible places stored there. -/
inductive Caches (meanings : Place → Except Cause Int32) (d : Draft) : Draft → Prop where
  /-- Nothing is stored. -/
  | refl : Caches meanings d d
  /-- The meaning of one more visible place is stored. -/
  | store {d' : Draft} {name : Symbol} {place : Place} {v : Int32} :
    Caches meanings d d' → d.scopes.lookup name = some place → meanings place = .ok v →
      Caches meanings d (d'.setValue v place)

namespace Caches

variable {meanings : Place → Except Cause Int32} {d d' d'' : Draft}

/-- Storing values leaves the scopes as they are. -/
theorem scopes_eq (h : Caches meanings d d') : d'.scopes = d.scopes := by
  induction h with
  | refl => rfl
  | store _ _ _ ih => exact ih

/-- Storing values leaves the name table as it is. -/
theorem names_eq (h : Caches meanings d d') : d'.file.names = d.file.names := by
  induction h with
  | refl => rfl
  | store _ _ _ ih => exact ih

/-- Storing values leaves the meaning of every symbol as it is. -/
theorem meaningOf_eq (h : Caches meanings d d') : d'.meaningOf meanings = d.meaningOf meanings := by
  funext name
  simp only [meaningOf, h.scopes_eq, h.names_eq]

/-- Values that are stored in two steps are meanings as those of each step are. -/
theorem trans (h : Caches meanings d d') (h' : Caches meanings d' d'') : Caches meanings d d'' := by
  induction h' with
  | refl => exact h
  | store _ hlookup hv ih => exact ih.store (h.scopes_eq ▸ hlookup) hv

/-- What is seen afterwards was there before, with the same value or with its meaning stored. -/
theorem at?_eq (h : Caches meanings d d') {place : Place} {define' : Define Symbol}
    (hat : d'.file.listing.at? place = some define') :
    ∃ define, d.file.listing.at? place = some define ∧
      (define = define' ∨
        ∃ v, meanings place = .ok v ∧ define' = { define with value := some v }) := by
  induction h generalizing define' with
  | refl => exact ⟨define', hat, .inl rfl⟩
  | store _ hlookup hv ih =>
    obtain ⟨define₁, hat₁, hsame | ⟨rfl, rfl⟩⟩ := Listing.at?_of_at?_setValue hat
    · exact ih (hsame ▸ hat₁)
    · obtain ⟨define, hdefine, rfl | ⟨w, -, rfl⟩⟩ := ih hat₁
      · exact ⟨define, hdefine, .inr ⟨_, hv, rfl⟩⟩
      · exact ⟨define, hdefine, .inr ⟨_, hv, rfl⟩⟩

/-- What was there before is still seen. -/
theorem exists_at? (h : Caches meanings d d') {place : Place} {define : Define Symbol}
    (hat : d.file.listing.at? place = some define) :
    ∃ define', d'.file.listing.at? place = some define' := by
  induction h with
  | refl => exact ⟨define, hat⟩
  | store _ _ _ ih =>
    obtain ⟨define', hdefine'⟩ := ih
    simp only [setValue, Listing.at?_setValue, hdefine']
    split
    · exact ⟨_, rfl⟩
    · exact ⟨_, rfl⟩

/-- A define without a value had none before, and was the same. -/
theorem pending_of_pending (h : Caches meanings d d') {name : Symbol} {place : Place}
    {define : Define Symbol} (hp : d'.Pending name place define) : d.Pending name place define := by
  obtain ⟨hlookup, hat, hvalue⟩ := hp
  obtain ⟨define₁, hat₁, rfl | ⟨v, -, rfl⟩⟩ := h.at?_eq hat
  · exact ⟨h.scopes_eq ▸ hlookup, hat₁, hvalue⟩
  · cases hvalue

/-- The meanings still fit. -/
theorem explains (h : Caches meanings d d') (he : d.Explains meanings) : d'.Explains meanings where
  defined hlookup := by
    obtain ⟨define, hat⟩ := he.defined (h.scopes_eq ▸ hlookup)
    exact h.exists_at? hat
  known hlookup hat hvalue := by
    obtain ⟨define, hat', rfl | ⟨w, hw, rfl⟩⟩ := h.at?_eq hat
    · exact he.known (h.scopes_eq ▸ hlookup) hat' hvalue
    · cases hvalue
      exact hw
  pending hp := by
    rw [h.meaningOf_eq]
    exact he.pending (h.pending_of_pending hp)

/-- The order still descends. -/
theorem descends (h : Caches meanings d d') {height : Place → Nat} (hd : d.Descends height) :
    d'.Descends height :=
  fun hp other hother _ _ hp' =>
    hd (h.pending_of_pending hp) other hother (h.pending_of_pending hp')

end Caches

/-! ### Evaluation under fixed meanings -/

/-- If looking names up yields their meanings and relates drafts in a way that can be composed, then
evaluating yields what the expression means and relates drafts in that way. -/
theorem evaluateBy_eq_of_lookUp (related : Draft → Draft → Prop) (hrefl : ∀ d, related d d)
    (htrans : ∀ {d d' d''}, related d d' → related d' d'' → related d d'')
    {look : Symbol → Draft → Evaluated} {meaning : Symbol → Except Cause Int32} {e : Expr Symbol}
    {d : Draft} (hlook : ∀ n ∈ e.names, ∀ d', related d d' →
      ∃ d'', look n d' = (meaning n, d'') ∧ related d' d'') :
    ∃ d', evaluateBy look e d = (e.valueUnder meaning, d') ∧ related d d' := by
  induction e generalizing d with
  | literal v => exact ⟨d, rfl, hrefl d⟩
  | name n => exact hlook n (by simp [Expr.names]) d (hrefl d)
  | binary op l r p ihl ihr =>
    obtain ⟨d₁, hl, h₁⟩ := ihl fun n hn => hlook n (by simp [Expr.names, hn])
    -- the right operand is evaluated in the draft that the left one leaves
    obtain ⟨d₂, hr, h₂⟩ := ihr (d := d₁) fun n hn d' hd' =>
      hlook n (by simp [Expr.names, hn]) d' (htrans h₁ hd')
    simp only [evaluateBy, Expr.valueUnder, hl]
    cases l.valueUnder meaning with
    | error cause => exact ⟨d₁, rfl, h₁⟩
    | ok a =>
      simp only [hr]
      cases r.valueUnder meaning with
      | error cause => exact ⟨d₂, rfl, htrans h₁ h₂⟩
      | ok b =>
        cases happly : op.apply a b with
        | none => exact ⟨d₂, by simp only [happly], htrans h₁ h₂⟩
        | some v => exact ⟨d₂, by simp only [happly], htrans h₁ h₂⟩

variable {meanings : Place → Except Cause Int32} {height : Place → Nat}

/-- Looking a name up yields its meaning, if evaluating its define does when it has no value. -/
theorem lookUpBy_eq_meaningOf {look : Symbol → Expr Symbol → Draft → Evaluated} {d : Draft}
    {name : Symbol} (he : d.Explains meanings)
    (hnew : ∀ {place define}, d.Pending name place define →
      ∃ d', look name define.expr d = (meanings place, d') ∧ Caches meanings d d') :
    ∃ d', lookUpBy look name d = (d.meaningOf meanings name, d') ∧ Caches meanings d d' := by
  cases hlookup : d.scopes.lookup name with
  | none =>
    refine ⟨d, ?_, .refl⟩
    simp [lookUpBy, find?, meaningOf, unknown, hlookup]
  | some place =>
    obtain ⟨define, hat⟩ := he.defined hlookup
    have hfind : d.find? name = some (place, define) := by simp [find?, hlookup, hat]
    have hmeaning : d.meaningOf meanings name = meanings place := by simp only [meaningOf, hlookup]
    rw [lookUpBy, hfind, hmeaning]
    cases hvalue : define.value with
    | some v =>
      have hknown := he.known hlookup hat hvalue
      simp only [hvalue, hknown]
      exact ⟨d, rfl, .refl⟩
    | none =>
      obtain ⟨d', heval, hc⟩ := hnew ⟨hlookup, hat, hvalue⟩
      simp only [hvalue, heval]
      cases hm : meanings place with
      | error cause => exact ⟨d', rfl, hc⟩
      | ok v => exact ⟨d'.setValue v place, rfl, hc.store hlookup hm⟩

/-- Looking a name up yields its meaning, if the height of its define is below the depth. -/
theorem lookUp_eq_meaningOf {d : Draft} {depth : Nat} {name : Symbol} (he : d.Explains meanings)
    (hd : d.Descends height)
    (hdepth : ∀ {place define}, d.Pending name place define → height place < depth) :
    ∃ d', lookUp depth name d = (d.meaningOf meanings name, d') ∧ Caches meanings d d' := by
  induction depth generalizing d name with
  | zero => exact lookUpBy_eq_meaningOf he fun hp => absurd (hdepth hp) (Nat.not_lt_zero _)
  | succ depth ih =>
    apply lookUpBy_eq_meaningOf he
    intro place define hp
    rw [he.pending hp]
    refine evaluateBy_eq_of_lookUp (Caches meanings) (fun _ => .refl) Caches.trans ?_
    intro n hn d' hc
    rw [← hc.meaningOf_eq]
    refine ih (hc.explains he) (hc.descends hd) fun hp' => ?_
    have hfalls := hd hp n hn (hc.pending_of_pending hp')
    have hbound := hdepth hp
    omega

/-- Evaluation yields what the meanings say, and stores nothing but meanings. -/
theorem evaluate_eq_valueUnder {d : Draft} (he : d.Explains meanings) (hd : d.Descends height)
    (hbound : ∀ {name place define}, d.Pending name place define →
      height place < d.file.listing.pending) (e : Expr Symbol) :
    ∃ d', d.evaluate e = (e.valueUnder (d.meaningOf meanings), d') ∧ Caches meanings d d' := by
  refine evaluateBy_eq_of_lookUp (Caches meanings) (fun _ => .refl) Caches.trans fun n _ d' hc => ?_
  rw [← hc.meaningOf_eq]
  exact lookUp_eq_meaningOf (hc.explains he) (hc.descends hd)
    fun hp => hbound (hc.pending_of_pending hp)

/-! ### Evaluation when everything visible has a value -/

/-- If the names of an expression have defines with values, evaluation reads these and changes
nothing. -/
theorem evaluate_eq_of_known {d : Draft} {e : Expr Symbol} {meaning : Symbol → Except Cause Int32}
    (h : ∀ n ∈ e.names, ∃ place define v,
      d.find? n = some (place, define) ∧ define.value = some v ∧ meaning n = .ok v) :
    d.evaluate e = (e.valueUnder meaning, d) := by
  have hlook : ∀ n ∈ e.names, ∀ d', d = d' →
      ∃ d'', lookUp d.file.listing.pending n d' = (meaning n, d'') ∧ d' = d'' := by
    rintro n hn _ rfl
    obtain ⟨place, define, v, hfind, hvalue, hmeaning⟩ := h n hn
    refine ⟨d, ?_, rfl⟩
    cases d.file.listing.pending <;> simp [lookUp, lookUpBy, hfind, hvalue, hmeaning]
  obtain ⟨d', heval, rfl⟩ := evaluateBy_eq_of_lookUp Eq (fun _ => rfl) Eq.trans hlook
  exact heval

end Draft

end PioFrontEnd
