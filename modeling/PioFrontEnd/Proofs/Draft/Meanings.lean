import PioFrontEnd.Proofs.Draft.Consistency

/-!
# Meanings that are fixed when a define is added

A define without a value is evaluated when it is first needed, in whatever scope is current then.
That this yields what the define meant when it was added rests on four facts that no single step
shows: shared defines are complete once a program has been opened, no name is ever hidden, a program
is never taken up again, and the names in a define stand for defines before it.

`Draft.Sound` collects them. It relates a draft to a meaning for every place: a known value is the
meaning of its place, the names in a define without a value stand for places before its own, as seen
from the program that it belongs to, and its meaning is what its expression comes to there.

* `Sound.explains`, `Sound.descends`: such meanings fit what is visible now, whatever the current
  program is, and defines without a value need one another from right to left only. So evaluation
  yields what they say (`Sound.evaluate_eq`).
* `Sound.extend`: meanings of further places can be added while a draft grows.
* `Sound.of_caches`: storing meanings keeps a draft sound.
-/

namespace PioFrontEnd

/-- A value or a cause for every place. -/
abbrev Meanings := Place → Except Cause Int32

/-- Whether a define stands before another one that can see it. -/
def Place.Before (q p : Place) : Prop :=
  (q.program = none ∧ p.program ≠ none) ∨ (q.program = p.program ∧ q.index < p.index)

namespace Draft

/-- The meaning of a symbol as seen from a program, or from none. -/
def meaningIn (d : Draft) (meanings : Meanings) (scope : Option Nat) (name : Symbol) :
    Except Cause Int32 :=
  match d.scopes.lookupIn scope name with
  | some place => meanings place
  | none => .error (.unknownIdentifier (d.file.names.resolve name))

/-- What a symbol means now is what it means as seen from the current program. -/
theorem meaningOf_eq_meaningIn (d : Draft) (meanings : Meanings) :
    d.meaningOf meanings = d.meaningIn meanings d.scopes.current := rfl

/-- Every name in an expression stands for a place before the given one. -/
def NamesBefore (d : Draft) (place : Place) (e : Expr Symbol) : Prop :=
  ∀ n ∈ e.names, ∃ q, d.scopes.lookupIn place.program n = some q ∧ q.Before place

/-- What is visible stands before the define that is added next. -/
theorem Consistent.before_nextPlace {d : Draft} (h : d.Consistent) {name : Symbol} {q : Place}
    (hq : d.scopes.lookup name = some q) :
    q.Before (d.file.listing.nextPlace d.scopes.current) := by
  obtain ⟨define, hat, -⟩ := h.exists_at? hq
  have hlt := Listing.index_lt_of_at? hat
  rcases (h.lookupIn_eq_some_iff.1 hq).2 with hshared | hlocal
  · cases hc : d.scopes.current with
    | none => exact .inr ⟨hshared, by simpa [Listing.nextPlace, hshared] using hlt⟩
    | some p => exact .inl ⟨hshared, by simp [Listing.nextPlace]⟩
  · exact .inr ⟨hlocal, by simpa [Listing.nextPlace, hlocal] using hlt⟩

/-- The names of an expression, if they are all visible, stand for places before the define that is
added next. -/
theorem Consistent.namesBefore_nextPlace {d : Draft} (h : d.Consistent) {e : Expr Symbol}
    (hvisible : ∀ n ∈ e.names, d.scopes.isVisible n = true) :
    d.NamesBefore (d.file.listing.nextPlace d.scopes.current) e := by
  intro n hn
  obtain ⟨q, hq⟩ := Option.isSome_iff_exists.1 (hvisible n hn)
  exact ⟨q, hq, h.before_nextPlace hq⟩

/-- The meanings are those that the defines of a draft had when they were added. -/
structure Sound (d : Draft) (meanings : Meanings) : Prop where
  /-- Scopes and listing agree. -/
  consistent : d.Consistent
  /-- A known value is the meaning of its place. -/
  known : ∀ {place define v}, d.file.listing.at? place = some define → define.value = some v →
    meanings place = .ok v
  /-- The names in a define without a value stand for defines before it. -/
  names : ∀ {place define}, d.file.listing.at? place = some define → define.value = none →
    d.NamesBefore place define.expr
  /-- The meaning of a define without a value is what its expression comes to in its program. -/
  pending : ∀ {place define}, d.file.listing.at? place = some define → define.value = none →
    meanings place = define.expr.valueUnder (d.meaningIn meanings place.program)

/-! ### Looking up in a draft that has grown -/

/-- What was found from some program is found there again after the draft has grown. -/
theorem lookupIn_of_grown {d d' : Draft} (h : d.Consistent) (h' : d'.Consistent)
    (hgrown : ∀ {place define}, d.file.listing.at? place = some define →
      d'.file.listing.at? place = some define) {scope : Option Nat} {name : Symbol} {q : Place}
    (hq : d.scopes.lookupIn scope name = some q) : d'.scopes.lookupIn scope name = some q := by
  obtain ⟨hname, hseen⟩ := h.lookupIn_eq_some_iff.1 hq
  obtain ⟨define, hat, rfl⟩ := Option.map_eq_some_iff.1 hname
  exact h'.lookupIn_eq_some_iff.2 ⟨Option.map_eq_some_iff.2 ⟨define, hgrown hat, rfl⟩, hseen⟩

/-- An expression whose names stand for given places means the same in a draft that finds the same
places and gives them the same meanings. -/
theorem valueUnder_meaningIn_congr {d d' : Draft} {meanings meanings' : Meanings}
    {scope scope' : Option Nat} {e : Expr Symbol}
    (h : ∀ n ∈ e.names, ∃ q, d.scopes.lookupIn scope n = some q ∧
      d'.scopes.lookupIn scope' n = some q ∧ meanings' q = meanings q) :
    e.valueUnder (d'.meaningIn meanings' scope') = e.valueUnder (d.meaningIn meanings scope) := by
  apply Expr.valueUnder_congr
  intro n hn
  obtain ⟨q, hq, hq', hm⟩ := h n hn
  simp only [meaningIn, hq, hq', hm]

namespace Sound

variable {d d' : Draft} {meanings meanings' : Meanings}

/-- Nothing is defined at first. -/
theorem empty (meanings : Meanings) : Sound {} meanings where
  consistent := consistent_empty
  known h := by simp at h
  names h := by simp at h
  pending h := by simp at h

/-- A draft that has grown is sound if the meanings of the old places have been kept and those of
the new ones were taken from the old draft. -/
theorem extend (h : d.Sound meanings) (hc : d'.Consistent)
    (hold : ∀ {place define}, d.file.listing.at? place = some define →
      d'.file.listing.at? place = some define ∧ meanings' place = meanings place)
    (hnew : ∀ {place define}, d'.file.listing.at? place = some define →
      d.file.listing.at? place = none →
      (∀ v, define.value = some v → meanings' place = .ok v) ∧
      (define.value = none → d.NamesBefore place define.expr ∧
        meanings' place = define.expr.valueUnder (d.meaningIn meanings place.program))) :
    d'.Sound meanings' := by
  have hlookup : ∀ {scope name q}, d.scopes.lookupIn scope name = some q →
      d'.scopes.lookupIn scope name = some q ∧ meanings' q = meanings q := by
    intro scope name q hq
    obtain ⟨hname, -⟩ := h.consistent.lookupIn_eq_some_iff.1 hq
    obtain ⟨define, hat, -⟩ := Option.map_eq_some_iff.1 hname
    exact ⟨lookupIn_of_grown h.consistent hc (fun hat => (hold hat).1) hq, (hold hat).2⟩
  -- every define without a value, old or new, was judged by what the old draft could see
  have hpending : ∀ {place define}, d'.file.listing.at? place = some define →
      define.value = none → d.NamesBefore place define.expr ∧
        meanings' place = define.expr.valueUnder (d.meaningIn meanings place.program) := by
      intro place define hat hvalue
      cases hbefore : d.file.listing.at? place with
      | none => exact (hnew hat hbefore).2 hvalue
      | some define₀ =>
        obtain ⟨hsame, hm⟩ := hold hbefore
        rw [hat] at hsame
        cases hsame
        exact ⟨h.names hbefore hvalue, hm.trans (h.pending hbefore hvalue)⟩
  exact {
    consistent := hc
    known := by
      intro place define v hat hvalue
      cases hbefore : d.file.listing.at? place with
      | none => exact (hnew hat hbefore).1 v hvalue
      | some define₀ =>
        obtain ⟨hsame, hm⟩ := hold hbefore
        rw [hat] at hsame
        cases hsame
        rw [hm]
        exact h.known hbefore hvalue
    names := by
      intro place define hat hvalue n hn
      obtain ⟨q, hq, hbefore⟩ := (hpending hat hvalue).1 n hn
      exact ⟨q, (hlookup hq).1, hbefore⟩
    pending := by
      intro place define hat hvalue
      obtain ⟨hnames, hm⟩ := hpending hat hvalue
      rw [hm]
      refine (valueUnder_meaningIn_congr fun n hn => ?_).symm
      obtain ⟨q, hq, -⟩ := hnames n hn
      exact ⟨q, hq, hlookup hq⟩ }

/-- Storing meanings keeps a draft sound. -/
theorem of_caches (h : d.Sound meanings) (hc : Caches meanings d d') : d'.Sound meanings := by
  have hlookupIn : ∀ scope, d'.scopes.lookupIn scope = d.scopes.lookupIn scope := by
    intro scope
    simp only [hc.scopes_eq]
  have hmeaningIn : ∀ scope, d'.meaningIn meanings scope = d.meaningIn meanings scope := by
      intro scope
      funext name
      simp only [meaningIn, hc.scopes_eq, hc.names_eq]
  exact {
    consistent := h.consistent.of_caches hc
    known := by
      intro place define v hat hvalue
      obtain ⟨define, hat₀, rfl | ⟨w, hw, rfl⟩⟩ := hc.at?_eq hat
      · exact h.known hat₀ hvalue
      · cases hvalue
        exact hw
    names := by
      intro place define' hat hvalue n hn
      obtain ⟨define, hat₀, rfl | ⟨w, hw, rfl⟩⟩ := hc.at?_eq hat
      · rw [hlookupIn]
        exact h.names hat₀ hvalue n hn
      · cases hvalue
    pending := by
      intro place define' hat hvalue
      obtain ⟨define, hat₀, rfl | ⟨w, hw, rfl⟩⟩ := hc.at?_eq hat
      · rw [hmeaningIn]
        exact h.pending hat₀ hvalue
      · cases hvalue }

/-! ### Evaluating in a sound draft -/

/-- Whatever the current program is, the meanings fit what is visible. -/
theorem explains (h : d.Sound meanings) : d.Explains meanings where
  defined hlookup := by
    obtain ⟨define, hat, -⟩ := h.consistent.exists_at? hlookup
    exact ⟨define, hat⟩
  known _ hat hvalue := h.known hat hvalue
  pending {name place define} hp := by
    obtain ⟨hlookup, hat, hvalue⟩ := hp
    rw [h.pending hat hvalue, meaningOf_eq_meaningIn]
    refine (valueUnder_meaningIn_congr fun n hn => ?_).symm
    obtain ⟨q, hq, -⟩ := h.names hat hvalue n hn
    exact ⟨q, hq, h.consistent.lookup_of_lookupIn hlookup hq, rfl⟩

end Sound

/-- The number of defines without a value that stand before a place and can be seen from it. -/
def pendingBefore (d : Draft) (place : Place) : Nat :=
  (match place.program with
    | none => 0
    | some _ => d.file.listing.defines.countP (!·.isEvaluated)) +
  ((d.file.listing.definesIn place.program).take place.index).countP (!·.isEvaluated)

/-- A list holds more before a place than before an earlier one, if what stands there counts. -/
theorem countP_take_lt {α : Type} {p : α → Bool} {l : List α} {i j : Nat} {a : α}
    (h : l[i]? = some a) (ha : p a = true) (hij : i < j) :
    (l.take i).countP p < (l.take j).countP p := by
  have hnext : (l.take (i + 1)).countP p = (l.take i).countP p + 1 := by
    rw [List.take_add_one, h, List.countP_append]
    simp [ha]
  have hmono : (l.take (i + 1)).countP p ≤ (l.take j).countP p :=
    (List.take_sublist_take_left (by omega)).countP_le
  omega

/-- A define without a value is counted. -/
theorem not_isEvaluated {define : Define Symbol} (h : define.value = none) :
    (!define.isEvaluated) = true := by
  simp [Define.isEvaluated, h]

/-- What stands before an earlier place without a value is less. -/
theorem pendingBefore_lt {d : Draft} {p q : Place} {define : Define Symbol}
    (hat : d.file.listing.at? q = some define) (hvalue : define.value = none) (h : q.Before p) :
    d.pendingBefore q < d.pendingBefore p := by
  have hcounts := not_isEvaluated hvalue
  obtain ⟨scope, i⟩ := p
  obtain ⟨scope', j⟩ := q
  rcases h with ⟨hq, hp⟩ | ⟨hsame, hlt⟩
  · obtain ⟨k, hk⟩ := Option.ne_none_iff_exists'.1 hp
    simp only at hq hk
    subst hq hk
    have hle : (d.file.listing.defines.take (j + 1)).countP (!·.isEvaluated) ≤
        d.file.listing.defines.countP (!·.isEvaluated) :=
      (List.take_sublist _ _).countP_le
    have hjust := countP_take_lt (p := (!·.isEvaluated)) hat hcounts (Nat.lt_add_one j)
    simp only [pendingBefore, Listing.definesIn] at hjust ⊢
    omega
  · simp only at hsame hlt
    subst hsame
    have hjust := countP_take_lt (p := (!·.isEvaluated)) hat hcounts hlt
    simp only [pendingBefore]
    simp only at hjust
    omega

/-- What stands before a place without a value is less than all. -/
theorem pendingBefore_lt_pending {d : Draft} {p : Place} {define : Define Symbol}
    (hat : d.file.listing.at? p = some define) (hvalue : define.value = none) :
    d.pendingBefore p < d.file.listing.pending := by
  have hcounts := not_isEvaluated hvalue
  obtain ⟨scope, i⟩ := p
  have hjust := countP_take_lt (p := (!·.isEvaluated)) hat hcounts (Nat.lt_add_one i)
  have hle := (List.take_sublist (i + 1) (d.file.listing.definesIn scope)).countP_le
    (p := (!·.isEvaluated))
  simp only at hjust
  cases scope with
  | none =>
    simp only [pendingBefore, Listing.pending, Listing.allDefines, List.countP_append,
      Listing.definesIn] at hjust hle ⊢
    omega
  | some k =>
    cases hget : d.file.listing.programs[k]? with
    | none => simp [Listing.at?, Listing.definesIn, hget] at hat
    | some program =>
      have hmem := List.mem_map_of_mem (f := Program.defines) (List.mem_of_getElem? hget)
      have hall := (List.sublist_flatten_of_mem hmem).countP_le (p := (!·.isEvaluated))
      simp only [pendingBefore, Listing.pending, Listing.allDefines, List.countP_append,
        Listing.definesIn, hget, Option.map_some, Option.getD_some, List.flatMap_def]
        at hjust hle hall ⊢
      omega

namespace Sound

variable {d : Draft} {meanings : Meanings}

/-- Along the names in defines without a value, less and less stands before them. -/
theorem descends (h : d.Sound meanings) : d.Descends d.pendingBefore := by
  intro name place define hp other hother place' define' hp'
  obtain ⟨hlookup, hat, hvalue⟩ := hp
  obtain ⟨hlookup', hat', hvalue'⟩ := hp'
  obtain ⟨q, hq, hbefore⟩ := h.names hat hvalue other hother
  -- what the define refers to is also what the name stands for now
  have hnow := h.consistent.lookup_of_lookupIn hlookup hq
  rw [hlookup'] at hnow
  cases hnow
  exact pendingBefore_lt hat' hvalue' hbefore

/-- In a sound draft evaluation yields what the meanings say, and stores only meanings. -/
theorem evaluate_eq (h : d.Sound meanings) (e : Expr Symbol) :
    ∃ d', d.evaluate e = (e.valueUnder (d.meaningOf meanings), d') ∧ Caches meanings d d' :=
  evaluate_eq_valueUnder h.explains h.descends
    (fun hp => pendingBefore_lt_pending hp.2.1 hp.2.2) e

end Sound

end Draft

end PioFrontEnd
