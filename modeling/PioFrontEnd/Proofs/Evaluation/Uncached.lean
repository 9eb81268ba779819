import Mathlib.Logic.Relation
import Mathlib.Order.Nat
import PioFrontEnd.Proofs.Evaluation.Caching

/-!
# Evaluation without a cache

What an expression comes to can be said of a draft that stays as it is: a define with a value counts
as that value, and a define without one as its expression (`Draft.ComesToWithin`, `Draft.ComesTo`).
This is a relation and not a function, since defines without a value may need one another in a
circle, and then their expressions come to nothing.

* `ComesToWithin.unique`: an expression comes to one result at most.
* `ComesTo.within_pending`: if it comes to one, then within the depth to which a draft evaluates. On
  the way down every define without a value is entered at a depth of its own, so there are at least
  as many of them as levels.
* `terminates_of_acyclic`: if no define without a value needs itself, directly or through others, then
  every expression comes to a result.
-/

namespace PioFrontEnd

/-! ### Counting defines without a value -/

namespace Listing

variable {ν : Type}

/-- Fewer members with a property in one of many lists make fewer in all of them together. -/
theorem countP_flatMap_modify_lt {α β : Type} {p : β → Bool} {g : α → List β} {f : α → α}
    {l : List α} {i : Nat} {a : α} (h : l[i]? = some a)
    (hlt : (g (f a)).countP p < (g a).countP p) :
    ((l.modify i f).flatMap g).countP p < (l.flatMap g).countP p := by
  induction l generalizing i with
  | nil => cases h
  | cons b l ih =>
    cases i with
    | zero =>
      cases h
      rw [List.modify_zero_cons, List.flatMap_cons, List.flatMap_cons, List.countP_append,
        List.countP_append]
      exact Nat.add_lt_add_right hlt _
    | succ i =>
      rw [List.modify_succ_cons, List.flatMap_cons, List.flatMap_cons, List.countP_append,
        List.countP_append]
      exact Nat.add_lt_add_left (ih h) _

/-- Taking one entry out of the count makes the count smaller. -/
theorem countP_modify_lt {α : Type} {p : α → Bool} {f : α → α} {l : List α} {i : Nat} {a : α}
    (h : l[i]? = some a) (ha : p a = true) (hf : p (f a) = false) :
    (l.modify i f).countP p < l.countP p := by
  have hone : [f a].countP p < [a].countP p := by simp [ha, hf]
  have hmany := countP_flatMap_modify_lt (g := fun b => [b]) h hone
  rwa [List.flatMap_singleton', List.flatMap_singleton'] at hmany

/-- A value that is given to a define without one leaves fewer of them. -/
theorem pending_setValue_lt {l : Listing ν} {place : Place} {define : Define ν}
    (hat : l.at? place = some define) (hvalue : define.value = none) (v : Int32) :
    (l.setValue v place).pending < l.pending := by
  have hcount : ∀ {defines : List (Define ν)}, defines[place.index]? = some define →
      (defines.modify place.index fun d => { d with value := some v }).countP (!·.isEvaluated) <
        defines.countP (!·.isEvaluated) := fun hget =>
    countP_modify_lt hget (by simp [Define.isEvaluated, hvalue]) rfl
  obtain ⟨program, index⟩ := place
  cases program with
  | none =>
    simp only [pending, allDefines, setValue, modifyDefines, List.countP_append]
    exact Nat.add_lt_add_right (hcount hat) _
  | some k =>
    cases hget : l.programs[k]? with
    | none => simp [at?, definesIn, hget] at hat
    | some program =>
      simp only [at?, definesIn, hget, Option.map_some, Option.getD_some] at hat
      simp only [pending, allDefines, setValue, modifyDefines, List.countP_append]
      exact Nat.add_lt_add_left (countP_flatMap_modify_lt hget (hcount hat)) _

/-- There are no more places of defines without a value than defines without a value. -/
theorem length_le_pending {l : Listing ν} {places : List Place} (hnodup : places.Nodup)
    (hat : ∀ p ∈ places, ∃ define, l.at? p = some define ∧ define.value = none) :
    places.length ≤ l.pending := by
  induction places generalizing l with
  | nil => exact Nat.zero_le _
  | cons p places ih =>
    obtain ⟨hnew, hnodup⟩ := List.nodup_cons.1 hnodup
    obtain ⟨define, hp, hvalue⟩ := hat p List.mem_cons_self
    -- a value is given to one of them, and the others are counted
    have hrest : places.length ≤ (l.setValue 0 p).pending := ih hnodup fun q hq => by
      obtain ⟨define', hq', hvalue'⟩ := hat q (List.mem_cons_of_mem _ hq)
      have hne : q ≠ p := fun heq => hnew (heq ▸ hq)
      exact ⟨define', by rw [at?_setValue, if_neg hne, hq'], hvalue'⟩
    exact Nat.lt_of_le_of_lt hrest (pending_setValue_lt hp hvalue 0)

end Listing

namespace Draft

/-! ### Results -/

/-- What an expression comes to in a draft as it is, with defines without a value nested at most so
deep. The left operand comes before the right one. -/
inductive ComesToWithin (d : Draft) : Nat → Expr Symbol → Except Cause Int32 → Prop where
  /-- A literal comes to its value. -/
  | literal {depth : Nat} (v : Int32) : ComesToWithin d depth (.literal v) (.ok v)
  /-- A name that stands for nothing is unknown. -/
  | unknown {depth : Nat} {n : Symbol} (hfind : d.find? n = none) :
    ComesToWithin d depth (.name n) (.error (.unknownIdentifier (d.file.names.resolve n)))
  /-- The name of a define with a value comes to that value. -/
  | known {depth : Nat} {n : Symbol} {place : Place} {define : Define Symbol} {v : Int32}
    (hfind : d.find? n = some (place, define)) (hvalue : define.value = some v) :
    ComesToWithin d depth (.name n) (.ok v)
  /-- The name of a define without a value comes to what its expression comes to. -/
  | deferred {depth : Nat} {n : Symbol} {place : Place} {define : Define Symbol}
    {result : Except Cause Int32} (hfind : d.find? n = some (place, define))
    (hvalue : define.value = none) (h : ComesToWithin d depth define.expr result) :
    ComesToWithin d (depth + 1) (.name n) result
  /-- What prevents the left operand from having a value is reported. -/
  | leftFails {depth : Nat} {op : Operator} {l r : Expr Symbol} {p : Bool} {cause : Cause}
    (hl : ComesToWithin d depth l (.error cause)) :
    ComesToWithin d depth (.binary op l r p) (.error cause)
  /-- Otherwise what prevents the right one is. -/
  | rightFails {depth : Nat} {op : Operator} {l r : Expr Symbol} {p : Bool} {a : Int32}
    {cause : Cause} (hl : ComesToWithin d depth l (.ok a))
    (hr : ComesToWithin d depth r (.error cause)) :
    ComesToWithin d depth (.binary op l r p) (.error cause)
  /-- Values are joined by the operator. -/
  | applied {depth : Nat} {op : Operator} {l r : Expr Symbol} {p : Bool} {a b : Int32}
    (hl : ComesToWithin d depth l (.ok a)) (hr : ComesToWithin d depth r (.ok b)) :
    ComesToWithin d depth (.binary op l r p) ((op.apply a b).elim (.error .divisionByZero) .ok)

/-- Whether an expression comes to a result in a draft as it is. -/
def ComesTo (d : Draft) (e : Expr Symbol) (result : Except Cause Int32) : Prop :=
  ∃ depth, d.ComesToWithin depth e result

/-- Whether every visible define without a value comes to a result, so that none leads on without
end. -/
def Terminates (d : Draft) : Prop :=
  ∀ {n place define}, d.Pending n place define → ∃ result, d.ComesTo define.expr result

variable {d : Draft} {depth depth' : Nat} {e : Expr Symbol} {result result' : Except Cause Int32}

/-- More depth makes no difference. -/
theorem ComesToWithin.mono (h : d.ComesToWithin depth e result) (hle : depth ≤ depth') :
    d.ComesToWithin depth' e result := by
  induction h generalizing depth' with
  | literal v => exact .literal v
  | unknown hfind => exact .unknown hfind
  | known hfind hvalue => exact .known hfind hvalue
  | deferred hfind hvalue _ ih =>
    cases depth' with
    | zero => cases hle
    | succ depth' => exact .deferred hfind hvalue (ih (Nat.le_of_succ_le_succ hle))
  | leftFails _ ihl => exact .leftFails (ihl hle)
  | rightFails _ _ ihl ihr => exact .rightFails (ihl hle) (ihr hle)
  | applied _ _ ihl ihr => exact .applied (ihl hle) (ihr hle)

/-- An expression comes to one result at most. -/
theorem ComesToWithin.unique (h : d.ComesToWithin depth e result)
    (h' : d.ComesToWithin depth' e result') : result = result' := by
  induction h generalizing depth' result' with
  | literal v => cases h' with | literal => rfl
  | unknown hfind =>
    cases h' with
    | unknown => rfl
    | known hfind' => cases hfind.symm.trans hfind'
    | deferred hfind' => cases hfind.symm.trans hfind'
  | known hfind hvalue =>
    cases h' with
    | unknown hfind' => cases hfind.symm.trans hfind'
    | known hfind' hvalue' =>
      cases hfind.symm.trans hfind'
      cases hvalue.symm.trans hvalue'
      rfl
    | deferred hfind' hvalue' =>
      cases hfind.symm.trans hfind'
      cases hvalue.symm.trans hvalue'
  | deferred hfind hvalue _ ih =>
    cases h' with
    | unknown hfind' => cases hfind.symm.trans hfind'
    | known hfind' hvalue' =>
      cases hfind.symm.trans hfind'
      cases hvalue.symm.trans hvalue'
    | deferred hfind' hvalue' h' =>
      cases hfind.symm.trans hfind'
      exact ih h'
  | leftFails _ ihl =>
    cases h' with
    | leftFails hl => exact ihl hl
    | rightFails hl => cases ihl hl
    | applied hl => cases ihl hl
  | rightFails _ _ ihl ihr =>
    cases h' with
    | leftFails hl => cases ihl hl
    | rightFails hl hr => exact ihr hr
    | applied hl hr => cases ihr hr
  | applied _ _ ihl ihr =>
    cases h' with
    | leftFails hl => cases ihl hl
    | rightFails hl hr => cases ihr hr
    | applied hl hr =>
      cases ihl hl
      cases ihr hr
      rfl

namespace ComesTo

variable {op : Operator} {l r : Expr Symbol} {p : Bool} {a b : Int32} {cause : Cause}

/-- A name comes to what the expression of its define comes to, if that has no value. -/
theorem deferred {n : Symbol} {place : Place} {define : Define Symbol}
    (hfind : d.find? n = some (place, define)) (hvalue : define.value = none)
    (h : d.ComesTo define.expr result) : d.ComesTo (.name n) result :=
  let ⟨depth, h⟩ := h
  ⟨depth + 1, .deferred hfind hvalue h⟩

/-- An operation fails for what its left operand fails for. -/
theorem leftFails (hl : d.ComesTo l (.error cause)) :
    d.ComesTo (.binary op l r p) (.error cause) :=
  let ⟨depth, hl⟩ := hl
  ⟨depth, .leftFails hl⟩

/-- An operation fails for what its right operand fails for, if the left one has a value. -/
theorem rightFails (hl : d.ComesTo l (.ok a)) (hr : d.ComesTo r (.error cause)) :
    d.ComesTo (.binary op l r p) (.error cause) :=
  let ⟨_, hl⟩ := hl
  let ⟨_, hr⟩ := hr
  ⟨_, .rightFails (hl.mono (Nat.le_max_left _ _)) (hr.mono (Nat.le_max_right _ _))⟩

/-- An operation comes to what its operator makes of the values of the operands, if it can. -/
theorem applied (hl : d.ComesTo l (.ok a)) (hr : d.ComesTo r (.ok b)) :
    d.ComesTo (.binary op l r p) ((op.apply a b).elim (.error .divisionByZero) .ok) :=
  let ⟨_, hl⟩ := hl
  let ⟨_, hr⟩ := hr
  ⟨_, .applied (hl.mono (Nat.le_max_left _ _)) (hr.mono (Nat.le_max_right _ _))⟩

end ComesTo

/-- An expression comes to one thing at most. -/
theorem ComesTo.unique (h : d.ComesTo e result) (h' : d.ComesTo e result') : result = result' := by
  obtain ⟨_, h⟩ := h
  obtain ⟨_, h'⟩ := h'
  exact h.unique h'

/-! ### The depth of evaluation -/

/-- If a result takes all of a depth, then a define without a value is met whose expression takes all
of the depth below. -/
theorem ComesToWithin.exists_pending (h : d.ComesToWithin (depth + 1) e result)
    (hdeep : ∀ result', ¬ d.ComesToWithin depth e result') :
    ∃ n place define result', d.Pending n place define ∧
      d.ComesToWithin depth define.expr result' ∧
      ∀ less < depth, ∀ result'', ¬ d.ComesToWithin less define.expr result'' := by
  generalize hk : depth + 1 = k at h
  induction h with
  | literal v => exact absurd (.literal v) (hdeep _)
  | unknown hfind => exact absurd (.unknown hfind) (hdeep _)
  | known hfind hvalue => exact absurd (.known hfind hvalue) (hdeep _)
  | @deferred _ n place define _ hfind hvalue h _ =>
    cases hk
    refine ⟨n, place, define, _, pending_iff.2 ⟨hfind, hvalue⟩, h,
      fun less hless result'' hsmall => ?_⟩
    exact hdeep _ ((ComesToWithin.deferred hfind hvalue hsmall).mono hless)
  | leftFails hl ihl =>
    exact ihl (fun _ h' => hdeep _ (.leftFails (hl.unique h' ▸ h'))) hk
  | @rightFails _ op l r p a cause hl hr ihl ihr =>
    by_cases hleft : ∃ result', d.ComesToWithin depth l result'
    · obtain ⟨_, hl'⟩ := hleft
      cases hl.unique hl'
      exact ihr (fun _ h' => hdeep _ (.rightFails hl' (hr.unique h' ▸ h'))) hk
    · exact ihl (fun _ h' => hleft ⟨_, h'⟩) hk
  | @applied _ op l r p a b hl hr ihl ihr =>
    by_cases hleft : ∃ result', d.ComesToWithin depth l result'
    · obtain ⟨_, hl'⟩ := hleft
      cases hl.unique hl'
      exact ihr (fun _ h' => hdeep _ (.applied hl' (hr.unique h' ▸ h'))) hk
    · exact ihl (fun _ h' => hleft ⟨_, h'⟩) hk

/-- If a result takes all of a depth, then there is a define without a value for every level. -/
theorem ComesToWithin.exists_places (h : d.ComesToWithin depth e result)
    (hdeep : ∀ less < depth, ∀ result', ¬ d.ComesToWithin less e result') :
    ∃ places : List Place, places.length = depth ∧ places.Nodup ∧
      ∀ p ∈ places, ∃ n define, d.Pending n p define ∧
        ∃ less < depth, ∃ result', d.ComesToWithin less define.expr result' := by
  induction depth generalizing e result with
  | zero => exact ⟨[], rfl, List.nodup_nil, fun p hp => by cases hp⟩
  | succ depth ih =>
    obtain ⟨n, place, define, result', hpending, hbelow, hdeep'⟩ :=
      h.exists_pending (hdeep depth (Nat.lt_succ_self depth))
    obtain ⟨places, hlength, hnodup, hplaces⟩ := ih hbelow hdeep'
    refine ⟨place :: places, by rw [List.length_cons, hlength], ?_, ?_⟩
    · -- the others are met at a lower level, where this one could not have a result
      refine List.nodup_cons.2 ⟨fun hmem => ?_, hnodup⟩
      obtain ⟨n', define', hpending', less, hless, result'', hsmall⟩ := hplaces place hmem
      cases hpending.2.1.symm.trans hpending'.2.1
      exact hdeep' less hless result'' hsmall
    · intro p hp
      rcases List.mem_cons.1 hp with rfl | hp
      · exact ⟨n, define, hpending, depth, Nat.lt_succ_self depth, result', hbelow⟩
      · obtain ⟨n', define', hpending', less, hless, hsmall⟩ := hplaces p hp
        exact ⟨n', define', hpending', less, Nat.lt_succ_of_lt hless, hsmall⟩

/-- An expression that comes to a result comes to it within the depth to which a draft evaluates. -/
theorem ComesTo.within_pending (h : d.ComesTo e result) :
    d.ComesToWithin d.file.listing.pending e result := by
  classical
  have hleast := Nat.find_spec h
  obtain ⟨places, hlength, hnodup, hplaces⟩ := hleast.exists_places fun less hless result' hsmall =>
    Nat.find_min h hless (hsmall.unique hleast ▸ hsmall)
  have hbound : places.length ≤ d.file.listing.pending :=
    Listing.length_le_pending hnodup fun p hp => by
      obtain ⟨n, define, hpending, -⟩ := hplaces p hp
      exact ⟨define, hpending.2⟩
  exact hleast.mono (hlength ▸ hbound)

/-! ### Where every expression comes to a result -/

/-- A name comes to a result if the expression of its define does when that has no value. -/
theorem exists_comesTo_name {n : Symbol}
    (h : ∀ {place define}, d.Pending n place define → ∃ result, d.ComesTo define.expr result) :
    ∃ result, d.ComesTo (.name n) result := by
  cases hfind : d.find? n with
  | none => exact ⟨_, 0, .unknown hfind⟩
  | some found =>
    obtain ⟨place, define⟩ := found
    cases hvalue : define.value with
    | some v => exact ⟨_, 0, .known hfind hvalue⟩
    | none =>
      obtain ⟨result, hresult⟩ := h (pending_iff.2 ⟨hfind, hvalue⟩)
      exact ⟨result, hresult.deferred hfind hvalue⟩

/-- An expression comes to a result if its names do. -/
theorem exists_comesTo_of_names (h : ∀ n ∈ e.names, ∃ result, d.ComesTo (.name n) result) :
    ∃ result, d.ComesTo e result := by
  induction e with
  | literal v => exact ⟨_, 0, .literal v⟩
  | name n => exact h n (by simp [Expr.names])
  | binary op l r p ihl ihr =>
    obtain ⟨left, hl⟩ := ihl fun n hn => h n (by simp [Expr.names, hn])
    obtain ⟨right, hr⟩ := ihr fun n hn => h n (by simp [Expr.names, hn])
    cases left with
    | error cause => exact ⟨_, hl.leftFails⟩
    | ok a =>
      cases right with
      | error cause => exact ⟨_, hl.rightFails hr⟩
      | ok b => exact ⟨_, hl.applied hr⟩

/-- If no define leads on without end, then every expression comes to a result. -/
theorem Terminates.exists_comesTo (h : d.Terminates) (e : Expr Symbol) :
    ∃ result, d.ComesTo e result :=
  exists_comesTo_of_names fun _ _ => exists_comesTo_name h

/-- Whether the expression of a define without a value has a name that stands for another one. -/
def Needs (d : Draft) (p q : Place) : Prop :=
  ∃ n define, d.Pending n p define ∧ ∃ m ∈ define.expr.names, ∃ define', d.Pending m q define'

/-- An expression comes to a result if it is needed by different defines without a value and none of
these needs itself. What is not among them yet becomes less and less. -/
theorem exists_comesTo_of_needed (hacyclic : ∀ p, ¬ Relation.TransGen d.Needs p p)
    {places : List Place} (hnodup : places.Nodup)
    (hat : ∀ p ∈ places, ∃ define, d.file.listing.at? p = some define ∧ define.value = none)
    (hneeds : ∀ n ∈ e.names, ∀ {q define}, d.Pending n q define →
      ∀ p ∈ places, Relation.TransGen d.Needs p q) : ∃ result, d.ComesTo e result := by
  induction hroom : d.file.listing.pending - places.length using Nat.strong_induction_on
    generalizing places e with
  | _ room ih =>
    refine exists_comesTo_of_names fun n hn => exists_comesTo_name fun {q define} hq => ?_
    have hnew : q ∉ places := fun hmem => hacyclic q (hneeds n hn hq q hmem)
    have hnodup' : (q :: places).Nodup := List.nodup_cons.2 ⟨hnew, hnodup⟩
    have hat' : ∀ p ∈ q :: places, ∃ define, d.file.listing.at? p = some define ∧
        define.value = none := List.forall_mem_cons.2 ⟨⟨define, hq.2⟩, hat⟩
    have hlength := Listing.length_le_pending hnodup' hat'
    rw [List.length_cons] at hlength
    refine ih _ (by rw [List.length_cons]; omega) hnodup' hat' ?_ rfl
    intro m hm q' define' hq'
    have hneed : d.Needs q q' := ⟨n, define, hq, m, hm, define', hq'⟩
    exact List.forall_mem_cons.2 ⟨.single hneed, fun p hp => (hneeds n hn hq p hp).tail hneed⟩

/-- Evaluation comes to an end if no define without a value needs itself, directly or through
others. -/
theorem terminates_of_acyclic (hacyclic : ∀ p, ¬ Relation.TransGen d.Needs p p) : d.Terminates :=
  fun hpending => exists_comesTo_of_needed hacyclic List.nodup_nil (by simp) (by simp)

end Draft

end PioFrontEnd
