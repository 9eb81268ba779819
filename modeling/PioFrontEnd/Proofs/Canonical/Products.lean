import PioFrontEnd.Proofs.Canonical.Shape
import PioFrontEnd.Proofs.Evaluation.Caching

/-!
# Products that are grouped anew

The canonical form of products and quotients does not show how they are grouped, and they are read
grouped from the left (`Expr.regroup`). A product of words does not depend on its grouping, since it
wraps; a quotient does. So the value is kept as long as all that is moved is factors of a product:
what stands on the right of a product, and is a product or a quotient itself, has to be made of
products only. On the left quotients may stand, as they are grouped from the left already.

* `Expr.Reassociable`: the condition on the products and quotients of an expression.
* `Expr.valueUnder_regroup`: under this condition an expression keeps its value, or the cause for
  which it has none, when it is grouped from the left.
-/

namespace PioFrontEnd.Expr

variable {ν : Type}

/-- Whether all products and quotients that are reached from here through products and quotients are
products. -/
def ChainOfProducts : Expr ν → Prop
  | literal _ | name _ => True
  | binary op l r _ =>
    op.isMultiplicative = true → op = .mul ∧ l.ChainOfProducts ∧ r.ChainOfProducts

/-- Whether every product or quotient that is the right operand of one is a factor of a product and
made of products only. -/
def Reassociable : Expr ν → Prop
  | literal _ | name _ => True
  | binary op l r _ =>
    l.Reassociable ∧ r.Reassociable ∧
      (op.isMultiplicative = true → r.isMultiplicative = true → op = .mul ∧ r.ChainOfProducts)

instance decidableChainOfProducts : (e : Expr ν) → Decidable e.ChainOfProducts
  | literal _ | name _ => .isTrue trivial
  | binary op l r _ =>
    have := decidableChainOfProducts l
    have := decidableChainOfProducts r
    inferInstanceAs (Decidable (op.isMultiplicative = true → op = .mul ∧ _ ∧ _))

instance decidableReassociable : (e : Expr ν) → Decidable e.Reassociable
  | literal _ | name _ => .isTrue trivial
  | binary op l r _ =>
    have := decidableReassociable l
    have := decidableReassociable r
    inferInstanceAs (Decidable (_ ∧ _ ∧
      (op.isMultiplicative = true → r.isMultiplicative = true → op = .mul ∧ r.ChainOfProducts)))

/-- Where no product or quotient is the right operand of one there is nothing to be moved. -/
theorem Straight.reassociable {e : Expr ν} (h : e.Straight) : e.Reassociable := by
  induction e with
  | literal v => trivial
  | name n => trivial
  | binary op l r p ihl ihr =>
    obtain ⟨hl, hr, hright⟩ := h
    exact ⟨ihl hl, ihr hr, fun hop hmult => absurd ⟨hop, hmult⟩ hright⟩

variable {meaning : ν → Except Cause Int32}

/-- The value of an expression depends on the values of its operands only. -/
theorem valueUnder_binary_congr {op : Operator} {l l' r r' : Expr ν} {p p' : Bool}
    (hl : l.valueUnder meaning = l'.valueUnder meaning)
    (hr : r.valueUnder meaning = r'.valueUnder meaning) :
    (binary op l r p).valueUnder meaning = (binary op l' r' p').valueUnder meaning := by
  simp only [valueUnder, hl, hr]

/-- A factor may be moved out of the right operand of a product. The factors are evaluated in the
same order, and a product always has a value. -/
theorem valueUnder_mul_assoc (x l r : Expr ν) (p p' q q' : Bool) :
    (binary .mul (binary .mul x l p) r q).valueUnder meaning =
      (binary .mul x (binary .mul l r p') q').valueUnder meaning := by
  simp only [valueUnder]
  rcases x.valueUnder meaning with cause | a
  · rfl
  rcases l.valueUnder meaning with cause | b
  · rfl
  rcases r.valueUnder meaning with cause | c
  · rfl
  simp only [Operator.apply, Int32.mul_assoc]

/-- Grouped from the left, an expression has the value that it has as it is, as the right operand of
what waits for one. If that is a product or quotient and so is the expression, then both must be
products. -/
theorem valueUnder_regroup {e : Expr ν} (h : e.Reassociable) {waiting : Option (Waiting ν)}
    (hwaiting : ∀ w ∈ waiting, e.isMultiplicative = true → w.op = .mul ∧ e.ChainOfProducts) :
    (regroup waiting e).valueUnder meaning = (attach waiting e).valueUnder meaning := by
  induction e generalizing waiting with
  | literal v => rfl
  | name n => rfl
  | binary op l r p ihl ihr =>
    obtain ⟨hl, hr, hright⟩ := h
    by_cases hop : op.isMultiplicative = true
    · have hleft : ∀ w ∈ waiting, l.isMultiplicative = true → w.op = .mul ∧ l.ChainOfProducts := by
        intro w hw _
        obtain ⟨hmul, hchain⟩ := hwaiting w hw hop
        exact ⟨hmul, (hchain hop).2.1⟩
      have hlast : ∀ w ∈ some (⟨op, regroup waiting l⟩ : Waiting ν),
          r.isMultiplicative = true → w.op = .mul ∧ r.ChainOfProducts := by
        intro w hw hmult
        cases hw
        exact hright hop hmult
      rw [regroup, if_pos hop, ihr hr hlast, attach]
      -- the left operand takes what waits, and the right one comes last
      calc (binary op (regroup waiting l) r false).valueUnder meaning
          = (binary op (attach waiting l) r false).valueUnder meaning :=
            valueUnder_binary_congr (ihl hl hleft) rfl
        _ = (attach waiting (binary op l r p)).valueUnder meaning := by
            cases waiting with
            | none => rfl
            | some w =>
              obtain ⟨hmul, hchain⟩ := hwaiting w rfl hop
              rw [attach, attach, hmul, (hchain hop).1]
              exact valueUnder_mul_assoc _ _ _ _ _ _ _
    · have hnone : ∀ e : Expr ν, ∀ w ∈ (none : Option (Waiting ν)),
          e.isMultiplicative = true → w.op = .mul ∧ e.ChainOfProducts := by simp
      have hboth : (binary op (regroup none l) (regroup none r) p).valueUnder meaning =
          (binary op l r p).valueUnder meaning :=
        valueUnder_binary_congr (ihl hl (hnone l)) (ihr hr (hnone r))
      rw [regroup, if_neg hop]
      cases waiting with
      | none => exact hboth
      | some w => exact valueUnder_binary_congr rfl hboth

end PioFrontEnd.Expr
