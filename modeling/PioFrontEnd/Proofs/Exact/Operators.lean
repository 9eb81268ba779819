import Mathlib.Data.Int.Bitwise
import Mathlib.Data.Int.ModEq
import PioFrontEnd.Expr.Operator

/-!
# Operators on unbounded integers

The operators of constant expressions have a meaning for integers of any size
(`Operator.unbounded?`): arithmetic does not wrap, and `&`, `|` and `^` act on two's complement
without end. Every word stands for a class of integers modulo `2 ^ 32`, and `Int32.ofInt` picks the
word of an integer. All operators but the quotient respect these classes, so it makes no difference
whether a result wraps or its operands did before.

* `Operator.apply_ofInt`: an operator that is no quotient acts on words as it acts on integers.
* `Int32.ofInt_eq_iff_modEq`: the word of an integer is the only one that is congruent to it.
-/

namespace PioFrontEnd

namespace Operator

/-- The result of an operator on unbounded integers, if it has one. A quotient is truncated toward
zero. -/
def unbounded? : Operator → Int → Int → Option Int
  | add, a, b => some (a + b)
  | sub, a, b => some (a - b)
  | mul, a, b => some (a * b)
  | div, a, b => if b = 0 then none else some (a.tdiv b)
  | and, a, b => some (Int.land a b)
  | or, a, b => some (Int.lor a b)
  | xor, a, b => some (Int.xor a b)

end Operator

/-! ### Bits -/

/-- A bit of the word of an integer is that bit of the integer. -/
theorem getLsbD_ofInt (n : Nat) (a : Int) (k : Nat) :
    (BitVec.ofInt n a).getLsbD k = (decide (k < n) && a.testBit k) := by
  cases a with
  | ofNat m =>
    show (BitVec.ofInt n (m : Int)).getLsbD k = _
    rw [BitVec.ofInt_natCast, BitVec.getLsbD_ofNat]
    rfl
  | negSucc m =>
    have hbit : (Int.negSucc m).testBit k = !m.testBit k := rfl
    rw [BitVec.ofInt_negSucc_eq_not_ofNat, BitVec.getLsbD_not, BitVec.getLsbD_ofNat, hbit]
    by_cases hk : k < n <;> simp [hk]

/-- What acts on each bit alone acts on words as it acts on integers. -/
theorem ofInt_of_testBit {n : Nat} {f : Int → Int → Int} {g : BitVec n → BitVec n → BitVec n}
    {bit : Bool → Bool → Bool} (hf : ∀ a b k, (f a b).testBit k = bit (a.testBit k) (b.testBit k))
    (hg : ∀ x y k, k < n → (g x y).getLsbD k = bit (x.getLsbD k) (y.getLsbD k)) (a b : Int) :
    BitVec.ofInt n (f a b) = g (BitVec.ofInt n a) (BitVec.ofInt n b) := by
  apply BitVec.eq_of_getLsbD_eq
  intro k hk
  rw [hg _ _ k hk, getLsbD_ofInt, getLsbD_ofInt, getLsbD_ofInt, hf]
  simp [hk]

namespace Int32

/-! ### Words of integers -/

/-- The word of a conjunction of integers is the conjunction of their words. -/
theorem ofInt_land (a b : Int) : Int32.ofInt (Int.land a b) = Int32.ofInt a &&& Int32.ofInt b := by
  apply Int32.toBitVec_inj.1
  rw [Int32.toBitVec_and]
  exact ofInt_of_testBit Int.testBit_land (fun x y k _ => BitVec.getLsbD_and) a b

/-- The word of a disjunction of integers is the disjunction of their words. -/
theorem ofInt_lor (a b : Int) : Int32.ofInt (Int.lor a b) = Int32.ofInt a ||| Int32.ofInt b := by
  apply Int32.toBitVec_inj.1
  rw [Int32.toBitVec_or]
  exact ofInt_of_testBit Int.testBit_lor (fun x y k _ => BitVec.getLsbD_or) a b

/-- The word of an exclusive disjunction of integers is that of their words. -/
theorem ofInt_xor (a b : Int) : Int32.ofInt (Int.xor a b) = Int32.ofInt a ^^^ Int32.ofInt b := by
  apply Int32.toBitVec_inj.1
  rw [Int32.toBitVec_xor]
  exact ofInt_of_testBit Int.testBit_lxor (fun x y k _ => BitVec.getLsbD_xor) a b

/-- The word of an integer is the only one that is congruent to it. -/
theorem ofInt_eq_iff_modEq {z : Int} {w : Int32} :
    Int32.ofInt z = w ↔ w.toInt ≡ z [ZMOD 2 ^ 32] := by
  have hsize : ((Int32.size : Nat) : Int) = 2 ^ 32 := rfl
  constructor
  · rintro rfl
    rw [Int32.toInt_ofInt, Int.ModEq, ← hsize, Int.bmod_emod]
  · intro h
    rw [Int.ModEq, ← hsize] at h
    apply Int32.toInt_inj.1
    calc (Int32.ofInt z).toInt = z.bmod Int32.size := Int32.toInt_ofInt
      _ = w.toInt.bmod Int32.size := by rw [← Int.emod_bmod, ← h, Int.emod_bmod]
      _ = (Int32.ofInt w.toInt).toInt := Int32.toInt_ofInt.symm
      _ = w.toInt := by rw [Int32.ofInt_toInt]

end Int32

namespace Operator

/-- An operator that is no quotient acts on words as it acts on integers. -/
theorem apply_ofInt {op : Operator} (hop : op ≠ .div) (a b : Int) :
    ∃ z, op.unbounded? a b = some z ∧
      op.apply (Int32.ofInt a) (Int32.ofInt b) = some (Int32.ofInt z) := by
  cases op with
  | add => exact ⟨_, rfl, congrArg some (Int32.ofInt_add a b).symm⟩
  | sub => exact ⟨_, rfl, congrArg some (Int32.ofInt_sub a b).symm⟩
  | mul => exact ⟨_, rfl, congrArg some (Int32.ofInt_mul a b).symm⟩
  | div => exact absurd rfl hop
  | and => exact ⟨_, rfl, congrArg some (Int32.ofInt_land a b).symm⟩
  | or => exact ⟨_, rfl, congrArg some (Int32.ofInt_lor a b).symm⟩
  | xor => exact ⟨_, rfl, congrArg some (Int32.ofInt_xor a b).symm⟩

end Operator

end PioFrontEnd
