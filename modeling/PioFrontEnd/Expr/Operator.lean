import PioFrontEnd.Token.Basic

/-!
# Operators on words

The seven binary operators of constant expressions. Each is written with a mark, binds its
operands more or less tightly, and acts on signed words of 32 bits. All arithmetic wraps; a
quotient is truncated toward zero, and it is the only operation that can fail, by a divisor of
zero.

* `ofMark?_eq_some`: an operator and its mark determine each other.
* `apply_eq_none`: only division by zero has no result.
-/

namespace PioFrontEnd

/-- The binary operators. -/
inductive Operator where
  /-- The sum. -/
  | add
  /-- The difference. -/
  | sub
  /-- The product. -/
  | mul
  /-- The quotient. -/
  | div
  /-- The bits that are set in both operands. -/
  | and
  /-- The bits that are set in either operand. -/
  | or
  /-- The bits that are set in exactly one operand. -/
  | xor
  deriving DecidableEq, Repr

namespace Operator

/-- The mark that an operator is written with. -/
def mark : Operator → Mark
  | add => .plus
  | sub => .minus
  | mul => .star
  | div => .slash
  | and => .ampersand
  | or => .pipe
  | xor => .caret

/-- The operator of a mark, if it is the mark of one. -/
def ofMark? : Mark → Option Operator
  | .plus => some add
  | .minus => some sub
  | .star => some mul
  | .slash => some div
  | .ampersand => some and
  | .pipe => some or
  | .caret => some xor
  | _ => none

/-- How tightly an operator binds its operands, from `|`, the loosest, to `*` and `/`. -/
def tightness : Operator → Nat
  | or => 0
  | xor => 1
  | and => 2
  | add | sub => 3
  | mul | div => 4

/-- Whether an operator is one of the two that bind most tightly. -/
def isMultiplicative : Operator → Bool
  | mul | div => true
  | _ => false

/-- The result of an operator, if it has one. -/
def apply : Operator → Int32 → Int32 → Option Int32
  | add, a, b => some (a + b)
  | sub, a, b => some (a - b)
  | mul, a, b => some (a * b)
  | div, a, b => if b = 0 then none else some (a / b)
  | and, a, b => some (a &&& b)
  | or, a, b => some (a ||| b)
  | xor, a, b => some (a ^^^ b)

/-- An operator and its mark determine each other. -/
theorem ofMark?_eq_some {m : Mark} {op : Operator} : ofMark? m = some op ↔ m = op.mark := by
  constructor
  · intro h
    cases m <;> first | (cases h; rfl) | simp [ofMark?] at h
  · rintro rfl
    cases op <;> rfl

/-- Different operators have different marks. -/
theorem mark_injective : Function.Injective mark := fun op op' h => by
  have hop : ofMark? op.mark = some op' := ofMark?_eq_some.2 h
  rw [ofMark?_eq_some.2 rfl] at hop
  exact Option.some.inj hop

/-- No operator is written as an opening parenthesis. -/
@[simp] theorem mark_ne_openParen (op : Operator) : op.mark ≠ .openParen := by
  cases op <;> decide

/-- No operator is written as a closing parenthesis. -/
@[simp] theorem mark_ne_closeParen (op : Operator) : op.mark ≠ .closeParen := by
  cases op <;> decide

/-- Only division by zero has no result. -/
theorem apply_eq_none {op : Operator} {a b : Int32} : op.apply a b = none ↔ op = div ∧ b = 0 := by
  cases op <;> simp [apply]

/-- No operator binds more tightly than the multiplicative ones. -/
theorem tightness_le (op : Operator) : op.tightness ≤ 4 := by
  cases op <;> decide

/-- Multiplication and division are the operators that bind most tightly. -/
theorem isMultiplicative_iff {op : Operator} : op.isMultiplicative = true ↔ op.tightness = 4 := by
  cases op <;> simp [isMultiplicative, tightness]

/-- All other operators bind less tightly. -/
theorem tightness_lt (op : Operator) (h : op.isMultiplicative = false) : op.tightness < 4 := by
  have hne : op.tightness ≠ 4 := fun ht => by
    rw [isMultiplicative_iff.2 ht] at h
    cases h
  have := op.tightness_le
  omega

end Operator

end PioFrontEnd
