import PioFrontEnd.Expr.Operator

/-!
# Constant expressions

An expression is a literal word, a name, or two expressions joined by an operator. The type of
names is a parameter: expressions of a source that is being compiled hold symbols of its name
table, and expressions that are printed, or compared across sources, hold the names themselves.
`Expr.map` passes from one to the other.
-/

namespace PioFrontEnd

/-- A constant expression over names of type `ν`. -/
inductive Expr (ν : Type) where
  /-- A word given by a numeral. -/
  | literal (value : Int32)
  /-- The value of the define with this name. -/
  | name (n : ν)
  /-- Two operands joined by an operator. The flag says that the expression is printed in
  parentheses; it has no part in the value. -/
  | binary (op : Operator) (left right : Expr ν) (parenthesized : Bool)
  deriving DecidableEq, Repr

namespace Expr

variable {ν μ : Type}

/-- The expression with other names. -/
def map (f : ν → μ) : Expr ν → Expr μ
  | literal v => literal v
  | name n => name (f n)
  | binary op l r p => binary op (l.map f) (r.map f) p

/-- The names of an expression, from left to right. -/
def names : Expr ν → List ν
  | literal _ => []
  | name n => [n]
  | binary _ l r _ => l.names ++ r.names

/-- Whether an expression is more than a literal or a name. -/
def isBinary : Expr ν → Bool
  | binary .. => true
  | _ => false

/-- The names in an expression with other names are the other names, in the same order. -/
@[simp] theorem names_map (f : ν → μ) (e : Expr ν) : (e.map f).names = e.names.map f := by
  induction e with
  | literal | name => rfl
  | binary op l r p ihl ihr => simp [map, names, ihl, ihr]

/-- Other names do not turn an operation into something else. -/
@[simp] theorem isBinary_map (f : ν → μ) (e : Expr ν) : (e.map f).isBinary = e.isBinary := by
  cases e <;> rfl

end Expr

end PioFrontEnd
