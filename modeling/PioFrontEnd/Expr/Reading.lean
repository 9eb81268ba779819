import PioFrontEnd.Expr.Basic
import PioFrontEnd.Text.Decimal
import PioFrontEnd.Token.Line

/-!
# Reading expressions

An expression is read from the tokens of a line in one pass from left to right, each token being
looked at once. What has been read is a `Progress`: for every parenthesis that is open, and for
the line itself, the left operands that wait for what stands on their right. Within one such group
the waiting operators bind ever more tightly, since an operator first settles those to its left
that bind at least as tightly as itself. This makes `*` and `/` bind more tightly than `+` and `-`,
those more tightly than `&`, then `^`, then `|`, and operators of one level associate to the left.

A binary expression that is built while a parenthesis is open is flagged as parenthesized, unless
its operator is `*` or `/`.

A name is accepted only if it is visible. What is visible is a parameter, so that the reader knows
nothing of scopes. The expression ends before the first token that cannot go on with it when no
parenthesis is open; whether anything may follow there is for the statement to say.
-/

namespace PioFrontEnd.Expr

variable {ν : Type}

/-- A left operand and its operator, waiting for the right operand. -/
structure Waiting (ν : Type) where
  /-- The operator. -/
  op : Operator
  /-- Its left operand. -/
  left : Expr ν
  deriving DecidableEq, Repr

/-- What waits within one pair of parentheses, the tightest operator first. -/
abbrev Group (ν : Type) := List (Waiting ν)

/-- Joins two operands. Inside parentheses, all but products and quotients are flagged. -/
def join (inside : Bool) (op : Operator) (left right : Expr ν) : Expr ν :=
  .binary op left right (inside && !op.isMultiplicative)

/-- Gives a right operand to all that wait for one and bind at least as tightly as `bound`. -/
def settle (inside : Bool) (bound : Nat) : Group ν → Expr ν → Expr ν × Group ν
  | [], e => (e, [])
  | w :: group, e =>
    if bound ≤ w.op.tightness then settle inside bound group (join inside w.op w.left e)
    else (e, w :: group)

/-- Gives a right operand to all that wait for one. -/
def settleAll (inside : Bool) (group : Group ν) (e : Expr ν) : Expr ν := (settle inside 0 group e).1

/-- How far an expression has been read: the innermost group, and the groups around it. -/
inductive Progress (ν : Type) where
  /-- An operand is due. -/
  | operandDue (group : Group ν) (outer : List (Group ν))
  /-- An operand has just been completed. -/
  | operandRead (e : Expr ν) (group : Group ν) (outer : List (Group ν))
  deriving DecidableEq, Repr

/-- What a token does to an expression. -/
inductive Step (ν : Type) where
  /-- It belongs to the expression. -/
  | proceed (progress : Progress ν)
  /-- The expression has ended before it. -/
  | ended (e : Expr ν)
  /-- It cannot stand here. -/
  | fault (cause : Cause)
  deriving DecidableEq, Repr

namespace Progress

/-- The beginning of an expression. -/
def start : Progress ν := operandDue [] []

/-- Looks at a token where an operand is due. -/
def stepOperand (see : Text → Option ν) (group : Group ν) (outer : List (Group ν)) (token : Token) :
    Step ν :=
  match token.kind with
  | .number => .proceed (operandRead (.literal (Text.Decimal.value token.text)) group outer)
  | .symbol =>
    match see token.text with
    | some n => .proceed (operandRead (.name n) group outer)
    | none => .fault (.unknownIdentifier token.text)
  | .mark .openParen => .proceed (operandDue [] (group :: outer))
  | _ => .fault .expressionSyntax

/-- The operator that a token is, if it is one. -/
def operator? (token : Token) : Option Operator :=
  match token.kind with
  | .mark m => Operator.ofMark? m
  | _ => none

/-- Looks at a token after an operand. -/
def stepOperator (e : Expr ν) (group : Group ν) (outer : List (Group ν)) (token : Token) :
    Step ν :=
  match operator? token, outer with
  | some op, _ =>
    let (left, waiting) := settle (!outer.isEmpty) op.tightness group e
    .proceed (operandDue (⟨op, left⟩ :: waiting) outer)
  | none, [] => .ended (settleAll false group e)
  | none, around :: outer =>
    if token.kind = .mark .closeParen then
      .proceed (operandRead (settleAll true group e) around outer)
    else .fault .unclosedParenthesis

/-- Looks at the next token. -/
def step (see : Text → Option ν) : Progress ν → Token → Step ν
  | operandDue group outer, token => stepOperand see group outer token
  | operandRead e group outer, token => stepOperator e group outer token

/-- What the end of the line makes of an expression. -/
def conclude : Progress ν → Except Cause (Expr ν)
  | operandDue .. => .error .expressionSyntax
  | operandRead e group [] => .ok (settleAll false group e)
  | operandRead _ _ (_ :: _) => .error .unclosedParenthesis

/-- Reads on to the end of the expression. -/
def run (see : Text → Option ν) (stop : Token) :
    Progress ν → List Token → Except Fault (Expr ν × Line)
  | progress, [] =>
    match progress.conclude with
    | .ok e => .ok (e, ⟨[], stop⟩)
    | .error cause => .error ⟨cause, stop.span.start⟩
  | progress, token :: tokens =>
    match progress.step see token with
    | .proceed progress => run see stop progress tokens
    | .ended e => .ok (e, ⟨token :: tokens, stop⟩)
    | .fault cause => .error ⟨cause, token.span.start⟩

end Progress

/-- Reads an expression from the front of a line, and what is left of the line. -/
def read (see : Text → Option ν) (line : Line) : Except Fault (Expr ν × Line) :=
  Progress.start.run see line.stop line.tokens

end PioFrontEnd.Expr
