import PioFrontEnd.Diagnostic
import PioFrontEnd.Draft.Basic

/-!
# Evaluation

An expression is evaluated over the values of the defines that its names stand for, the left
operand before the right one. A define whose value is not known yet is evaluated when it is first
needed, with what is visible at that moment, and keeps its value. So evaluation takes a draft and
gives a draft back, also when it fails: what was evaluated on the way to a failure stays.

Defines without a value may need one another. A chain of them in which each needs the next has no
more members than there are defines without a value, unless it comes back to one of its own; so
that number bounds the depth of evaluation, and a name that is met below that depth has no value
and is reported as unknown.
-/

namespace PioFrontEnd.Draft

/-- What evaluation yields: a value or what prevents one, and the draft with what became known. -/
abbrev Evaluated := Except Cause Int32 × Draft

/-- Evaluates an expression, given how to find the value of a name. -/
def evaluateBy (lookUp : Symbol → Draft → Evaluated) : Expr Symbol → Draft → Evaluated
  | .literal v, d => (.ok v, d)
  | .name n, d => lookUp n d
  | .binary op l r _, d =>
    match evaluateBy lookUp l d with
    | (.error cause, d) => (.error cause, d)
    | (.ok a, d) =>
      match evaluateBy lookUp r d with
      | (.error cause, d) => (.error cause, d)
      | (.ok b, d) =>
        match op.apply a b with
        | some v => (.ok v, d)
        | none => (.error .divisionByZero, d)

/-- What is said of a name that has no value. -/
def unknown (d : Draft) (name : Symbol) : Evaluated :=
  (.error (.unknownIdentifier (d.file.names.resolve name)), d)

/-- The value of a name, given how to evaluate the define of a name that has no value yet. Such a
define keeps its value. -/
def lookUpBy (evaluateNew : Symbol → Expr Symbol → Draft → Evaluated) (name : Symbol) (d : Draft) :
    Evaluated :=
  match d.find? name with
  | none => d.unknown name
  | some (place, define) =>
    match define.value with
    | some v => (.ok v, d)
    | none =>
      match evaluateNew name define.expr d with
      | (.ok v, d) => (.ok v, d.setValue v place)
      | (.error cause, d) => (.error cause, d)

/-- The value of a name. Defines without a value are evaluated up to the given depth. -/
def lookUp : Nat → Symbol → Draft → Evaluated
  | 0 => lookUpBy fun name _ d => d.unknown name
  | depth + 1 => lookUpBy fun _ e d => evaluateBy (lookUp depth) e d

/-- Evaluates an expression with what is visible now. -/
def evaluate (d : Draft) (e : Expr Symbol) : Evaluated :=
  evaluateBy (lookUp d.file.listing.pending) e d

end PioFrontEnd.Draft
