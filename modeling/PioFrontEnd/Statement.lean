import PioFrontEnd.Draft.Evaluation
import PioFrontEnd.Expr.Reading

/-!
# Statements

A line is one statement: `.program NAME`, or `.define NAME EXPRESSION`, where the name may follow
the qualifier `PUBLIC`. Reading a statement looks at its tokens and at what is visible; obeying it
changes the draft.

Every name in an expression is checked while the expression is read, so an unknown name is
reported where it stands. What goes wrong when a statement is obeyed is reported at its directive:
first a division by zero, then a name that is already taken. A define is evaluated before its own
name is declared and so cannot see itself.
-/

namespace PioFrontEnd

/-- What a line says, over names of type `ν` in expressions. -/
inductive Statement (ν : Type) where
  /-- Begins a program. -/
  | program (name : Text)
  /-- Gives a name to a constant. -/
  | define (exported : Bool) (name : Text) (expr : Expr ν)
  deriving DecidableEq, Repr

namespace Statement

variable {ν : Type}

/-- Reads what follows `.program`, which stands at `site`. -/
def readProgram (site : Nat) (line : Line) : Except Fault (Statement ν) :=
  match line.read? .symbol with
  | none => .error ⟨.programSyntax, site⟩
  | some (name, line) => do
    line.finish
    return .program name.text

/-- Reads what follows `.define`, which stands at `site`. -/
def readDefine (see : Text → Option ν) (site : Nat) (line : Line) : Except Fault (Statement ν) :=
  let (exported, line) :=
    match line.read? (.qualifier .exported) with
    | some (_, line) => (true, line)
    | none => (false, line)
  match line.read? .symbol with
  | none => .error ⟨.defineSyntax, site⟩
  | some (name, line) => do
    let (expr, line) ← Expr.read see line
    line.finish
    return .define exported name.text expr

/-- Reads the statement of a line, given what is visible. -/
def read (see : Text → Option ν) (line : Line) : Except Fault (Statement ν) :=
  let site := line.peek.span.start
  match line.peek.kind with
  | .directive .program => readProgram site line.rest
  | .directive .define => readDefine see site line.rest
  | _ => .error ⟨.unexpectedItem, site⟩

end Statement

namespace Draft

/-- Begins a program. -/
def beginProgram (d : Draft) (name : Text) : Except Cause Unit × Draft :=
  let (s, d) := d.intern name
  match d.openProgram s with
  | some d => (.ok (), d)
  | none => (.error (.duplicateProgram name), d)

/-- Evaluates and adds a define. -/
def defineConstant (d : Draft) (exported : Bool) (name : Text) (expr : Expr Symbol) :
    Except Cause Unit × Draft :=
  match d.evaluate expr with
  | (.error cause, d) => (.error cause, d)
  | (.ok value, d) =>
    let (s, d) := d.intern name
    match d.addDefine { name := s, exported := exported, expr := expr, value := some value } with
    | some d => (.ok (), d)
    | none => (.error (.duplicateDefine name), d)

/-- Obeys a statement. -/
def obey (d : Draft) : Statement Symbol → Except Cause Unit × Draft
  | .program name => d.beginProgram name
  | .define exported name expr => d.defineConstant exported name expr

/-- Reads a line and obeys it. -/
def takeLine (d : Draft) (line : Line) : Except Fault Unit × Draft :=
  match Statement.read d.see line with
  | .error fault => (.error fault, d)
  | .ok statement =>
    match d.obey statement with
    | (.ok (), d) => (.ok (), d)
    | (.error cause, d) => (.error ⟨cause, line.peek.span.start⟩, d)

end Draft

end PioFrontEnd
