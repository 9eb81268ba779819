import PioFrontEnd.Compilation
import PioFrontEnd.Proofs.Evaluation.Caching
import PioFrontEnd.Proofs.Listing
import PioFrontEnd.Proofs.Token.Positions

/-!
# A source read by name

This file says what a source means without symbols, scopes, places or values that are found later.
All that is kept while the lines are taken one after another is a listing over names. A name is
searched among the shared defines and those of the last program (`Listing.visible`), in this order;
a program is searched among the programs. A define is evaluated from the values of the visible
defines, and is put at the end of what is visible (`Listing.append`).

* `Listing.takeLine`: what one line does to a listing.
* `compileByName`: the listing of a source, or the first thing that is wrong with it, by line and
  column in the whole source.
* `File.ofNamed`: the file of a listing. Its table has the names of the programs and defines, each
  once, in the order in which they come first.
-/

namespace PioFrontEnd

/-! ### Lines -/

/-- The lines that are left in a stream. A fault takes the place of its line. -/
def TokenStream.lines (s : TokenStream) : List (Except Fault Line) :=
  match _h : s.nextLine with
  | (none, _) => []
  | (some line, s') => line :: lines s'
termination_by s.remaining
decreasing_by exact TokenStream.remaining_lt_of_nextLine _h

/-- A stream that draws no line has no lines left. -/
theorem TokenStream.lines_of_none {s s' : TokenStream} (h : s.nextLine = (none, s')) :
    s.lines = [] := by
  rw [lines]
  split <;> simp_all

/-- The lines of a stream are the one that is drawn next and those drawn after it. -/
theorem TokenStream.lines_of_some {s s' : TokenStream} {line : Except Fault Line}
    (h : s.nextLine = (some line, s')) : s.lines = line :: s'.lines := by
  rw [lines]
  split <;> simp_all

/-- A search by name finds a define of that name. -/
theorem name_of_find? {ν : Type} [DecidableEq ν] {defines : List (Define ν)} {define : Define ν}
    {name : ν} (h : defines.find? (·.name = name) = some define) : define.name = name := by
  have hname := List.find?_some h
  exact of_decide_eq_true hname

/-! ### Taking lines -/

/-- What is left of an outcome without its error is a result exactly if the outcome was that. -/
theorem toOption_eq_some {ε α : Type} {x : Except ε α} {a : α} :
    x.toOption = some a ↔ x = .ok a := by
  cases x <;> simp [Except.toOption]

/-- A change of errors leaves a result as it is. -/
theorem mapError_ok {ε ε' α : Type} (f : ε → ε') (a : α) :
    (Except.ok a : Except ε α).mapError f = .ok a := rfl

/-- A change of errors changes an error. -/
theorem mapError_error {ε ε' α : Type} (f : ε → ε') (e : ε) :
    (Except.error e : Except ε α).mapError f = .error (f e) := rfl

namespace Listing

/-- The visible define with a name. -/
def find? (l : Listing Text) (name : Text) : Option (Define Text) :=
  l.visible.find? (·.name = name)

/-- A name itself, if it is the name of a visible define. -/
def see (l : Listing Text) (name : Text) : Option Text := (l.find? name).map Define.name

/-- The value of a visible define. -/
def valueOf (l : Listing Text) (name : Text) : Except Cause Int32 :=
  match (l.find? name).bind Define.value with
  | some v => .ok v
  | none => .error (.unknownIdentifier name)

/-- Adds a program, unless there is one of this name. -/
def beginProgram (l : Listing Text) (name : Text) : Except Cause (Listing Text) :=
  if (l.program? name).isSome then .error (.duplicateProgram name) else .ok (l.addProgram name)

/-- Puts a define with the value of its expression at the end, unless its name is visible. -/
def defineConstant (l : Listing Text) (exported : Bool) (name : Text) (expr : Expr Text) :
    Except Cause (Listing Text) :=
  match expr.valueUnder l.valueOf with
  | .error cause => .error cause
  | .ok value =>
    if (l.find? name).isSome then .error (.duplicateDefine name)
    else .ok (l.append { name := name, exported := exported, expr := expr, value := some value })

/-- Obeys a statement. -/
def obey (l : Listing Text) : Statement Text → Except Cause (Listing Text)
  | .program name => l.beginProgram name
  | .define exported name expr => l.defineConstant exported name expr

/-- Reads a line with what is visible and obeys it. -/
def takeLine (l : Listing Text) (line : Line) : Except Fault (Listing Text) :=
  match Statement.read l.see line with
  | .error fault => .error fault
  | .ok statement => (l.obey statement).mapError (⟨·, line.peek.span.start⟩)

/-- Takes lines up to the first fault. -/
def takeLines (l : Listing Text) : List (Except Fault Line) → Except Fault (Listing Text)
  | [] => .ok l
  | .error fault :: _ => .error fault
  | .ok line :: lines =>
    match l.takeLine line with
    | .error fault => .error fault
    | .ok l => l.takeLines lines

/-! ### Outcomes -/

variable {l l' : Listing Text} {name : Text}

/-- A name that is found among the visible defines is seen. -/
theorem see_eq_some (h : (l.find? name).isSome = true) : l.see name = some name := by
  obtain ⟨d, hd⟩ := Option.isSome_iff_exists.1 h
  rw [see, hd]
  exact congrArg some (name_of_find? hd)

/-- A name is seen as itself. -/
theorem eq_of_see {n : Text} (h : l.see name = some n) : n = name := by
  obtain ⟨d, hd, rfl⟩ := Option.map_eq_some_iff.1 h
  exact name_of_find? hd

/-- A name that is seen is found among the visible defines. -/
theorem isSome_find?_of_see {n : Text} (h : l.see name = some n) : (l.find? n).isSome = true := by
  obtain rfl := eq_of_see h
  obtain ⟨d, hd, -⟩ := Option.map_eq_some_iff.1 h
  rw [hd]
  rfl

/-- A program begins exactly if there is none of its name, and then it is added. -/
theorem beginProgram_eq_ok : l.beginProgram name = .ok l' ↔
    (l.program? name).isSome = false ∧ l' = l.addProgram name := by
  unfold beginProgram
  cases (l.program? name).isSome <;> simp [eq_comm]

/-- A define is added exactly if its expression has a value and its name is not taken, and then it
is put at the end with that value. -/
theorem defineConstant_eq_ok {exported : Bool} {expr : Expr Text} :
    l.defineConstant exported name expr = .ok l' ↔ ∃ v, expr.valueUnder l.valueOf = .ok v ∧
      (l.find? name).isSome = false ∧ l' = l.append
        { name := name, exported := exported, expr := expr, value := some v } := by
  unfold defineConstant
  cases expr.valueUnder l.valueOf with
  | error cause => simp
  | ok v => cases (l.find? name).isSome <;> simp [eq_comm]

/-- What a line leads to, if it is taken. -/
theorem toOption_takeLines_cons (l : Listing Text) (line : Line)
    (lines : List (Except Fault Line)) :
    (l.takeLines (.ok line :: lines)).toOption =
      (Statement.read l.see line).toOption.bind fun statement =>
        (l.obey statement).toOption.bind fun l => (l.takeLines lines).toOption := by
  rw [takeLines, takeLine]
  cases Statement.read l.see line with
  | error fault => rfl
  | ok statement =>
    dsimp only [Except.toOption, Option.bind]
    cases l.obey statement <;> rfl

/-- A line is taken exactly if it can be read and obeyed. -/
theorem takeLine_eq_ok {line : Line} : l.takeLine line = .ok l' ↔
    ∃ statement, Statement.read l.see line = .ok statement ∧ l.obey statement = .ok l' := by
  unfold takeLine
  rcases Statement.read l.see line with fault | statement
  · simp
  · simp only [Except.ok.injEq, exists_eq_left']
    rcases l.obey statement with cause | l₁
    · simp only [mapError_error, reduceCtorEq]
    · simp only [mapError_ok, Except.ok.injEq]

/-- Lines are taken exactly if the first one is and then the others are. -/
theorem takeLines_cons_eq_ok {line : Line} {lines : List (Except Fault Line)} :
    l.takeLines (.ok line :: lines) = .ok l' ↔
      ∃ l₁, l.takeLine line = .ok l₁ ∧ l₁.takeLines lines = .ok l' := by
  rw [takeLines]
  rcases l.takeLine line with fault | l₁ <;> simp

end Listing

/-- The listing of a source, or the first thing that is wrong with it. -/
def compileByName (source : Text) : Except Diagnostic (Listing Text) :=
  (({} : Listing Text).takeLines (TokenStream.ofText source).lines).mapError
    (·.diagnose (.ofText source))

/-- The file of a listing over names. -/
def File.ofNamed (l : Listing Text) : File :=
  let names : NameTable := ⟨l.declared.eraseDups⟩
  { names := names, listing := l.map fun name => (names.intern name).1 }

end PioFrontEnd
