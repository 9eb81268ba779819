import PioFrontEnd.Statement

/-!
# Compilation

Compiling a source draws its lines one by one and obeys each of them, until the source ends or
something is wrong. The state of a compilation can be taken up again after a fault: it goes on
with the next line, and what earlier lines defined is still there. `compile` stops at the first
fault and reports it by line and column.

`regenerate` compiles a source, prints the file in canonical form, and compiles that in turn.

* `run_of_none`, `run_of_fault`, `run_of_refused`, `run_of_taken`: what a run does with the next line.
-/

namespace PioFrontEnd

/-- The state of a compilation: what is left of the source, and what has been read. -/
structure Compilation where
  /-- What is left of the source. -/
  stream : TokenStream
  /-- What has been read. -/
  draft : Draft := {}
  deriving DecidableEq, Repr

namespace Compilation

/-- The beginning of the compilation of a source. -/
def ofText (source : Text) : Compilation := { stream := .ofText source }

/-- Obeys the lines that are left, up to the end of the source or the first fault. -/
def run (c : Compilation) : Except Fault Unit × Compilation :=
  match _h : c.stream.nextLine with
  | (none, stream) => (.ok (), { c with stream := stream })
  | (some (.error fault), stream) => (.error fault, { c with stream := stream })
  | (some (.ok line), stream) =>
    match c.draft.takeLine line with
    | (.error fault, draft) => (.error fault, ⟨stream, draft⟩)
    | (.ok (), draft) => run ⟨stream, draft⟩
termination_by c.stream.remaining
decreasing_by exact TokenStream.remaining_lt_of_nextLine _h

/-! ### One line at a time -/

variable {c : Compilation} {stream : TokenStream} {draft : Draft} {line : Line} {fault : Fault}

/-- Without a line there is nothing to obey. -/
theorem run_of_none (h : c.stream.nextLine = (none, stream)) :
    c.run = (.ok (), { c with stream := stream }) := by
  rw [run]
  split <;> simp_all

/-- A fault among the tokens of a line is reported. -/
theorem run_of_fault (h : c.stream.nextLine = (some (.error fault), stream)) :
    c.run = (.error fault, { c with stream := stream }) := by
  rw [run]
  split <;> simp_all

/-- A fault found while a line is taken is reported. -/
theorem run_of_refused (h : c.stream.nextLine = (some (.ok line), stream))
    (ht : c.draft.takeLine line = (.error fault, draft)) : c.run = (.error fault, ⟨stream, draft⟩) := by
  rw [run]
  split <;> simp_all

/-- After a line has been taken the next one is drawn. -/
theorem run_of_taken (h : c.stream.nextLine = (some (.ok line), stream))
    (ht : c.draft.takeLine line = (.ok (), draft)) : c.run = run ⟨stream, draft⟩ := by
  rw [run]
  split <;> simp_all

end Compilation

/-- Compiles a source into a file, or reports what is wrong with it first. -/
def compile (source : Text) : Except Diagnostic File :=
  match (Compilation.ofText source).run with
  | (.ok (), c) => .ok c.draft.file
  | (.error fault, c) => .error (fault.diagnose c.stream.breaks)

/-- The canonical source after each of so many rounds of compiling and printing. A diagnostic is
the last of them. -/
def regenerate : Nat → Text → List (Except Diagnostic Text)
  | 0, _ => []
  | rounds + 1, source =>
    match compile source with
    | .error diagnostic => [.error diagnostic]
    | .ok file => .ok file.source :: regenerate rounds file.source

end PioFrontEnd
