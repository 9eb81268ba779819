import PioFrontEnd.Proofs.ByName.Simulation

/-!
# Compilation is the reading by name

A compilation works with symbols, numbered scopes and values that are stored in a draft. None of
this can be told from its outcome: the file, with names in place of symbols, is the listing that the
lines of the source make by name, and a failure is the same failure at the same place of the source.
The table and the symbols of the file are determined by that listing too. A name is in the table
only if a program or a define has it, and a name that another program has entered is no more visible
than one that nobody has.
-/

namespace PioFrontEnd

/-- A compilation ends as the reading by name does. Its file has the listing that is read, and is
the file of that listing. -/
theorem compile_agrees_by_name (source : Text) :
    (compile source).map File.named = compileByName source ∧
      compile source = (compileByName source).map File.ofNamed := by
  unfold compileByName
  cases hl : ({} : Listing Text).takeLines (TokenStream.ofText source).lines with
  | error fault =>
    obtain ⟨hcompile, -⟩ := compile_of_fault hl
    rw [hcompile]
    exact ⟨rfl, rfl⟩
  | ok l =>
    obtain ⟨d, hcompile, hshows⟩ := exists_draft_of_listing hl
    rw [hcompile]
    exact ⟨congrArg Except.ok hshows.named, congrArg Except.ok hshows.file_eq⟩

end PioFrontEnd
