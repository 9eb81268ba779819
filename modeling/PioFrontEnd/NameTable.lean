import PioFrontEnd.Text.Basic

/-!
# The name table

Names are entered once and from then on are known by a `Symbol`, their place in the order of first
entry. Symbols are compared in place of names. A symbol that was never handed out stands for the
empty name.

* `resolve_intern`: an entered name is found again through its symbol.
* `symbol?_intern`: the symbol of a name is the one given at its entry, and entering a name leaves
  the symbols of all other names as they were.
-/

namespace PioFrontEnd

/-- A name by its place in the table. -/
structure Symbol where
  /-- The place. -/
  index : Nat
  deriving DecidableEq, Repr

/-- The names that have been entered, in order. -/
structure NameTable where
  /-- The names. -/
  names : List Text := []
  deriving DecidableEq, Repr

namespace NameTable

/-- The name of a symbol, if it was handed out. -/
def name? (table : NameTable) (s : Symbol) : Option Text := table.names[s.index]?

/-- The name of a symbol; the empty one if it was never handed out. -/
def resolve (table : NameTable) (s : Symbol) : Text := (table.name? s).getD []

/-- The symbol of a name, if it has been entered. -/
def symbol? (table : NameTable) (name : Text) : Option Symbol :=
  (table.names.findIdx? (· = name)).map Symbol.mk

/-- Enters a name, unless it has been entered before, and gives its symbol. -/
def intern (table : NameTable) (name : Text) : Symbol × NameTable :=
  match table.symbol? name with
  | some s => (s, table)
  | none => (⟨table.names.length⟩, ⟨table.names ++ [name]⟩)

/-- A symbol that is found by a name belongs to that name. -/
theorem name?_of_symbol? {table : NameTable} {name : Text} {s : Symbol}
    (h : table.symbol? name = some s) : table.name? s = some name := by
  obtain ⟨i, hi, rfl⟩ := Option.map_eq_some_iff.1 h
  obtain ⟨hlt, hp, -⟩ := List.findIdx?_eq_some_iff_getElem.1 hi
  simp only [decide_eq_true_eq] at hp
  exact List.getElem?_eq_some_iff.2 ⟨hlt, hp⟩

/-- An entered name is found again through its symbol. -/
theorem name?_intern (table : NameTable) (name : Text) :
    (table.intern name).2.name? (table.intern name).1 = some name := by
  unfold intern
  split
  · rename_i s h
    exact name?_of_symbol? h
  · simp [name?]

/-- The symbol that is given out when a name is entered belongs to that name. -/
theorem resolve_intern (table : NameTable) (name : Text) :
    (table.intern name).2.resolve (table.intern name).1 = name := by
  simp [resolve, name?_intern]

/-- The symbol of a name is the one given at its entry; no other name has its symbol changed. -/
theorem symbol?_intern (table : NameTable) (name other : Text) :
    (table.intern name).2.symbol? other =
      if other = name then some (table.intern name).1 else table.symbol? other := by
  unfold intern
  split
  · rename_i s h
    split
    · rename_i he
      rw [he, h]
    · rfl
  · rename_i h
    have hnone : table.names.findIdx? (· = name) = none := by
      simpa [symbol?] using h
    simp only [symbol?, List.findIdx?_append]
    by_cases he : other = name
    · subst he
      simp [hnone]
    · have hne : ¬ name = other := fun h => he h.symm
      cases table.names.findIdx? (· = other) <;> simp [he, hne]

end NameTable

end PioFrontEnd
