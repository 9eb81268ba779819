import PioFrontEnd.NameTable

/-!
# Tables of distinct names

A name table that was filled by entering names has no name twice. In such a table names and the
symbols that were handed out determine each other, and entering names takes nothing away.

* `symbol?_resolve`, `resolve_inj`: distinct symbols have distinct names.
* `names_intern`: entering a name that is new makes it the last one.
* `eraseDups_concat`: so the table has the entered names in the order in which they come first.
-/

namespace PioFrontEnd

namespace NameTable

variable {table : NameTable} {name : Text} {s : Symbol}

/-- Whether a symbol was handed out by a table. -/
def Has (table : NameTable) (s : Symbol) : Prop := s.index < table.names.length

/-- A symbol that is found by a name stands for that name. -/
theorem resolve_of_symbol? (h : table.symbol? name = some s) : table.resolve s = name := by
  rw [resolve, name?_of_symbol? h, Option.getD_some]

/-- A symbol that is found by a name is one of the table. -/
theorem has_of_symbol? (h : table.symbol? name = some s) : table.Has s :=
  (List.getElem?_eq_some_iff.1 (name?_of_symbol? h)).1

/-- A symbol that was never handed out has the empty name. -/
theorem has_of_resolve_ne_nil (h : table.resolve s ≠ []) : table.Has s := by
  refine Nat.lt_of_not_le fun hle => h ?_
  rw [resolve, name?, List.getElem?_eq_none hle, Option.getD_none]

/-- A name has no symbol exactly if it has not been entered. -/
theorem symbol?_eq_none : table.symbol? name = none ↔ name ∉ table.names := by
  simp only [symbol?, Option.map_eq_none_iff, List.findIdx?_eq_none_iff, decide_eq_false_iff_not]
  exact ⟨fun h hmem => h name hmem rfl, fun h other hmem he => h (he ▸ hmem)⟩

/-- What a symbol of the table stands for has been entered. -/
theorem resolve_mem (h : table.Has s) : table.resolve s ∈ table.names := by
  rw [resolve, name?, List.getElem?_eq_getElem h, Option.getD_some]
  exact List.getElem_mem h

/-- In a table of distinct names, a name belongs to one symbol only. -/
theorem symbol?_resolve (hdistinct : table.names.Nodup) (h : table.Has s) :
    table.symbol? (table.resolve s) = some s := by
  cases hsymbol : table.symbol? (table.resolve s) with
  | none => exact absurd (resolve_mem h) (symbol?_eq_none.1 hsymbol)
  | some s' =>
    have hname : table.names[s'.index]? = table.names[s.index]? := by
      rw [← name?, name?_of_symbol? hsymbol, resolve, name?, List.getElem?_eq_getElem h,
        Option.getD_some]
    have hindex := (List.getElem?_inj (has_of_symbol? hsymbol) hdistinct).1 hname
    exact congrArg (fun i => some (Symbol.mk i)) hindex

/-- In a table of distinct names, symbols that stand for the same name are the same. -/
theorem resolve_inj (hdistinct : table.names.Nodup) {s t : Symbol} (hs : table.Has s)
    (ht : table.Has t) : table.resolve s = table.resolve t ↔ s = t := by
  constructor
  · intro hname
    have hsymbol := symbol?_resolve hdistinct hs
    rw [hname, symbol?_resolve hdistinct ht] at hsymbol
    exact (Option.some.inj hsymbol).symm
  · intro hst
    rw [hst]

/-- Entering a name that is new makes it the last one. -/
theorem names_intern (table : NameTable) (name : Text) :
    (table.intern name).2.names =
      if name ∈ table.names then table.names else table.names ++ [name] := by
  unfold intern
  cases hsymbol : table.symbol? name with
  | none => rw [if_neg (symbol?_eq_none.1 hsymbol)]
  | some s =>
    have hmem : name ∈ table.names := by
      rw [← resolve_of_symbol? hsymbol]
      exact resolve_mem (has_of_symbol? hsymbol)
    rw [if_pos hmem]

/-- A symbol of the table stays one when a name is entered. -/
theorem Has.intern (h : table.Has s) (name : Text) : (table.intern name).2.Has s := by
  rw [Has, names_intern]
  split
  · exact h
  · rw [List.length_append]
    exact Nat.lt_add_right _ h

/-- The symbol that is given out when a name is entered is one of the table. -/
theorem has_intern (table : NameTable) (name : Text) :
    (table.intern name).2.Has (table.intern name).1 :=
  (List.getElem?_eq_some_iff.1 (name?_intern table name)).1

/-- A symbol keeps its name when others are entered. -/
theorem resolve_intern_of_has (h : table.Has s) (name : Text) :
    (table.intern name).2.resolve s = table.resolve s := by
  rw [resolve, resolve, name?, name?, names_intern]
  split
  · rfl
  · rw [List.getElem?_append_left h]

/-- Entering a name, new or not, does not put a name into the table twice. -/
theorem nodup_intern (h : table.names.Nodup) (name : Text) : (table.intern name).2.names.Nodup := by
  rw [names_intern]
  split
  · exact h
  · rename_i hnot
    refine List.nodup_append.2 ⟨h, by simp, fun a ha b hb => ?_⟩
    rw [List.mem_singleton.1 hb]
    exact fun heq => hnot (heq ▸ ha)

end NameTable

/-- The names that have been entered one after another are in the table once each. -/
theorem eraseDups_concat (names : List Text) (name : Text) :
    (names ++ [name]).eraseDups =
      if name ∈ names.eraseDups then names.eraseDups else names.eraseDups ++ [name] := by
  rw [List.eraseDups_append]
  by_cases h : name ∈ names
  · rw [if_pos (List.mem_eraseDups.2 h)]
    simp [List.removeAll, h]
  · rw [if_neg fun hmem => h (List.mem_eraseDups.1 hmem)]
    simp [List.removeAll, h, List.eraseDups_cons]

end PioFrontEnd
