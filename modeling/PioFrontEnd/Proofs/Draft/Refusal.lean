import PioFrontEnd.Proofs.Draft.Reachability

/-!
# A line that is refused leaves no trace

A line can be refused late. When a program turns out to have a name that is taken, the name has been
entered already, and a define is entered after it has been evaluated. Entering does no harm in these
cases: a name is taken only if something of that name has been declared, and then the table has it,
as long as what is declared has its symbol from the table. What remains are the values that were
found on the way, in defines that had none (`Draft.Gains`).

* `Gains.evaluate`: an evaluation does nothing but give values to defines without one.
* `Consistent.of_takeLine_refused`: a line that is refused leaves the draft as it was, or as the
  evaluation of its expression left it.
-/

namespace PioFrontEnd

/-- A name is not entered again if its symbol has been handed out. -/
theorem NameTable.intern_of_has {table : NameTable} {name : Text}
    (h : table.Has (table.intern name).1) : (table.intern name).2 = table := by
  unfold intern at h ⊢
  split
  · rfl
  · rename_i hnone
    rw [hnone] at h
    exact absurd h (Nat.lt_irrefl _)

namespace Draft

/-! ### Gaining values -/

/-- The second draft is the first one, in which defines without a value may have got one. -/
structure Gains (d d' : Draft) : Prop where
  /-- They differ in values at most. -/
  agrees : d'.Agrees d
  /-- A define that has a value stays as it is. -/
  kept : ∀ {place define}, d.file.listing.at? place = some define → define.value ≠ none →
    d'.file.listing.at? place = some define

variable {d d' : Draft}

/-- A draft is itself without any gain. -/
theorem Gains.refl (d : Draft) : d.Gains d := ⟨⟨rfl, rfl, rfl⟩, fun hat _ => hat⟩

/-- Values that were gained on the way do not keep others from being gained. -/
theorem Gains.keptByStores (d : Draft) : KeptByStores d.Gains := by
  intro d₁ d₂ place define v h₁ hat hvalue h₂
  refine ⟨⟨h₂.agrees.names, h₂.agrees.scopes, ?_⟩, fun {other define'} hat' hvalue' => ?_⟩
  · exact (Listing.withoutValues_setValue _ _ _).trans h₂.agrees.listing
  · have hne : other ≠ place := by
      rintro rfl
      cases hat.symm.trans (h₁.kept hat' hvalue')
      exact hvalue' hvalue
    simp only [setValue, Listing.at?_setValue, if_neg hne]
    exact h₂.kept hat' hvalue'

/-- An evaluation does nothing but give values to defines without one. -/
theorem Gains.evaluate (d : Draft) (e : Expr Symbol) : d.Gains (d.evaluate e).2 :=
  of_evaluate (Gains.keptByStores d) e (Gains.refl d)

/-- Whether everything that is declared has its symbol from the table. -/
def Entered (d : Draft) : Prop := ∀ s ∈ d.file.listing.declared, d.file.names.Has s

/-- Values that are gained do not change which names have been entered. -/
theorem Entered.of_gains (h : d.Entered) (hgains : d.Gains d') : d'.Entered := by
  have hdeclared : d'.file.listing.declared = d.file.listing.declared := by
    have hsame := congrArg Listing.declared hgains.agrees.listing
    simpa only [Listing.withoutValues,
      Listing.declared_mapDefines (f := Define.withoutValue) fun _ => rfl] using hsame
  intro s hs
  rw [hdeclared] at hs
  rw [hgains.agrees.names]
  exact h s hs

/-! ### Lines that are refused -/

/-- Entering a name whose symbol is declared changes nothing. -/
theorem Entered.intern_eq_self (h : d.Entered) {name : Text}
    (hdeclared : (d.intern name).1 ∈ d.file.listing.declared) : (d.intern name).2 = d := by
  have hsame : (d.intern name).2.file.names = d.file.names :=
    NameTable.intern_of_has (h _ hdeclared)
  show { d with file := { d.file with names := (d.intern name).2.file.names } } = d
  rw [hsame]

namespace Consistent

/-- A program can be opened unless its name is declared. -/
theorem mem_declared_of_openProgram (h : d.Consistent) {name : Symbol}
    (hopen : d.openProgram name = none) : name ∈ d.file.listing.declared := by
  obtain ⟨i, hfind⟩ := Option.isSome_iff_exists.1 (openProgram_eq_none.1 hopen)
  obtain ⟨p, hget, hname⟩ := Option.map_eq_some_iff.1 ((h.programs name i).1 hfind)
  refine List.mem_append_right _ (List.mem_flatMap.2 ⟨p, List.mem_of_getElem? hget, ?_⟩)
  rw [hname]
  exact List.mem_cons_self

/-- A define can be added unless its name is declared. -/
theorem mem_declared_of_addDefine (h : d.Consistent) {define : Define Symbol}
    (hadd : d.addDefine define = none) : define.name ∈ d.file.listing.declared := by
  have hvisible := addDefine_eq_none.1 hadd
  rw [h.isVisible_eq] at hvisible
  obtain ⟨found, hfind⟩ := Option.isSome_iff_exists.1 hvisible
  have hname : found.name = define.name := name_of_find? hfind
  rw [← hname]
  exact Listing.mem_declared_of_mem_visible (List.mem_of_find?_eq_some hfind)

variable {cause : Cause}

/-- A program that is refused leaves no trace. -/
theorem of_beginProgram_refused (h : d.Consistent) (hentered : d.Entered) {name : Text}
    (hrefused : d.beginProgram name = (.error cause, d')) : d' = d := by
  unfold Draft.beginProgram at hrefused
  dsimp only at hrefused
  split at hrefused
  · cases hrefused
  · rename_i hopen
    cases hrefused
    exact hentered.intern_eq_self ((h.intern name).mem_declared_of_openProgram hopen)

/-- A define that is refused leaves what its evaluation leaves. -/
theorem of_defineConstant_refused (h : d.Consistent) (hentered : d.Entered) {exported : Bool}
    {name : Text} {e : Expr Symbol}
    (hrefused : d.defineConstant exported name e = (.error cause, d')) :
    d' = (d.evaluate e).2 := by
  have heval := h.evaluate e
  have hentered' := hentered.of_gains (Gains.evaluate d e)
  unfold Draft.defineConstant at hrefused
  rcases hd : d.evaluate e with ⟨cause' | v, d₁⟩
  · rw [hd] at hrefused
    cases hrefused
    rfl
  · rw [hd] at heval hentered' hrefused
    dsimp only at heval hentered' hrefused
    split at hrefused
    · cases hrefused
    · rename_i hadd
      cases hrefused
      exact hentered'.intern_eq_self ((heval.intern name).mem_declared_of_addDefine hadd)

/-- A line that is refused leaves no trace, or what the evaluation of its expression leaves. -/
theorem of_takeLine_refused (h : d.Consistent) (hentered : d.Entered) {line : Line} {fault : Fault}
    (hrefused : d.takeLine line = (.error fault, d')) :
    d' = d ∨ ∃ exported name e, Statement.read d.see line = .ok (.define exported name e) ∧
      d' = (d.evaluate e).2 := by
  unfold Draft.takeLine at hrefused
  split at hrefused
  · cases hrefused
    exact .inl rfl
  · rename_i statement hread
    split at hrefused
    · cases hrefused
    · rename_i cause d₁ hobey
      cases hrefused
      rcases statement with name | ⟨exported, name, e⟩
      · exact .inl (h.of_beginProgram_refused hentered hobey)
      · exact .inr ⟨exported, name, e, hread, h.of_defineConstant_refused hentered hobey⟩

end Consistent

end Draft

end PioFrontEnd
