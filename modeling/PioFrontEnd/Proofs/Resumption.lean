import PioFrontEnd.Proofs.ByName.Salvage
import PioFrontEnd.Proofs.Draft.Refusal

/-!
# Going on after a fault

A compilation that has met a fault can be taken up again, and goes on with the next line. Since a
line that is refused leaves no trace, nothing of it is found later: when the compilation has been
taken up after every fault (`Compilation.runThrough`), the draft is the one that the source would
have led to if the refused lines had been empty.

In such a compilation every define has a value, so that not even the values that an evaluation
stores can be a trace of it. In general they can, because a define may be added without a value.

* `Compilation.run_absorbs`: a run takes lines up to the first one that is refused, and passes over
  that.
* `Compilation.runThrough_absorbs`: so the whole source is read as it is by name when wrong lines
  are passed over.
* `refusal_leaves_no_trace`: what follows for the draft that a refused line leaves, and for the file
  that comes out in the end.
-/

namespace PioFrontEnd

namespace Compilation

/-- A fault brings the stream closer to its end. -/
theorem remaining_lt_of_run {c c' : Compilation} {fault : Fault} (h : c.run = (.error fault, c')) :
    c'.stream.remaining < c.stream.remaining := by
  fun_induction run c with
  | case1 c stream hnext => cases h
  | case2 c fault' stream hnext =>
    cases h
    exact TokenStream.remaining_lt_of_nextLine hnext
  | case3 c line stream hnext fault' draft htake =>
    cases h
    exact TokenStream.remaining_lt_of_nextLine hnext
  | case4 c line stream hnext draft htake ih =>
    exact Nat.lt_trans (ih h) (TokenStream.remaining_lt_of_nextLine hnext)

/-- Runs to the end of the source and is taken up again after each fault. These are reported in
order, as they would be if the compilation ended with them. -/
def runThrough (c : Compilation) : List Diagnostic × Compilation :=
  match _h : c.run with
  | (.ok (), c') => ([], c')
  | (.error fault, c') =>
    let (diagnostics, c'') := runThrough c'
    (fault.diagnose c'.stream.breaks :: diagnostics, c'')
termination_by c.stream.remaining
decreasing_by exact remaining_lt_of_run _h

end Compilation

/-- A line that is refused leaves a draft that shows a listing as it was. -/
theorem Draft.Shows.eq_of_takeLine_refused {d d' : Draft} {l : Listing Text}
    (h : d.Shows l l.declared) {line : Line} {fault : Fault}
    (hrefused : d.takeLine line = (.error fault, d')) : d' = d := by
  have hentered : d.Entered := fun s hs => h.known s (Listing.declared_subset_mentioned _ hs)
  rcases h.consistent.of_takeLine_refused hentered hrefused with hsame | ⟨_, _, e, hread, rfl⟩
  · exact hsame
  · -- all defines have values, so there is nothing to store
    rw [h.evaluate_eq (Statement.exists_see_of_read hread)]

namespace Compilation

variable {c : Compilation} {s : Salvage}

/-- A run takes lines up to the first one that is refused, and passes over that. -/
theorem run_absorbs (h : c.draft.Shows s.listing s.listing.declared) :
    match c.run.1 with
    | .ok () => ∃ l, s.takeLines c.stream.lines = { s with listing := l } ∧
        c.run.2.draft.Shows l l.declared
    | .error fault => ∃ l, s.takeLines c.stream.lines =
          Salvage.takeLines ⟨l, s.faults ++ [fault]⟩ c.run.2.stream.lines ∧
        c.run.2.draft.Shows l l.declared := by
  fun_induction run c generalizing s with
  | case1 c stream hnext =>
    refine ⟨s.listing, ?_, h⟩
    rw [TokenStream.lines_of_none hnext]
    rfl
  | case2 c fault stream hnext =>
    refine ⟨s.listing, ?_, h⟩
    rw [TokenStream.lines_of_some hnext]
    rfl
  | case3 c line stream hnext fault draft htake =>
    have hline := h.takeLine line
    rw [htake] at hline
    rw [h.eq_of_takeLine_refused htake]
    refine ⟨s.listing, ?_, h⟩
    rw [TokenStream.lines_of_some hnext, Salvage.takeLines_cons, Salvage.step]
    show (s.absorb (s.listing.takeLine line)).takeLines _ = _
    rw [hline.eq_error]
    rfl
  | case4 c line stream hnext draft htake ih =>
    have hline := h.takeLine line
    rw [htake] at hline
    rw [TokenStream.lines_of_some hnext, Salvage.takeLines_cons, Salvage.step]
    show match (run ⟨stream, draft⟩).1 with
      | .ok () => ∃ l, (s.absorb (s.listing.takeLine line)).takeLines _ = _ ∧ _
      | .error fault => ∃ l, (s.absorb (s.listing.takeLine line)).takeLines _ = _ ∧ _
    obtain ⟨l, htaken, hshows⟩ := hline.exists_ok
    rw [htaken]
    exact ih (s := ⟨l, s.faults⟩) hshows

/-- A compilation that is taken up after every fault reads the source as it is read by name when
wrong lines are passed over. -/
theorem runThrough_absorbs {source : Text} (hat : c.stream.At source)
    (h : c.draft.Shows s.listing s.listing.declared) :
    ∃ l faults, s.takeLines c.stream.lines = ⟨l, s.faults ++ faults⟩ ∧
      c.runThrough.1 = faults.map (·.diagnose (.ofText source)) ∧
      c.runThrough.2.draft.Shows l l.declared := by
  fun_induction runThrough c generalizing s with
  | case1 c c' hrun =>
    have hrest := run_absorbs h
    rw [hrun] at hrest
    obtain ⟨l, htake, hshows⟩ := hrest
    exact ⟨l, [], by rw [htake, List.append_nil], rfl, hshows⟩
  | case2 c fault c' hrun diagnostics c'' hthrough ih =>
    have hrest := run_absorbs h
    obtain ⟨hat', hle⟩ := offset_le_of_run hat (congrArg Prod.fst hrun)
    rw [hrun] at hrest hat' hle
    obtain ⟨l, htake, hshows⟩ := hrest
    obtain ⟨l', faults, hothers, hreported, hfinal⟩ :=
      ih (s := ⟨l, s.faults ++ [fault]⟩) hat' hshows
    rw [hthrough] at hreported hfinal
    refine ⟨l', fault :: faults, ?_, ?_, hfinal⟩
    · rw [htake, hothers, List.append_assoc, List.singleton_append]
    · rw [List.map_cons, ← hreported, Fault.diagnose, hat'.position_eq hle]
      rfl

/-- If the next line is refused, the draft is left as it was, or as the evaluation of an expression
leaves it. -/
theorem draft_of_refused (h : c.draft.Consistent) (hentered : c.draft.Entered) {fault : Fault}
    (hfault : c.run.1 = .error fault) (hnext : c.run.2.stream = c.stream.nextLine.2) :
    c.run.2.draft = c.draft ∨ ∃ e, c.run.2.draft = (c.draft.evaluate e).2 := by
  rcases hline : c.stream.nextLine with ⟨_ | fault' | line, stream⟩
  · rw [run_of_none hline] at hfault
    cases hfault
  · rw [run_of_fault hline]
    exact .inl rfl
  · rcases htake : c.draft.takeLine line with ⟨fault' | _, draft⟩
    · rw [run_of_refused hline htake]
      rcases h.of_takeLine_refused hentered htake with hsame | ⟨_, _, e, -, hsame⟩
      · exact .inl hsame
      · exact .inr ⟨e, hsame⟩
    · -- a later line has been drawn as well
      rw [run_of_taken hline htake] at hfault hnext
      rw [hline] at hnext
      have hlt := remaining_lt_of_run (c := ⟨stream, draft⟩) (Prod.ext hfault rfl)
      rw [hnext] at hlt
      exact absurd hlt (Nat.lt_irrefl _)

end Compilation

/-- A line that is refused leaves no trace. If the names of all programs and defines have been
entered, then after the next line has been refused the draft is as it was, or as the evaluation of
an expression has left it: it has the same names, scopes, programs and defines, except that defines
without a value may have got one. So if a source is divided into tokens and its compilation is taken
up again after every fault, the file that comes out is the one that the source compiles to when the
lines that were reported are emptied. -/
theorem refusal_leaves_no_trace (source : Text) :
    (∀ c, Compilation.Reachable source c → c.draft.Entered →
      ∀ fault, c.run.1 = .error fault → c.run.2.stream = c.stream.nextLine.2 →
        (c.run.2.draft = c.draft ∨ ∃ e, c.run.2.draft = (c.draft.evaluate e).2) ∧
          c.draft.Gains c.run.2.draft) ∧
    ((∀ fault, .error fault ∉ tokenize source) →
      compile (source.withoutLines
          ((Compilation.ofText source).runThrough.1.map (·.position.line))) =
        .ok (Compilation.ofText source).runThrough.2.draft.file) := by
  constructor
  · intro c hreachable hentered fault hfault hnext
    have hdraft := Compilation.draft_of_refused hreachable.consistent hentered hfault hnext
    refine ⟨hdraft, ?_⟩
    rcases hdraft with hsame | ⟨e, hsame⟩
    · rw [hsame]
      exact .refl _
    · rw [hsame]
      exact .evaluate _ _
  · intro hclean
    obtain ⟨l, faults, hleft, hreported, hshows⟩ := Compilation.runThrough_absorbs
      (c := .ofText source) (s := {}) (TokenStream.At.ofText source) Draft.shows_empty
    have hsalvage : Salvage.ofText source = ⟨l, faults⟩ := hleft
    have htaken := Salvage.takeText_withoutLines hclean
    have hnumbers : (Compilation.ofText source).runThrough.1.map (·.position.line) =
        Salvage.numbers source := by
      rw [hreported, List.map_map, Salvage.numbers, hsalvage]
      rfl
    rw [hsalvage] at htaken
    obtain ⟨f, hcompile, hnamed⟩ := compile_of_listing htaken
    rw [hnumbers, hcompile, (compile_eq_ok_iff.1 hcompile).2, hnamed, hshows.file_eq]

/-- A line divides by a define that has no value yet; the define keeps the value that is found. When
there is no such define the name is unknown, and that line is one of the three that are refused. -/
theorem refusal_leaves_no_trace_of_three_lines :
    let source : Text :=
      ".define a 8/x\n.define b 2\n.program p\n.define b 3\n.define c b*(b\n.define d b+1".toList
    let x : Define Symbol := { name := ⟨0⟩, expr := .literal 0, value := none }
    let c := ((Compilation.ofText source).perform (.intern ['x'])).perform (.add x)
    (c.run.1 = .error ⟨.divisionByZero, 0⟩ ∧ c.draft.Gains c.run.2.draft ∧
      c.run.2.draft.file.listing.defines = [{ x with value := some 0 }]) ∧
    (Compilation.ofText source).runThrough.1.map (·.position.line) = [1, 4, 5] ∧
    compile "\n.define b 2\n.program p\n\n\n.define d b+1".toList =
      .ok (Compilation.ofText source).runThrough.2.draft.file := by
  intro source x c
  obtain ⟨hrefused, hthrough⟩ := refusal_leaves_no_trace source
  have hentered : c.draft.Entered := by
    have hdeclared : c.draft.file.listing.declared = [⟨0⟩] := rfl
    intro s hs
    rw [hdeclared, List.mem_singleton] at hs
    rw [hs]
    exact Nat.zero_lt_one
  have hfault : c.run.1 = .error ⟨.divisionByZero, 0⟩ := by decide +kernel
  have hgains := (hrefused c (.perform (.perform .start _) _) hentered _ hfault
    (by decide +kernel)).2
  have hclean : ∀ fault, .error fault ∉ tokenize source := by
    have hok : ∀ item ∈ tokenize source, item.isOk = true := by decide +kernel
    exact fun fault hmem => Bool.false_ne_true (hok _ hmem)
  have hlines : (Compilation.ofText source).runThrough.1.map (·.position.line) = [1, 4, 5] := by
    decide +kernel
  have hcompile := hthrough hclean
  rw [hlines] at hcompile
  exact ⟨⟨hfault, hgains, by decide +kernel⟩, hlines, hcompile⟩

end PioFrontEnd
