import PioFrontEnd.Proofs.ByName.Simulation
import PioFrontEnd.Proofs.ByName.Texts
import PioFrontEnd.Proofs.PhysicalLines

/-!
# The first line that is wrong

A compilation stops at the first line that is wrong, and nothing that comes later has a part in
what it reports. So the diagnostic of a source is that of a shorter one, which ends with this line,
and the diagnostic names this line: a fault at the end of a line is counted to the line that ends
there.

* `Text.firstLines`: the first lines of a source.
* `compile_append_of_error`: a source that is wrong can be continued in any way.
* `line_of_compile_firstLines`: if the last of the first lines is the one that is wrong, its number
  is reported.
* `compile_reports_first_wrong_line`: the diagnostic of a source is that of the fewest first lines
  that are wrong, whatever follows.
-/

namespace PioFrontEnd

/-! ### The first lines of a text -/

namespace Text

/-- The first lines of a text, with line breaks between them. -/
def firstLines (t : Text) (n : Nat) : Text := ['\n'].intercalate ((t.splitOn '\n').take n)

variable {t : Text} {n : Nat}

/-- The first no lines of a text are empty. -/
theorem firstLines_zero (t : Text) : t.firstLines 0 = [] := by
  rw [firstLines, List.take_zero, List.intercalate_nil]

/-- As many lines as there are, or more, are the whole text. -/
theorem firstLines_of_length_le (h : (t.splitOn '\n').length ≤ n) : t.firstLines n = t := by
  rw [firstLines, List.take_of_length_le h, List.intercalate_splitOn]

/-- One line more follows after a line break, unless it is the first. -/
theorem firstLines_succ (h : n < (t.splitOn '\n').length) :
    ∃ line, '\n' ∉ line ∧ (n = 0 ∧ t.firstLines (n + 1) = line ∨
      0 < n ∧ t.firstLines (n + 1) = t.firstLines n ++ '\n' :: line) := by
  refine ⟨(t.splitOn '\n')[n], not_mem_of_mem_splitOn (List.getElem_mem h), ?_⟩
  have htake : (t.splitOn '\n').take (n + 1) = (t.splitOn '\n').take n ++ [(t.splitOn '\n')[n]] :=
    (List.take_append_getElem h).symm
  rw [firstLines, firstLines, htake]
  rcases Nat.eq_zero_or_pos n with rfl | hpos
  · exact .inl ⟨rfl, by rw [List.take_zero, List.nil_append, List.intercalate_singleton]⟩
  · refine .inr ⟨hpos, intercalate_concat (List.ne_nil_of_length_pos ?_) _⟩
    rw [List.length_take]
    omega

/-- Between so many lines there are line breaks one fewer. -/
theorem length_offsetsFrom_firstLines (hpos : 0 < n) (hle : n ≤ (t.splitOn '\n').length) :
    (LineBreaks.offsetsFrom 0 (t.firstLines n)).length + 1 = n := by
  induction n with
  | zero => exact absurd hpos (Nat.lt_irrefl 0)
  | succ n ih =>
    obtain ⟨line, hline, ⟨rfl, hfirst⟩ | ⟨hn, hnext⟩⟩ := firstLines_succ (Nat.lt_of_succ_le hle)
    · rw [hfirst, LineBreaks.offsetsFrom_of_not_mem hline]
      rfl
    · rw [hnext, LineBreaks.offsetsFrom_append, LineBreaks.offsetsFrom, if_pos rfl,
        LineBreaks.offsetsFrom_of_not_mem hline, List.length_append, List.length_singleton,
        ih hn (Nat.le_of_succ_le hle)]

end Text

/-! ### What is reported -/

variable {s t : Text} {d : Diagnostic} {n m : Nat}

/-- A source that is wrong can be continued in any way. -/
theorem compile_append_of_error (h : compile s = .error d) (t : Text) :
    compile (s ++ '\n' :: t) = .error d := by
  obtain ⟨fault, hfault, hle, rfl⟩ := exists_fault_of_compile h
  have htext : ({} : Listing Text).takeText (s ++ '\n' :: t) = .error fault := by
    rw [Listing.takeText_append_lineBreak, show ({} : Listing Text).takeText s = _ from hfault]
    rfl
  have hposition : (LineBreaks.ofText (s ++ '\n' :: t)).position fault.offset =
      (LineBreaks.ofText s).position fault.offset :=
    LineBreaks.position_ofText_append hle _
  rw [(compile_of_fault htext).1, Fault.diagnose, hposition]
  rfl

/-- Nothing is wrong with no lines at all. -/
theorem exists_compile_firstLines_zero (t : Text) : ∃ f, compile (t.firstLines 0) = .ok f := by
  obtain ⟨f, h, -⟩ := compile_of_listing (Listing.takeText_nil {})
  rw [Text.firstLines_zero]
  exact ⟨f, h⟩

/-- What is wrong with first lines is wrong with any more of them. -/
theorem compile_firstLines_of_le (h : compile (t.firstLines n) = .error d) (hnm : n ≤ m) :
    compile (t.firstLines m) = .error d := by
  induction m with
  | zero =>
    rw [Nat.le_zero.1 hnm] at h
    exact h
  | succ m ih =>
    rcases Nat.le_succ_iff.1 hnm with hle | rfl
    · rcases Nat.lt_or_ge m (t.splitOn '\n').length with hlt | hge
      · obtain ⟨line, -, ⟨rfl, -⟩ | ⟨-, hnext⟩⟩ := Text.firstLines_succ hlt
        · obtain ⟨f, hzero⟩ := exists_compile_firstLines_zero t
          rw [hzero] at ih
          cases ih hle
        · rw [hnext]
          exact compile_append_of_error (ih hle) line
      · rw [Text.firstLines_of_length_le (Nat.le_succ_of_le hge),
          ← Text.firstLines_of_length_le hge]
        exact ih hle
    · exact h

/-- If the last of the first lines is the one that is wrong, its number is reported. -/
theorem line_of_compile_firstLines {f : File} (hok : compile (t.firstLines n) = .ok f)
    (h : compile (t.firstLines (n + 1)) = .error d) : d.position.line = n + 1 := by
  rcases Nat.lt_or_ge n (t.splitOn '\n').length with hlt | hge
  · obtain ⟨fault, hfault, hle, rfl⟩ := exists_fault_of_compile h
    obtain ⟨line, hline, ⟨rfl, hfirst⟩ | ⟨hpos, hnext⟩⟩ := Text.firstLines_succ hlt
    · show ((LineBreaks.ofText _).position fault.offset).line = 1
      rw [hfirst, LineBreaks.ofText, LineBreaks.offsetsFrom_of_not_mem hline]
      rfl
    · -- the fault lies after the line break that precedes the line
      have hafter : Text.byteSize (t.firstLines n) + 1 ≤ fault.offset := by
        rw [hnext] at hfault
        have htake := Listing.takeText_append_lineBreak {} (t.firstLines n) line
        rw [show ({} : Listing Text).takeText (t.firstLines n ++ '\n' :: line) = _ from hfault,
          show ({} : Listing Text).takeText (t.firstLines n) = _ from (compile_eq_ok_iff.1 hok).1]
          at htake
        rcases hlast : f.named.takeText line with fault' | l
        · simp only [Except.bind, hlast, mapError_error, Except.error.injEq] at htake
          rw [htake]
          exact Nat.le_add_left _ _
        · simp only [Except.bind, hlast, mapError_ok] at htake
          cases htake
      have hlength := Text.length_offsetsFrom_firstLines hpos (Nat.le_of_lt hlt)
      show ((LineBreaks.ofText _).position fault.offset).line = n + 1
      rw [hnext, LineBreaks.line_position_append_lineBreak hline _ hafter, Text.length_splitOn _ 0,
        hlength]
  · rw [Text.firstLines_of_length_le (Nat.le_succ_of_le hge),
      ← Text.firstLines_of_length_le hge, hok] at h
    cases h

/-- The first lines that are wrong end with the line that is reported, and fewer are not wrong. -/
theorem compile_firstLines_line (h : compile (t.firstLines n) = .error d) :
    compile (t.firstLines d.position.line) = .error d ∧
      ∀ m < d.position.line, ∃ f, compile (t.firstLines m) = .ok f := by
  induction n with
  | zero =>
    obtain ⟨f, hzero⟩ := exists_compile_firstLines_zero t
    rw [hzero] at h
    cases h
  | succ n ih =>
    rcases hn : compile (t.firstLines n) with e | f
    · have heq := (compile_firstLines_of_le hn (Nat.le_succ n)).symm.trans h
      cases heq
      exact ih hn
    · rw [line_of_compile_firstLines hn h]
      refine ⟨h, fun m hm => ?_⟩
      rcases hcompile : compile (t.firstLines m) with e | f'
      · rw [compile_firstLines_of_le hcompile (Nat.le_of_lt_succ hm)] at hn
        cases hn
      · exact ⟨f', rfl⟩

/-- A source does not compile exactly if some of its first lines do not. Then the fewest first lines
that do not compile are those up to the line that is reported, what is reported of them is what is
reported of the source, and it is reported whatever follows the source. -/
theorem compile_reports_first_wrong_line (s : Text) :
    ((∃ d, compile s = .error d) ↔ ∃ n d, compile (s.firstLines n) = .error d) ∧
      ∀ d, compile s = .error d →
        (compile (s.firstLines d.position.line) = .error d ∧
          ∀ n < d.position.line, ∃ f, compile (s.firstLines n) = .ok f) ∧
        ∀ t, compile (s ++ '\n' :: t) = .error d := by
  have hall : ∀ n, (s.splitOn '\n').length ≤ n → s.firstLines n = s :=
    fun n hn => Text.firstLines_of_length_le hn
  refine ⟨⟨?_, ?_⟩, ?_⟩
  · rintro ⟨d, h⟩
    exact ⟨_, d, (congrArg compile (hall _ (Nat.le_refl _))).trans h⟩
  · rintro ⟨n, d, h⟩
    have hmore := compile_firstLines_of_le h (Nat.le_max_left n (s.splitOn '\n').length)
    rw [hall _ (Nat.le_max_right _ _)] at hmore
    exact ⟨d, hmore⟩
  · intro d h
    refine ⟨?_, compile_append_of_error h⟩
    rw [← hall _ (Nat.le_refl _)] at h
    exact compile_firstLines_line h

/-- An expression that breaks off is reported at the end of its line, the third one. The define
after it, whose name is taken, does not matter. -/
theorem compile_reports_end_of_third_line :
    let s : Text := ".define a 1\n\n.define b (a+\n.define a 2".toList
    let d : Diagnostic := ⟨.expressionSyntax, ⟨3, 14⟩⟩
    compile s = .error d ∧ s.firstLines 3 = ".define a 1\n\n.define b (a+".toList ∧
      compile (s.firstLines 3) = .error d ∧ (∃ f, compile (s.firstLines 2) = .ok f) ∧
      compile (s ++ '\n' :: ".program".toList) = .error d := by
  intro s d
  have hcompile : compile s = .error d := by decide +kernel
  obtain ⟨⟨hfirst, hfewer⟩, hlater⟩ := (compile_reports_first_wrong_line s).2 d hcompile
  exact ⟨hcompile, by decide, hfirst, hfewer 2 (by decide), hlater _⟩

end PioFrontEnd
