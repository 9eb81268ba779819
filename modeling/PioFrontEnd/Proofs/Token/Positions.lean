import PioFrontEnd.Proofs.Reading
import PioFrontEnd.Proofs.Token.Drawing

/-!
# Positions and the whole source

While tokens are drawn, a stream notes only the line breaks that it has passed. A reader of the
source would count all of them. Up to the offset that the stream has reached this makes no
difference: every line break of the source is a token of its own, none is hidden in another token
or in a gap, and what has not been drawn lies further on.

* `At.position_eq`: the position of an offset that has been passed is the one that the line breaks
  of the whole source give.
* `At.of_nextLine`: a drawn line, or a fault in place of it, lies before the offset that has been
  reached.
-/

namespace PioFrontEnd

/-! ### The line breaks of a source -/

namespace LineBreaks

/-- The offsets of the line breaks in a text that begins at an offset. -/
def offsetsFrom (offset : Nat) : Text → List Nat
  | [] => []
  | c :: t =>
    if c = '\n' then offset :: offsetsFrom (offset + c.utf8Size) t
    else offsetsFrom (offset + c.utf8Size) t

/-- All line breaks of a source. -/
def ofText (source : Text) : LineBreaks := ⟨offsetsFrom 0 source⟩

/-- The line breaks of two texts follow one another when one is put after the other. -/
theorem offsetsFrom_append (offset : Nat) (s t : Text) :
    offsetsFrom offset (s ++ t) =
      offsetsFrom offset s ++ offsetsFrom (offset + Text.byteSize s) t := by
  induction s generalizing offset with
  | nil => rfl
  | cons c s ih =>
    have hsize : offset + c.utf8Size + Text.byteSize s = offset + Text.byteSize (c :: s) := by
      rw [Text.byteSize_cons, Nat.add_assoc]
    by_cases hc : c = '\n'
    · simp only [List.cons_append, offsetsFrom, if_pos hc, ih, hsize]
    · simp only [List.cons_append, offsetsFrom, if_neg hc, ih, hsize]

/-- Without a line feed there is no line break. -/
theorem offsetsFrom_of_not_mem {s : Text} (h : '\n' ∉ s) (offset : Nat) :
    offsetsFrom offset s = [] := by
  induction s generalizing offset with
  | nil => rfl
  | cons c s ih =>
    rw [List.mem_cons, not_or] at h
    rw [offsetsFrom, if_neg fun hc => h.1 hc.symm]
    exact ih h.2 _

/-- The line breaks of a text lie within it. -/
theorem bounds_of_mem_offsetsFrom {offset o : Nat} {s : Text} (h : o ∈ offsetsFrom offset s) :
    offset ≤ o ∧ o < offset + Text.byteSize s := by
  induction s generalizing offset with
  | nil => cases h
  | cons c s ih =>
    have hpos := c.utf8Size_pos
    have hrest : o ∈ offsetsFrom (offset + c.utf8Size) s →
        offset ≤ o ∧ o < offset + Text.byteSize (c :: s) := by
      intro hmem
      have := ih hmem
      rw [Text.byteSize_cons]
      omega
    unfold offsetsFrom at h
    split at h
    · rcases List.mem_cons.1 h with rfl | hmem
      · rw [Text.byteSize_cons]
        omega
      · exact hrest hmem
    · exact hrest h

/-- Nothing is taken from a list of offsets that are not before the given one. -/
theorem takeWhile_of_le {offset : Nat} {later : List Nat} (h : ∀ o ∈ later, offset ≤ o) :
    later.takeWhile (· < offset) = [] := by
  cases later with
  | nil => rfl
  | cons o later => simp [Nat.not_lt.2 (h o (by simp))]

/-- Line breaks that do not lie before an offset have no part in its position. -/
theorem position_append {offsets later : List Nat} {offset : Nat} (h : ∀ o ∈ later, offset ≤ o) :
    position ⟨offsets ++ later⟩ offset = position ⟨offsets⟩ offset := by
  have hbefore : before ⟨offsets ++ later⟩ offset = before ⟨offsets⟩ offset := by
    simp only [before, List.takeWhile_append, takeWhile_of_le h, List.append_nil]
    split
    · rename_i hlength
      exact ((List.takeWhile_prefix _).eq_of_length hlength).symm
    · rfl
  rw [position, position, hbefore]

/-- What a source goes on with has no part in the positions before it. -/
theorem position_ofText_append {s : Text} {offset : Nat} (h : offset ≤ Text.byteSize s)
    (t : Text) : (ofText (s ++ t)).position offset = (ofText s).position offset := by
  rw [ofText, offsetsFrom_append]
  refine position_append fun o ho => ?_
  have := (bounds_of_mem_offsetsFrom ho).1
  omega

end LineBreaks

/-! ### Line feeds are tokens -/

/-- Whether a line feed in a front is all of it and is a line break. -/
def Front.KeepsLines : Front → Prop
  | .token kind text _ => if kind = .endOfLine then text = ['\n'] else '\n' ∉ text
  | .gap text _ => '\n' ∉ text
  | .ending | .fault _ => True

/-- There is no line feed in a name. -/
theorem IsName.not_mem_lineFeed {n : Text} (h : IsName n) : '\n' ∉ n := fun hmem =>
  absurd (h.isSymbolPart _ hmem) (by decide)

/-- There is no line feed in a token that is no end of a line. -/
theorem TokenKind.Stands.not_mem_lineFeed {kind : TokenKind} {text : Text} {next : Option Char}
    (h : kind.Stands text next) (hkind : kind ≠ .endOfLine) : '\n' ∉ text := by
  have hword : (text.map Char.toLower, kind) ∈ Keyword.table → '\n' ∉ text := fun hmem =>
    (Keyword.isName_of_isKeyword (List.mem_map_of_mem hmem)).not_mem_lineFeed
  cases kind with
  | endOfFile => rw [h.1]; exact List.not_mem_nil
  | endOfLine => exact absurd rfl hkind
  | number => exact fun hmem => absurd (h.2.1 _ hmem) (by decide)
  | symbol => exact h.1.not_mem_lineFeed
  | label =>
    obtain ⟨n, hn, rfl⟩ := h
    simpa using hn.not_mem_lineFeed
  | directive d =>
    obtain ⟨rfl, -⟩ := h
    cases d <;> decide
  | instruction i => exact hword h.1
  | qualifier q => exact hword h.1
  | mark m =>
    obtain ⟨rfl, -⟩ := h
    cases m <;> decide

/-- There is no line feed in a gap. -/
theorem Piece.not_mem_lineFeed {text rest : Text} (h : Piece false text rest) : '\n' ∉ text := by
  cases h with
  | blank hc =>
    rw [List.mem_singleton]
    rintro rfl
    revert hc
    decide
  | comment hbegin hline hrest => exact hline
  | unknown hname hrest hunknown =>
    rw [List.mem_cons]
    rintro (h | hmem)
    · revert h
      decide
    · exact absurd (hname _ hmem) (by decide)
  | lineBreak hfresh => cases hfresh

/-- A line feed in a token or a gap is a line break. -/
theorem keepsLines_front (s : Text) : (front s).KeepsLines := by
  match front s, spelled_front s with
  | .ending, _ => trivial
  | .fault _, _ => trivial
  | .gap text rest, ⟨_, hpiece⟩ => exact hpiece.not_mem_lineFeed
  | .token kind text rest, ⟨_, _, hstands⟩ =>
    show if kind = .endOfLine then text = ['\n'] else '\n' ∉ text
    split
    · rename_i hkind
      rw [hkind] at hstands
      exact hstands
    · rename_i hkind
      exact hstands.not_mem_lineFeed hkind

/-! ### Where a stream is -/

/-- The offset where something that has been drawn begins. -/
def siteOf : Except Fault Token → Nat
  | .ok token => token.span.start
  | .error fault => fault.offset

/-- The offset where something that has been drawn ends. -/
def endOf : Except Fault Token → Nat
  | .ok token => token.span.stop
  | .error fault => fault.offset

/-- The offset of what stops a line, if anything does. -/
def LineEnd.site? : LineEnd → Option Nat
  | token stop => some stop.span.start
  | fault f => some f.offset
  | exhausted => none

namespace TokenStream

/-- The stream has passed a part of the source and has noted the line breaks of that part. -/
def At (source : Text) (s : TokenStream) : Prop :=
  ∃ passed, passed ++ s.rest = source ∧ s.offset = Text.byteSize passed ∧
    s.breaks = .ofText passed

namespace At

variable {source text rest : Text} {s s' : TokenStream} {kind : TokenKind}

/-- A new stream is at the beginning of its source. -/
theorem ofText (source : Text) : At source (.ofText source) := ⟨[], rfl, rfl, rfl⟩

/-- Noting the line breaks of a piece of the source that is passed. -/
theorem pass (h : At source s) (hdivides : text ++ rest = s.rest) (hrest : s'.rest = rest)
    (hoffset : s'.offset = s.offset + Text.byteSize text)
    (hbreaks : s'.breaks.offsets = s.breaks.offsets ++ LineBreaks.offsetsFrom s.offset text) :
    At source s' := by
  obtain ⟨passed, happend, hsize, hnoted⟩ := h
  refine ⟨passed ++ text, ?_, ?_, ?_⟩
  · rw [List.append_assoc, hrest, hdivides, happend]
  · rw [hoffset, hsize, Text.byteSize_append]
  · have hoffsets : s'.breaks.offsets = (LineBreaks.ofText (passed ++ text)).offsets := by
      rw [hbreaks, hnoted, hsize, LineBreaks.ofText, LineBreaks.ofText,
        LineBreaks.offsetsFrom_append,
        Nat.zero_add]
    exact congrArg LineBreaks.mk hoffsets

/-- A stream that passes over a gap stays in its source. -/
theorem skip (h : At source s) (hfront : front s.rest = .gap text rest) :
    At source (s.skip text rest) := by
  have hdivides := divides_front s.rest
  have hkeeps := keepsLines_front s.rest
  rw [hfront] at hdivides hkeeps
  apply h.pass hdivides.1 rfl rfl
  rw [LineBreaks.offsetsFrom_of_not_mem hkeeps, List.append_nil]
  rfl

/-- A stream that draws a token stays in its source. -/
theorem advance (h : At source s) (hfront : front s.rest = .token kind text rest) :
    At source (s.advance kind text rest) := by
  have hdivides := divides_front s.rest
  have hkeeps := keepsLines_front s.rest
  rw [hfront] at hdivides hkeeps
  apply h.pass hdivides.1 rfl rfl
  by_cases hkind : kind = .endOfLine
  · -- the line break lies after all that have been noted
    have htext : text = ['\n'] := by
      rw [Front.KeepsLines, if_pos hkind] at hkeeps
      exact hkeeps
    obtain ⟨passed, -, hsize, hnoted⟩ := h
    have hpush : s.breaks.push s.offset = ⟨s.breaks.offsets ++ [s.offset]⟩ := by
      apply if_pos
      cases hlast : s.breaks.offsets.getLast? with
      | none => rfl
      | some o =>
        have hmem := List.mem_of_getLast? hlast
        rw [hnoted] at hmem
        have := (LineBreaks.bounds_of_mem_offsetsFrom hmem).2
        simp only [Option.all_some, decide_eq_true_eq]
        omega
    simp only [TokenStream.advance, if_pos hkind, hpush, htext]
    rfl
  · have hnot : '\n' ∉ text := by
      rw [Front.KeepsLines, if_neg hkind] at hkeeps
      exact hkeeps
    simp only [TokenStream.advance, if_neg hkind, LineBreaks.offsetsFrom_of_not_mem hnot,
      List.append_nil]

/-- The position of an offset that has been passed is its position in the source. -/
theorem position_eq (h : At source s) {offset : Nat} (hle : offset ≤ s.offset) :
    s.breaks.position offset = (LineBreaks.ofText source).position offset := by
  obtain ⟨passed, rfl, hsize, hnoted⟩ := h
  rw [hnoted, LineBreaks.position_ofText_append (Nat.le_trans hle (Nat.le_of_eq hsize))]

/-- What has been drawn begins before it ends, and ends before the offset that has been reached. -/
theorem ends_of_next? (h : At source s) {item : Except Fault Token}
    (hnext : s.next? = some (item, s')) :
    At source s' ∧ s.offset ≤ s'.offset ∧ siteOf item ≤ endOf item ∧ endOf item ≤ s'.offset := by
  fun_induction TokenStream.next? s with
  | case1 s hs => cases hnext
  | case2 s hs hfront =>
    cases hnext
    exact ⟨h, Nat.le_refl _, Nat.le_refl _, Nat.le_refl _⟩
  | case3 s hs cause hfront =>
    cases hnext
    exact ⟨h, Nat.le_refl _, Nat.le_refl _, Nat.le_refl _⟩
  | case4 s hs text rest hfront ih =>
    obtain ⟨hat, hle, hitem⟩ := ih (h.skip hfront) hnext
    exact ⟨hat, Nat.le_trans (Nat.le_add_right _ _) hle, hitem⟩
  | case5 s hs kind text rest hfront hfresh ih =>
    obtain ⟨hat, hle, hitem⟩ := ih (h.advance hfront) hnext
    exact ⟨hat, Nat.le_trans (Nat.le_add_right _ _) hle, hitem⟩
  | case6 s hs kind text rest hfront hfresh =>
    cases hnext
    exact ⟨h.advance hfront, Nat.le_add_right _ _, Nat.le_add_right _ _, Nat.le_refl _⟩

/-- What has been drawn lies before the offset that has been reached. -/
theorem of_next? (h : At source s) {item : Except Fault Token} (hnext : s.next? = some (item, s')) :
    At source s' ∧ s.offset ≤ s'.offset ∧ siteOf item ≤ s'.offset := by
  obtain ⟨hat, hle, hbegin, hend⟩ := h.ends_of_next? hnext
  exact ⟨hat, hle, Nat.le_trans hbegin hend⟩

/-- The tokens of a line, and what stops them, lie before the offset that has been reached. -/
theorem of_gather (h : At source s) {tokens : List Token} {lineEnd : LineEnd}
    (hgather : s.gather = (tokens, lineEnd, s')) :
    At source s' ∧ s.offset ≤ s'.offset ∧ (∀ t ∈ tokens, t.span.start ≤ s'.offset) ∧
      ∀ o ∈ lineEnd.site?, o ≤ s'.offset := by
  fun_induction TokenStream.gather s generalizing tokens with
  | case1 s =>
    cases hgather
    exact ⟨h, Nat.le_refl _, by simp, by simp [LineEnd.site?]⟩
  | case2 s fault s₁ hnext =>
    cases hgather
    obtain ⟨hat, hle, hitem⟩ := h.of_next? hnext
    exact ⟨hat, hle, by simp, fun o ho => by cases ho; exact hitem⟩
  | case3 s token s₁ hnext =>
    cases hgather
    obtain ⟨hat, hle, hitem⟩ := h.of_next? hnext
    exact ⟨hat, hle, by simp, fun o ho => by cases ho; exact hitem⟩
  | case4 s token s₁ hnext =>
    cases hgather
    obtain ⟨hat, hle, hitem⟩ := h.of_next? hnext
    exact ⟨hat, hle, by simp, fun o ho => by cases ho; exact hitem⟩
  | case5 s token s₁ hnext tokens₂ end₂ s₂ hgather₂ _ _ ih =>
    cases hgather
    obtain ⟨hat, hle, hitem⟩ := h.of_next? hnext
    obtain ⟨hat', hle', htokens, hend⟩ := ih hat hgather₂
    refine ⟨hat', Nat.le_trans hle hle', fun t ht => ?_, hend⟩
    rcases List.mem_cons.1 ht with rfl | ht
    · exact Nat.le_trans hitem hle'
    · exact htokens t ht

/-- What goes wrong with a line that has been drawn is before the offset that has been reached. -/
theorem of_nextLine (h : At source s) {line : Except Fault Line}
    (hnext : s.nextLine = (some line, s')) :
    At source s' ∧ ∀ fault : Fault,
      (line = .error fault ∨ ∃ l, line = .ok l ∧ fault.Within l) → fault.offset ≤ s'.offset := by
  unfold nextLine at hnext
  split at hnext
  · cases hnext
  · rename_i tokens fault s₁ hgather
    cases hnext
    obtain ⟨hat, -, -, hend⟩ := h.of_gather hgather
    refine ⟨hat, ?_⟩
    rintro fault' (hf | ⟨l, hl, -⟩)
    · cases hf
      exact hend _ rfl
    · cases hl
  · rename_i tokens stop s₁ hgather
    split at hnext
    · cases hnext
    · cases hnext
      obtain ⟨hat, -, htokens, hend⟩ := h.of_gather hgather
      refine ⟨hat, ?_⟩
      rintro fault (hf | ⟨l, hl, t, ht, hoffset⟩)
      · cases hf
      · cases hl
        rw [hoffset]
        rcases List.mem_append.1 ht with ht | ht
        · exact htokens t ht
        · rw [List.mem_singleton.1 ht]
          exact hend _ rfl

end At

end TokenStream

end PioFrontEnd
