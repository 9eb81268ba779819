import PioFrontEnd.Proofs.Token.Lossless

/-!
# Every token is what its kind says, and as long as it can be

What stands at the front of a text depends on the text alone (`front_eq_iff`), so a token of a
source is spelled as its kind says and ends where such a token ends, whatever has been read before
it. Where a stream looks for a token can be said without the stream, too: the text up to there
divides into tokens and pieces that say nothing, each spelled in its own way before what follows it
(`Parted`).

* `TokenStream.meets_of_mem_items`: what is drawn stands where the text before it divides.
* `TokenStream.exists_stream_of_parted`: where the text before divides, a stream gets to.
* `tokenize_stands`: what this means for the tokens and the lexical faults of a source.
-/

namespace PioFrontEnd

/-- Whether a text before this rest divides into tokens and into pieces that say nothing. -/
inductive Parted : Text → Text → Prop where
  /-- There is nothing to divide. -/
  | nil {rest : Text} : Parted [] rest
  /-- First comes a blank, a comment or an unknown directive. -/
  | piece {text more rest : Text} (hpiece : Piece false text (more ++ rest))
    (hmore : Parted more rest) : Parted (text ++ more) rest
  /-- First comes a token, which may be the line break of a line without others. -/
  | token {kind : TokenKind} {text more rest : Text} (hkind : kind ≠ .endOfFile)
    (htoken : kind.Stands text (more ++ rest).head?) (hmore : Parted more rest) :
    Parted (text ++ more) rest

namespace TokenStream

/-- What is drawn when a stream comes to a front at this offset. A gap yields nothing. -/
def drawn (offset : Nat) : Front → Option (Except Fault Token)
  | .ending => some (.ok ⟨.endOfFile, ⟨offset, offset⟩, []⟩)
  | .token kind text _ => some (.ok ⟨kind, ⟨offset, offset + Text.byteSize text⟩, text⟩)
  | .gap _ _ => none
  | .fault cause => some (.error ⟨cause, offset⟩)

/-- A fault is drawn only where there is one at the front, and is that one. -/
theorem drawn_eq_error {offset o : Nat} {f : Front} {cause : Cause} :
    drawn offset f = some (.error ⟨cause, o⟩) ↔ f = .fault cause ∧ offset = o := by
  cases f <;> simp [drawn]

/-- Whether this is drawn where the text before it divides. -/
def Meets (s : TokenStream) (item : Except Fault Token) : Prop :=
  ∃ passed rest, s.rest = passed ++ rest ∧ Parted passed rest ∧
    drawn (s.offset + Text.byteSize passed) (front rest) = some item

variable {s s' : TokenStream} {item : Except Fault Token}

/-- What is drawn at once is drawn where there is nothing to divide. -/
theorem Meets.here (h : drawn s.offset (front s.rest) = some item) : s.Meets item :=
  ⟨[], s.rest, rfl, .nil, h⟩

/-- What is drawn after a part of the text is drawn where that part comes first. -/
theorem Meets.after {text : Text} (hrest : s.rest = text ++ s'.rest)
    (hoffset : s'.offset = s.offset + Text.byteSize text)
    (hparted : ∀ passed rest, s'.rest = passed ++ rest → Parted passed rest →
      Parted (text ++ passed) rest) (h : s'.Meets item) : s.Meets item := by
  obtain ⟨passed, rest, hdivides, hpassed, hdrawn⟩ := h
  refine ⟨text ++ passed, rest, ?_, hparted passed rest hdivides hpassed, ?_⟩
  · rw [hrest, hdivides, List.append_assoc]
  · rw [Text.byteSize_append, ← Nat.add_assoc, ← hoffset]
    exact hdrawn

/-- What is met after a gap is met. -/
theorem Meets.afterGap {text rest : Text} (hgap : front s.rest = .gap text rest)
    (h : (s.skip text rest).Meets item) : s.Meets item := by
  obtain ⟨hdivides, hpiece⟩ := front_eq_iff.1 hgap
  apply h.after hdivides rfl
  intro passed later hrest hpassed
  obtain rfl : rest = passed ++ later := hrest
  exact .piece hpiece hpassed

/-- What is met after a token is met. -/
theorem Meets.afterToken {kind : TokenKind} {text rest : Text}
    (htoken : front s.rest = .token kind text rest) (h : (s.advance kind text rest).Meets item) :
    s.Meets item := by
  obtain ⟨hdivides, hkind, hstands⟩ := front_eq_iff.1 htoken
  apply h.after hdivides rfl
  intro passed later hrest hpassed
  obtain rfl : rest = passed ++ later := hrest
  exact .token hkind hstands hpassed

/-- What is drawn from a stream stands where the text before it divides. -/
theorem meets_of_mem_items (hs : s.finished = false) (h : item ∈ s.items) : s.Meets item := by
  induction s using stepwise with
  | finished s hfinished hitems =>
    rw [hs] at hfinished
    cases hfinished
  | ending s _ hnil hitems =>
    rw [hitems, List.mem_singleton] at h
    apply Meets.here
    rw [front_eq_ending.2 hnil, h]
    rfl
  | fault s cause _ hfault hitems =>
    rw [hitems, List.mem_singleton] at h
    apply Meets.here
    rw [hfault, h]
    rfl
  | gap s text rest _ hgap hitems ih =>
    rw [hitems] at h
    exact (ih hs h).afterGap hgap
  | blankLine s text rest _ hline hfresh hitems ih =>
    rw [hitems] at h
    exact (ih hs h).afterToken hline
  | token s kind text rest _ htoken hkeep hitems ih =>
    rw [hitems] at h
    rcases List.mem_cons.1 h with hhere | hlater
    · apply Meets.here
      rw [htoken, hhere]
      rfl
    · exact (ih hs hlater).afterToken htoken

/-- Where the text before it divides a stream gets to. -/
theorem exists_stream_of_parted {passed rest : Text} (h : Parted passed rest)
    (hs : s.finished = false) (hrest : s.rest = passed ++ rest) :
    ∃ s' : TokenStream, s'.finished = false ∧ s'.rest = rest ∧
      s'.offset = s.offset + Text.byteSize passed ∧ s'.items ⊆ s.items := by
  induction h generalizing s with
  | nil => exact ⟨s, hs, hrest, rfl, List.Subset.refl _⟩
  | @piece text more rest hpiece _ ih =>
    have hfront : front s.rest = .gap text (more ++ rest) := by
      rw [hrest, List.append_assoc]
      exact hpiece.front_eq
    obtain ⟨s', hs', hrest', hoffset', hsubset⟩ := ih (s := s.skip text (more ++ rest)) hs rfl
    refine ⟨s', hs', hrest', ?_, ?_⟩
    · rw [hoffset', Text.byteSize_append, ← Nat.add_assoc]
      rfl
    · rwa [items_congr (next?_of_gap hs hfront)]
  | @token kind text more rest hkind htoken _ ih =>
    have hfront : front s.rest = .token kind text (more ++ rest) := by
      rw [hrest, List.append_assoc]
      exact htoken.front_eq hkind
    obtain ⟨s', hs', hrest', hoffset', hsubset⟩ :=
      ih (s := s.advance kind text (more ++ rest)) hs rfl
    refine ⟨s', hs', hrest', ?_, ?_⟩
    · rw [hoffset', Text.byteSize_append, ← Nat.add_assoc]
      rfl
    · by_cases hblank : kind = .endOfLine ∧ s.freshLine = true
      · obtain ⟨rfl, hfresh⟩ := hblank
        rwa [items_congr (next?_of_blankLine hs hfresh hfront)]
      · rw [items_of_some (next?_of_token hs hfront hblank)]
        exact List.subset_cons_of_subset _ hsubset

end TokenStream

/-- A fault is drawn exactly where the text before it divides and nothing else stands. -/
theorem fault_mem_tokenize_iff {source : Text} {cause : Cause} {offset : Nat} :
    .error ⟨cause, offset⟩ ∈ tokenize source ↔ ∃ passed rest, source = passed ++ rest ∧
      Text.byteSize passed = offset ∧ Parted passed rest ∧ front rest = .fault cause := by
  constructor
  · intro h
    obtain ⟨passed, rest, hsource, hparted, hdrawn⟩ := TokenStream.meets_of_mem_items rfl h
    obtain ⟨hfault, hoffset⟩ := TokenStream.drawn_eq_error.1 hdrawn
    exact ⟨passed, rest, hsource, (Nat.zero_add _).symm.trans hoffset, hparted, hfault⟩
  · rintro ⟨passed, rest, hsource, rfl, hparted, hfault⟩
    obtain ⟨s, hs, hrest, hoffset, hsubset⟩ :=
      TokenStream.exists_stream_of_parted hparted (s := .ofText source) rfl hsource
    rw [← hrest] at hfault
    have hstart : s.offset = Text.byteSize passed := hoffset.trans (Nat.zero_add _)
    apply hsubset
    rw [TokenStream.items_of_some (TokenStream.next?_of_fault hs hfault), hstart]
    exact List.mem_cons_self

/-- Every token of a source stands where the text before it divides, is spelled as its kind says and
ends where such a token ends. A malformed number is reported exactly where the text before it
divides and a run of digits goes on with a letter or an underscore, and an unexpected character
exactly where the text before it divides and the character begins nothing. -/
theorem tokenize_stands (source : Text) :
    (∀ t, .ok t ∈ tokenize source → ∃ passed rest, source = passed ++ (t.text ++ rest) ∧
      t.span = ⟨Text.byteSize passed, Text.byteSize (passed ++ t.text)⟩ ∧
      Parted passed (t.text ++ rest) ∧ t.kind.Stands t.text rest.head?) ∧
    (∀ offset, .error ⟨.malformedNumber, offset⟩ ∈ tokenize source ↔
      ∃ passed digits c more, source = passed ++ (digits ++ c :: more) ∧
        Text.byteSize passed = offset ∧ Parted passed (digits ++ c :: more) ∧ digits ≠ [] ∧
        (∀ d ∈ digits, d.isDigit = true) ∧ isSymbolStart c = true) ∧
    ∀ c offset, .error ⟨.unexpectedCharacter c, offset⟩ ∈ tokenize source ↔
      ∃ passed more, source = passed ++ c :: more ∧ Text.byteSize passed = offset ∧
        Parted passed (c :: more) ∧ BeginsNothing c := by
  refine ⟨?_, ?_, ?_⟩
  · intro t ht
    obtain ⟨passed, s, hsource, hparted, hdrawn⟩ := TokenStream.meets_of_mem_items rfl ht
    rw [show (TokenStream.ofText source).offset = 0 from rfl, Nat.zero_add] at hdrawn
    rcases hfront : front s with _ | ⟨kind, text, rest⟩ | ⟨text, rest⟩ | cause
    all_goals
      rw [hfront] at hdrawn
      cases hdrawn
    · obtain rfl := front_eq_ending.1 hfront
      exact ⟨passed, [], hsource, by simp, hparted, rfl, rfl⟩
    · obtain ⟨rfl, -, hstands⟩ := front_eq_iff.1 hfront
      exact ⟨passed, rest, hsource, by simp, hparted, hstands⟩
  · intro offset
    rw [fault_mem_tokenize_iff]
    constructor
    · rintro ⟨passed, rest, hsource, hoffset, hparted, hfault⟩
      obtain ⟨digits, c, more, rfl, hdigits⟩ := front_eq_iff.1 hfault
      exact ⟨passed, digits, c, more, hsource, hoffset, hparted, hdigits⟩
    · rintro ⟨passed, digits, c, more, hsource, hoffset, hparted, hdigits⟩
      exact ⟨passed, _, hsource, hoffset, hparted, front_eq_iff.2 ⟨digits, c, more, rfl, hdigits⟩⟩
  · intro c offset
    rw [fault_mem_tokenize_iff]
    constructor
    · rintro ⟨passed, rest, hsource, hoffset, hparted, hfault⟩
      obtain ⟨more, rfl, hc⟩ := front_eq_iff.1 hfault
      exact ⟨passed, more, hsource, hoffset, hparted, hc⟩
    · rintro ⟨passed, more, hsource, hoffset, hparted, hc⟩
      exact ⟨passed, _, hsource, hoffset, hparted, front_eq_iff.2 ⟨more, rfl, hc⟩⟩

/-- A keyword in capitals, a symbol that one begins, and a number that runs into an underscore. -/
theorem tokenize_stands_beside_keyword :
    let source : Text := "OPT opté in:x/y 12_".toList
    let t : Token := ⟨.symbol, ⟨4, 9⟩, "opté".toList⟩
    (.ok t ∈ tokenize source ∧ ∃ passed rest, source = passed ++ (t.text ++ rest) ∧
      t.span = ⟨Text.byteSize passed, Text.byteSize (passed ++ t.text)⟩ ∧
      Parted passed (t.text ++ rest) ∧ TokenKind.symbol.Stands t.text rest.head?) ∧
    .error ⟨.malformedNumber, 17⟩ ∈ tokenize source ∧
      ∃ passed digits c more, source = passed ++ (digits ++ c :: more) ∧
        Text.byteSize passed = 17 ∧ Parted passed (digits ++ c :: more) ∧ digits ≠ [] ∧
        (∀ d ∈ digits, d.isDigit = true) ∧ isSymbolStart c = true := by
  intro source t
  obtain ⟨htokens, hnumbers, -⟩ := tokenize_stands source
  have ht : .ok t ∈ tokenize source := by decide +kernel
  have hfault : .error ⟨.malformedNumber, 17⟩ ∈ tokenize source := by decide +kernel
  exact ⟨⟨ht, htokens t ht⟩, hfault, (hnumbers 17).1 hfault⟩

end PioFrontEnd
