import PioFrontEnd.Proofs.ByName.Texts
import PioFrontEnd.Proofs.Draft.Reachability
import PioFrontEnd.Proofs.Token.Composition

/-!
# Logical lines and physical lines

A line break is drawn exactly where tokens have been drawn before it on its physical line. So the
lines that a parser is given are the physical lines that have tokens, each with all of its tokens
and with its own end, and the parser gets to no other lines whatever has been wrong before.

* `TokenStream.exists_content`: what is drawn next, up to the first token that is no line break.
* `TokenStream.exists_stream_after`: where a stream is once a token has been drawn.
* `mem_linesOf_tokenize_append_lineBreak`: the lines of a source, one physical line at a time.
* `logical_lines`: what this means for the tokens of a source and for the lines of all compilations.
-/

namespace PioFrontEnd

/-! ### Line breaks between tokens -/

/-- The first line break of a gap that begins at this offset, as a token. -/
def firstBreak (offset : Nat) (gap : Text) : List Token :=
  let site := offset + Text.byteSize (gap.takeWhile (· ≠ '\n'))
  if '\n' ∈ gap then [⟨.endOfLine, ⟨site, site + 1⟩, ['\n']⟩] else []

/-- A text without line feeds has no part in the first line break, and moves it on by its size. -/
theorem firstBreak_append {text : Text} (h : '\n' ∉ text) (offset : Nat) (gap : Text) :
    firstBreak offset (text ++ gap) = firstBreak (offset + Text.byteSize text) gap := by
  have hkeep : ∀ c ∈ text, decide (c ≠ '\n') = true :=
    fun c hc => decide_eq_true fun heq => h (heq ▸ hc)
  simp only [firstBreak, List.takeWhile_append_of_pos hkeep, Text.byteSize_append, Nat.add_assoc,
    List.mem_append, h, false_or]

/-- A line feed in front is the first line break. -/
theorem firstBreak_lineBreak (offset : Nat) (gap : Text) :
    firstBreak offset ('\n' :: gap) = [⟨.endOfLine, ⟨offset, offset + 1⟩, ['\n']⟩] := by
  simp [firstBreak]

/-- The first line break is the end of a line. -/
theorem kind_of_mem_firstBreak {offset : Nat} {gap : Text} {t : Token}
    (h : t ∈ firstBreak offset gap) : t.kind = .endOfLine := by
  unfold firstBreak at h
  dsimp only at h
  split at h
  · rw [List.mem_singleton.1 h]
  · cases h

/-- Whether what has been drawn is not the end of a line. -/
def NoBreak (item : Except Fault Token) : Prop := ∀ t, item = .ok t → t.kind ≠ .endOfLine

/-- The ends of lines before the first of what has been drawn that is none are known from all. -/
theorem breaks_eq_of_append_eq {breaks breaks' : List Token} {item item' : Except Fault Token}
    {later later' : List (Except Fault Token)} (hbreaks : ∀ t ∈ breaks, t.kind = .endOfLine)
    (hbreaks' : ∀ t ∈ breaks', t.kind = .endOfLine) (hitem : NoBreak item) (hitem' : NoBreak item')
    (h : breaks.map .ok ++ item :: later = breaks'.map .ok ++ item' :: later') :
    breaks = breaks' ∧ item = item' := by
  induction breaks generalizing breaks' with
  | nil =>
    rcases breaks' with _ | ⟨t', breaks'⟩
    · exact ⟨rfl, (List.cons.inj h).1⟩
    · exact absurd (hbreaks' t' List.mem_cons_self) (hitem t' (List.cons.inj h).1)
  | cons t breaks ih =>
    rcases breaks' with _ | ⟨t', breaks'⟩
    · exact absurd (hbreaks t List.mem_cons_self) (hitem' t (List.cons.inj h).1.symm)
    · obtain ⟨heq, hrest⟩ := List.cons.inj h
      obtain ⟨rfl, rfl⟩ := ih (List.forall_mem_cons.1 hbreaks).2 (List.forall_mem_cons.1 hbreaks').2
        hrest
      rw [Except.ok.inj heq]
      exact ⟨rfl, rfl⟩

namespace TokenStream

variable {s s' s₁ : TokenStream} {text rest : Text}

/-- Whether a stream is at the place where another one is after a part of the source. -/
structure Passes (s : TokenStream) (passed : Text) (s' : TokenStream) : Prop where
  /-- The part is at the front of what is left. -/
  rest : s.rest = passed ++ s'.rest
  /-- The offset goes on by its size. -/
  offset : s'.offset = s.offset + Text.byteSize passed

namespace Passes

/-- A stream is where it is when nothing has been passed. -/
theorem refl (s : TokenStream) : s.Passes [] s := ⟨rfl, rfl⟩

/-- Parts that are passed one after another are passed together. -/
theorem trans {passed more : Text} (h : s.Passes passed s₁) (h' : s₁.Passes more s') :
    s.Passes (passed ++ more) s' :=
  ⟨by rw [h.rest, h'.rest, List.append_assoc],
    by rw [h'.offset, h.offset, Text.byteSize_append, Nat.add_assoc]⟩

/-- A stream that passes over a gap has passed its text. -/
theorem skip (h : front s.rest = .gap text rest) : s.Passes text (s.skip text rest) :=
  ⟨(front_eq_iff.1 h).1, rfl⟩

/-- A stream that draws a token has passed its text. -/
theorem advance {kind : TokenKind} (h : front s.rest = .token kind text rest) :
    s.Passes text (s.advance kind text rest) :=
  ⟨(front_eq_iff.1 h).1, rfl⟩

end Passes

/-- What is drawn next: the first line break of the gap, unless a line has just ended, and then what
comes after the gap. -/
theorem exists_content (s : TokenStream) (hs : s.finished = false) :
    ∃ gap s' item later, s.Passes gap s' ∧ siteOf item = s'.offset ∧ NoBreak item ∧
      s.items = (if s.freshLine then [] else firstBreak s.offset gap).map .ok ++ item :: later := by
  induction s using stepwise with
  | finished s hfinished hitems =>
    rw [hs] at hfinished
    cases hfinished
  | ending s _ hnil hitems =>
    refine ⟨[], s, .ok (s.tokenHere .endOfFile []), [], .refl s, rfl, ?_, ?_⟩
    · rintro t ⟨⟩
      exact TokenKind.noConfusion
    · rw [hitems]
      cases s.freshLine <;> rfl
  | fault s cause _ hfault hitems =>
    refine ⟨[], s, .error ⟨cause, s.offset⟩, [], .refl s, rfl, ?_, ?_⟩
    · rintro t ⟨⟩
    · rw [hitems]
      cases s.freshLine <;> rfl
  | gap s text rest _ hgap hitems ih =>
    have hkeeps := keepsLines_front s.rest
    rw [hgap] at hkeeps
    obtain ⟨gap, s', item, later, hpasses, hsite, hitem, hlater⟩ := ih hs
    refine ⟨text ++ gap, s', item, later, (Passes.skip hgap).trans hpasses, hsite, hitem, ?_⟩
    rw [hitems, firstBreak_append hkeeps]
    exact hlater
  | blankLine s text rest _ hline hfresh hitems ih =>
    obtain ⟨gap, s', item, later, hpasses, hsite, hitem, hlater⟩ := ih hs
    refine ⟨text ++ gap, s', item, later, (Passes.advance hline).trans hpasses, hsite, hitem, ?_⟩
    rw [hitems, if_pos hfresh]
    exact hlater
  | token s kind text rest _ htoken hkeep hitems ih =>
    by_cases hkind : kind = .endOfLine
    · -- the line break that ends the line, and no more of them
      subst hkind
      have hkeeps := keepsLines_front s.rest
      rw [htoken] at hkeeps
      obtain rfl : text = ['\n'] := hkeeps
      have hfresh : s.freshLine = false := by simpa using hkeep
      obtain ⟨gap, s', item, later, hpasses, hsite, hitem, hlater⟩ := ih hs
      refine ⟨'\n' :: gap, s', item, later, (Passes.advance htoken).trans hpasses, hsite, hitem, ?_⟩
      rw [hitems, hlater, hfresh, firstBreak_lineBreak]
      rfl
    · refine ⟨[], s, .ok (s.tokenHere kind text), (s.advance kind text rest).items, .refl s, rfl, ?_,
        ?_⟩
      · rintro t ⟨⟩
        exact hkind
      · rw [hitems]
        cases s.freshLine <;> rfl

/-- Where a stream is once a token has been drawn that is not the last one. -/
theorem exists_stream_after (hs : s.finished = false) {before later : List (Except Fault Token)}
    {t : Token} (h : s.items = before ++ .ok t :: later) (hlater : later ≠ []) :
    ∃ passed s', s.Passes passed s' ∧ s'.finished = false ∧ s'.offset = t.span.stop ∧
      s'.freshLine = decide (t.kind = .endOfLine) ∧ s'.items = later := by
  induction s using stepwise generalizing before with
  | finished s hfinished hitems =>
    rw [hs] at hfinished
    cases hfinished
  | ending s _ hnil hitems =>
    rw [hitems] at h
    rcases before with _ | ⟨item, before⟩
    · exact absurd (List.cons.inj h).2.symm hlater
    · simp at h
  | fault s cause _ hfault hitems =>
    rw [hitems] at h
    rcases before with _ | ⟨item, before⟩
    · cases (List.cons.inj h).1
    · simp at h
  | gap s text rest _ hgap hitems ih =>
    obtain ⟨passed, s', hpasses, hafter⟩ := ih hs (hitems ▸ h)
    exact ⟨text ++ passed, s', (Passes.skip hgap).trans hpasses, hafter⟩
  | blankLine s text rest _ hline hfresh hitems ih =>
    obtain ⟨passed, s', hpasses, hafter⟩ := ih hs (hitems ▸ h)
    exact ⟨text ++ passed, s', (Passes.advance hline).trans hpasses, hafter⟩
  | token s kind text rest _ htoken hkeep hitems ih =>
    rw [hitems] at h
    rcases before with _ | ⟨item, before⟩
    · obtain ⟨heq, hafter⟩ := List.cons.inj h
      cases heq
      exact ⟨text, s.advance kind text rest, .advance htoken, hs, rfl, rfl, hafter⟩
    · obtain ⟨passed, s', hpasses, hafter⟩ := ih hs (List.cons.inj h).2
      exact ⟨text ++ passed, s', (Passes.advance htoken).trans hpasses, hafter⟩

/-- No line break is drawn where a line has just ended. -/
theorem noBreak_of_fresh (hs : s.finished = false) (hfresh : s.freshLine = true)
    {item : Except Fault Token} {later : List (Except Fault Token)} (h : s.items = item :: later) :
    NoBreak item := by
  obtain ⟨gap, s', first, others, -, -, hfirst, hitems⟩ := s.exists_content hs
  rw [hfresh, if_pos rfl, h] at hitems
  rw [(List.cons.inj hitems).1]
  exact hfirst

end TokenStream

/-! ### Lines, one physical line at a time -/

/-- Whether the tokens of a line stand on one physical line of a source, and what ends the line
where that ends. -/
def Line.OnPhysicalLine (source : Text) (line : Line) : Prop :=
  ∃ passed physical rest, source = passed ++ (physical ++ rest) ∧ passed.IsComplete ∧
    '\n' ∉ physical ∧ (∀ c ∈ rest.head?, c = '\n') ∧
    (∀ t ∈ line.tokens, Text.byteSize passed ≤ t.span.start ∧
      t.span.stop ≤ Text.byteSize (passed ++ physical)) ∧
    line.stop.span.start = Text.byteSize (passed ++ physical)

/-- A line after others stands on one physical line, too. -/
theorem Line.OnPhysicalLine.moved {t : Text} {tokens : List Token} {stop : Token}
    (h : OnPhysicalLine t ⟨tokens, stop⟩) (first : Text) :
    OnPhysicalLine (first ++ '\n' :: t)
      ⟨tokens.map (Token.moved (Text.byteSize first + 1)),
        stop.moved (Text.byteSize first + 1)⟩ := by
  obtain ⟨passed, physical, rest, rfl, hcomplete, hphysical, hrest, htokens, hstop⟩ := h
  have hsize := Text.byteSize_append_lineBreak first
  refine ⟨first ++ '\n' :: passed, physical, rest, by simp, hcomplete.below first, hphysical, hrest,
    ?_, ?_⟩
  · intro t ht
    obtain ⟨t', ht', rfl⟩ := List.mem_map.1 ht
    obtain ⟨hstart, hend⟩ := htokens t' ht'
    rw [List.append_assoc, List.cons_append, hsize, hsize]
    exact ⟨Nat.add_le_add_right hstart _, Nat.add_le_add_right hend _⟩
  · rw [List.append_assoc, List.cons_append, hsize]
    exact congrArg (· + (Text.byteSize first + 1)) hstop

/-- Tokens within a line are gathered. -/
theorem linesOf_append_content {tokens : List Token} (h : ∀ t ∈ tokens, t.kind.IsContent)
    (pending : List Token) (items : List (Except Fault Token)) :
    linesOf pending (tokens.map .ok ++ items) = linesOf (pending ++ tokens) items := by
  induction tokens generalizing pending with
  | nil => rw [List.append_nil]; rfl
  | cons t tokens ih =>
    obtain ⟨hkind, hrest⟩ := List.forall_mem_cons.1 h
    rw [List.map_cons, List.cons_append, linesOf, if_neg hkind.1, if_neg hkind.2, ih hrest,
      List.append_assoc, List.singleton_append]

variable {first source : Text}

/-- What is drawn from a physical line lies in it, and its tokens stand within a line. -/
theorem exists_layout_of_not_mem (h : '\n' ∉ first) :
    ∃ (tokens : List Token) (final : Except Fault Token),
      tokenize first = tokens.map .ok ++ [final] ∧ Layout true 0 first tokens final ∧
      ∀ t ∈ tokens, t.kind.IsContent := by
  obtain ⟨tokens, final, hitems, hlayout⟩ := (TokenStream.ofText first).exists_layout rfl
  refine ⟨tokens, final, hitems, hlayout, fun t ht => ⟨?_, (hlayout.bounds t ht).1⟩⟩
  apply (TokenStream.ofText first).kind_ne_endOfLine h
  rw [hitems]
  exact List.mem_append_left _ (List.mem_map_of_mem ht)

/-- What is drawn from a physical line: tokens within it, and its end or a fault. -/
theorem exists_tokens_of_not_mem (h : '\n' ∉ first) :
    ∃ (tokens : List Token) (final : Except Fault Token),
      tokenize first = tokens.map .ok ++ [final] ∧ (∀ t ∈ tokens, t.kind.IsContent) ∧
      (∀ t ∈ tokens, t.span.stop ≤ Text.byteSize first) ∧
      (final = .ok ⟨.endOfFile, ⟨Text.byteSize first, Text.byteSize first⟩, []⟩ ∨
        ∃ fault : Fault, final = .error fault) := by
  obtain ⟨tokens, final, htokens, hlayout, hcontent⟩ := exists_layout_of_not_mem h
  obtain ⟨hstops, -, hsite⟩ := hlayout.site_bounds
  have hfinal := hlayout.final_eq
  rw [Nat.zero_add] at hsite hfinal
  exact ⟨tokens, final, htokens, hcontent, fun t ht => Nat.le_trans (hstops t ht) hsite,
    hfinal.imp id fun ⟨fault, hfault, _⟩ => ⟨fault, hfault⟩⟩

/-- The tokens of the first physical line make a line on it. -/
theorem Line.OnPhysicalLine.of_not_mem (h : '\n' ∉ first) {rest : Text}
    (hrest : ∀ c ∈ rest.head?, c = '\n') {tokens : List Token}
    (htokens : ∀ t ∈ tokens, t.span.stop ≤ Text.byteSize first) {stop : Token}
    (hstop : stop.span.start = Text.byteSize first) : OnPhysicalLine (first ++ rest) ⟨tokens, stop⟩ :=
  ⟨[], first, rest, rfl, rfl, h, hrest, fun t ht => ⟨Nat.zero_le _, htokens t ht⟩, hstop⟩

/-- The lines of a source with one physical line more: first its own, if that has tokens, and then
the others, unless there is a fault in it. -/
theorem mem_linesOf_tokenize_append_lineBreak (hfirst : '\n' ∉ first) {rest : Text} {line : Line}
    (h : .ok line ∈ linesOf [] (tokenize (first ++ '\n' :: rest))) :
    (line.tokens ≠ [] ∧ line.OnPhysicalLine (first ++ '\n' :: rest)) ∨
      ∃ tokens stop, .ok ⟨tokens, stop⟩ ∈ linesOf [] (tokenize rest) ∧
        line = ⟨tokens.map (Token.moved (Text.byteSize first + 1)),
          stop.moved (Text.byteSize first + 1)⟩ := by
  have hlater : ∀ {line : Line},
      .ok line ∈ linesOf [] ((tokenize rest).map (movedItem (Text.byteSize first + 1))) →
      ∃ tokens stop, .ok ⟨tokens, stop⟩ ∈ linesOf [] (tokenize rest) ∧
        line = ⟨tokens.map (Token.moved (Text.byteSize first + 1)),
          stop.moved (Text.byteSize first + 1)⟩ := by
    intro line hline
    have hmoved := linesOf_movedItem (Text.byteSize first + 1) [] (tokenize rest)
    rw [List.map_nil] at hmoved
    rw [hmoved] at hline
    obtain ⟨fault | ⟨tokens, stop⟩, hmem, heq⟩ := List.mem_map.1 hline
    · cases heq
    · exact ⟨tokens, stop, hmem, (Except.ok.inj heq).symm⟩
  obtain ⟨tokens, final, htokens, hcontent, hstops, rfl | ⟨fault, rfl⟩⟩ :=
    exists_tokens_of_not_mem hfirst
  all_goals rw [tokenize_eq_splice, htokens] at h
  · rw [splice_of_ending (fun t ht => (hcontent t ht).2) true rfl, linesOf_append_content hcontent,
      List.nil_append] at h
    rcases hlast : tokens.getLast? with _ | last
    · obtain rfl := List.getLast?_eq_none_iff.1 hlast
      exact .inr (hlater h)
    · have hfresh : freshAfter true tokens = false := by
        rw [freshAfter, hlast]
        exact decide_eq_false (hcontent last (List.mem_of_getLast? hlast)).1
      rw [hfresh] at h
      rcases List.mem_cons.1 h with hown | hothers
      · refine .inl ?_
        rw [Except.ok.inj hown]
        have hrest : ∀ c ∈ ('\n' :: rest).head?, c = '\n' := fun c hc => (Option.some.inj hc).symm
        refine ⟨?_, .of_not_mem hfirst hrest hstops rfl⟩
        rintro rfl
        cases hlast
      · exact .inr (hlater hothers)
  · rw [splice_of_fault (fun t ht => (hcontent t ht).2), linesOf_append_content hcontent] at h
    rcases List.mem_cons.1 h with hfault | hnil
    · cases hfault
    · cases hnil

/-- Each line has tokens and stands on one physical line. -/
theorem onPhysicalLine_of_mem_linesOf {line : Line} (h : .ok line ∈ linesOf [] (tokenize source)) :
    line.tokens ≠ [] ∧ line.OnPhysicalLine source := by
  induction hn : source.length using Nat.strongRecOn generalizing source line with
  | ind n ih =>
    subst hn
    by_cases hbreak : '\n' ∈ source
    · obtain ⟨first, rest, rfl, hfirst⟩ := List.eq_append_cons_of_mem hbreak
      rcases mem_linesOf_tokenize_append_lineBreak hfirst h with hown | ⟨tokens, stop, hmem, rfl⟩
      · exact hown
      · have hlt : rest.length < (first ++ '\n' :: rest).length := by
          rw [List.length_append, List.length_cons]
          omega
        obtain ⟨hne, hphysical⟩ := ih _ hlt hmem rfl
        exact ⟨fun hnil => hne (List.map_eq_nil_iff.1 hnil), hphysical.moved first⟩
    · obtain ⟨tokens, final, htokens, hcontent, hstops, rfl | ⟨fault, rfl⟩⟩ :=
        exists_tokens_of_not_mem hbreak
      all_goals rw [htokens, linesOf_append_content hcontent, List.nil_append] at h
      · rcases tokens with _ | ⟨t, tokens⟩
        · cases h
        · obtain rfl := Except.ok.inj (List.mem_singleton.1 h)
          have hline : Line.OnPhysicalLine (source ++ [])
              ⟨t :: tokens, ⟨.endOfFile, ⟨Text.byteSize source, Text.byteSize source⟩, []⟩⟩ :=
            .of_not_mem hbreak (by simp) hstops rfl
          rw [List.append_nil] at hline
          exact ⟨List.cons_ne_nil _ _, hline⟩
      · rcases List.mem_cons.1 h with hfault | hnil
        · cases hfault
        · cases hnil

/-! ### All lines together -/

/-- The tokens of the lines are those that stand within lines, in the same order. -/
theorem exists_lines_of_ended {tokens : List Token} (h : Ended (tokens.map .ok))
    (pending : List Token) :
    ∃ lines : List Line, linesOf pending (tokens.map .ok) = lines.map .ok ∧
      lines.flatMap Line.tokens = pending ++
        tokens.filter fun t => t.kind ≠ .endOfLine ∧ t.kind ≠ .endOfFile := by
  induction tokens generalizing pending with
  | nil => cases h
  | cons t tokens ih =>
    rw [List.map_cons] at h ⊢
    by_cases hfile : t.kind = .endOfFile
    · rcases tokens with _ | ⟨u, tokens⟩
      · rcases pending with _ | ⟨p, pending⟩
        · exact ⟨[], by simp [linesOf, hfile], by simp [hfile]⟩
        · exact ⟨[⟨p :: pending, t⟩], by simp [linesOf, hfile], by simp [hfile]⟩
      · -- nothing is drawn after the end of the source
        cases h with
        | token hkind _ => exact absurd hfile hkind
    · have hrest : Ended (tokens.map .ok) := by
        generalize hitems : tokens.map Except.ok = items at h
        cases h with
        | endOfFile hkind => exact absurd hkind hfile
        | token _ hrest => exact hrest
      by_cases hline : t.kind = .endOfLine
      · obtain ⟨lines, hlines, htokens⟩ := ih hrest []
        refine ⟨⟨pending, t⟩ :: lines, ?_, ?_⟩
        · rw [linesOf, if_pos hline, hlines]
          rfl
        · rw [List.flatMap_cons, htokens, List.filter_cons_of_neg (by simp [hline])]
          rfl
      · obtain ⟨lines, hlines, htokens⟩ := ih hrest (pending ++ [t])
        refine ⟨lines, ?_, ?_⟩
        · rw [linesOf, if_neg hline, if_neg hfile, hlines]
        · rw [htokens, List.filter_cons_of_pos (by simp [hline, hfile]), List.append_assoc]
          rfl

namespace TokenStream

/-- Nothing is left where the source has ended a line, or had ended before. -/
theorem items_of_gather {s s' : TokenStream} {tokens : List Token} {lineEnd : LineEnd}
    (h : s.gather = (tokens, lineEnd, s'))
    (hend : lineEnd = .exhausted ∨ ∃ stop, lineEnd = .token stop ∧ stop.kind = .endOfFile) :
    s'.items = [] := by
  fun_induction gather s generalizing tokens with
  | case1 s hnext =>
    cases h
    exact items_of_none hnext
  | case2 s fault s₁ hnext =>
    cases h
    rcases hend with hend | ⟨stop, hend, -⟩ <;> cases hend
  | case3 s token s₁ hnext hkind =>
    cases h
    rcases hend with hend | ⟨stop, hend, hstop⟩ <;> cases hend
    rw [hkind] at hstop
    cases hstop
  | case4 s token s₁ hnext hkind =>
    cases h
    exact items_of_none (next?_of_finished (finished_of_endOfFile hnext hkind))
  | case5 s token s₁ hnext tokens₂ end₂ s₂ hgather hline hfile ih =>
    cases h
    exact ih hgather

/-- Where there is no line, none is left. -/
theorem lines_of_nextLine_none {s s' : TokenStream} (h : s.nextLine = (none, s')) :
    s'.lines = [] := by
  have hitems : s'.items = [] := by
    unfold nextLine at h
    split at h
    · rename_i hgather
      cases h
      exact items_of_gather hgather (.inl rfl)
    · cases h
    · rename_i tokens stop s₁ hgather
      split at h
      · rename_i hnone
        cases h
        exact items_of_gather hgather (.inr ⟨stop, rfl, hnone.2⟩)
      · cases h
  rw [lines_eq_linesOf, hitems]
  rfl

end TokenStream

/-- The lines that a run leaves are the last ones. -/
theorem Compilation.lines_suffix_run (c : Compilation) :
    c.run.2.stream.lines <:+ c.stream.lines := by
  fun_induction run c with
  | case1 c stream hnext =>
    rw [TokenStream.lines_of_nextLine_none hnext]
    exact List.nil_suffix
  | case2 c fault stream hnext =>
    rw [TokenStream.lines_of_some hnext]
    exact List.suffix_cons _ _
  | case3 c line stream hnext fault draft htake =>
    rw [TokenStream.lines_of_some hnext]
    exact List.suffix_cons _ _
  | case4 c line stream hnext draft htake ih =>
    rw [TokenStream.lines_of_some hnext]
    exact ih.trans (List.suffix_cons _ _)

/-- The lines that are left in a compilation are the last ones of the source. -/
theorem Compilation.Reachable.lines_suffix {c : Compilation} (h : Reachable source c) :
    c.stream.lines <:+ (TokenStream.ofText source).lines := by
  induction h with
  | start => exact List.suffix_refl _
  | perform h action ih =>
    cases action with
    | run => exact (lines_suffix_run _).trans ih
    | nextLine =>
      rename_i c
      show c.stream.nextLine.2.lines <:+ _
      rcases hnext : c.stream.nextLine with ⟨_ | line, s⟩
      · rw [TokenStream.lines_of_nextLine_none hnext]
        exact List.nil_suffix
      · rw [TokenStream.lines_of_some hnext] at ih
        exact (List.suffix_cons _ _).trans ih
    | intern name => exact ih
    | openProgram name => exact ih
    | add define => exact ih
    | evaluate e => exact ih
  | takeLine h line ih => exact ih

/-! ### Sources -/

/-- Between two tokens of a source that are no line breaks there is the first line break of the gap,
if there is one in the gap, and no other. -/
theorem firstBreak_of_tokenize {before later : List (Except Fault Token)} {a : Token}
    {between : List Token} {item : Except Fault Token}
    (h : tokenize source = before ++ .ok a :: (between.map .ok ++ item :: later))
    (ha : a.kind ≠ .endOfLine) (hbetween : ∀ t ∈ between, t.kind = .endOfLine)
    (hitem : NoBreak item) :
    ∃ passed gap rest, source = passed ++ (gap ++ rest) ∧ Text.byteSize passed = a.span.stop ∧
      Text.byteSize (passed ++ gap) = siteOf item ∧ between = firstBreak a.span.stop gap := by
  obtain ⟨passed, s, hpasses, hs, hstop, hfresh, hitems⟩ :=
    TokenStream.exists_stream_after (s := .ofText source) rfl h (by simp)
  obtain ⟨gap, s', first, others, hpasses', hsite, hfirst, hdrawn⟩ := s.exists_content hs
  have hall := hpasses.trans hpasses'
  rw [hfresh, decide_eq_false ha, if_neg Bool.false_ne_true, hitems] at hdrawn
  obtain ⟨rfl, rfl⟩ := breaks_eq_of_append_eq hbetween (fun t => kind_of_mem_firstBreak) hitem
    hfirst hdrawn
  refine ⟨passed, gap, s'.rest, ?_, ?_, ?_, ?_⟩
  · rw [← List.append_assoc]
    exact hall.rest
  · rw [← hstop, hpasses.offset]
    exact (Nat.zero_add _).symm
  · rw [hsite, hall.offset]
    exact (Nat.zero_add _).symm
  · rw [hstop]

/-- No line break is drawn first, and none after another one. Between two tokens that are none, or
before a fault, there is one exactly if there is one in the text between them, and it is the first
of these. In every compilation the lines that are left are the last ones of the source, and a line
that is drawn has tokens, which stand on one physical line as far as its end. The lines of a source
without lexical faults have all tokens but the ends of lines and of the source, in order. -/
theorem logical_lines (source : Text) :
    (∀ t later, tokenize source = .ok t :: later → t.kind ≠ .endOfLine) ∧
    (∀ before a b later, tokenize source = before ++ .ok a :: .ok b :: later →
      a.kind = .endOfLine → b.kind ≠ .endOfLine) ∧
    (∀ before a between item later,
      tokenize source = before ++ .ok a :: (between.map .ok ++ item :: later) →
      a.kind ≠ .endOfLine → (∀ t ∈ between, t.kind = .endOfLine) → NoBreak item →
      ∃ passed gap rest, source = passed ++ (gap ++ rest) ∧ Text.byteSize passed = a.span.stop ∧
        Text.byteSize (passed ++ gap) = siteOf item ∧ between = firstBreak a.span.stop gap) ∧
    (∀ c, Compilation.Reachable source c → c.stream.lines <:+ (TokenStream.ofText source).lines ∧
      ∀ line s, c.stream.nextLine = (some (.ok line), s) →
        line.tokens ≠ [] ∧ line.OnPhysicalLine source) ∧
    ∀ tokens : List Token, tokenize source = tokens.map .ok →
      ∃ lines : List Line, (TokenStream.ofText source).lines = lines.map .ok ∧
        lines.flatMap Line.tokens =
          tokens.filter fun t => t.kind ≠ .endOfLine ∧ t.kind ≠ .endOfFile := by
  refine ⟨?_, ?_, fun _ _ _ _ _ => firstBreak_of_tokenize, ?_, ?_⟩
  · intro t later h
    exact TokenStream.noBreak_of_fresh (s := .ofText source) rfl rfl h t rfl
  · intro before a b later h ha
    obtain ⟨passed, s, -, hs, -, hfresh, hitems⟩ :=
      TokenStream.exists_stream_after (s := .ofText source) rfl h (List.cons_ne_nil _ _)
    rw [ha] at hfresh
    exact TokenStream.noBreak_of_fresh hs hfresh hitems b rfl
  · intro c hc
    refine ⟨hc.lines_suffix, fun line s hnext => ?_⟩
    have hmem : .ok line ∈ c.stream.lines := by
      rw [TokenStream.lines_of_some hnext]
      exact List.mem_cons_self
    have hsource := hc.lines_suffix.subset hmem
    rw [TokenStream.lines_eq_linesOf] at hsource
    exact onPhysicalLine_of_mem_linesOf hsource
  · intro tokens htokens
    have hended := (TokenStream.ofText source).ended_items rfl
    rw [show (TokenStream.ofText source).items = tokens.map .ok from htokens] at hended
    obtain ⟨lines, hlines, hcontent⟩ := exists_lines_of_ended hended []
    refine ⟨lines, ?_, hcontent⟩
    rw [TokenStream.lines_eq_linesOf]
    exact (congrArg (linesOf []) htokens).trans hlines

/-- A line is drawn after a fault in the one before it. Between them are a comment, an empty line and
a directive that is not known. -/
theorem logical_lines_after_fault :
    let source : Text := ".define A B // c\n\n .x\n.define C 1".toList
    let b : Token := ⟨.symbol, ⟨10, 11⟩, ['B']⟩
    let feed : Token := ⟨.endOfLine, ⟨16, 17⟩, ['\n']⟩
    let define : Token := ⟨.directive .define, ⟨22, 29⟩, ".define".toList⟩
    let before : List Token := [⟨.directive .define, ⟨0, 7⟩, ".define".toList⟩, ⟨.symbol, ⟨8, 9⟩, ['A']⟩]
    let last : List Token := [⟨.symbol, ⟨30, 31⟩, ['C']⟩, ⟨.number, ⟨32, 33⟩, ['1']⟩]
    let ending : Token := ⟨.endOfFile, ⟨33, 33⟩, []⟩
    let c := (Compilation.ofText source).perform .run
    (tokenize source = (before ++ b :: feed :: define :: (last ++ [ending])).map .ok ∧
      (∃ passed gap rest, source = passed ++ (gap ++ rest) ∧ Text.byteSize passed = 11 ∧
        Text.byteSize (passed ++ gap) = 22 ∧ [feed] = firstBreak 11 gap)) ∧
    (c.stream.nextLine.1 = some (.ok ⟨define :: last, ending⟩) ∧
      Line.OnPhysicalLine source ⟨define :: last, ending⟩) ∧
    ∃ lines : List Line, (TokenStream.ofText source).lines = lines.map .ok ∧
      lines.flatMap Line.tokens = before ++ b :: define :: last := by
  intro source b feed define before last ending c
  obtain ⟨-, -, hbetween, hreachable, hlines⟩ := logical_lines source
  have htokens : tokenize source =
      (before ++ b :: feed :: define :: (last ++ [ending])).map .ok := by decide +kernel
  have hnext : c.stream.nextLine.1 = some (.ok ⟨define :: last, ending⟩) := by decide +kernel
  have hc : Compilation.Reachable source c := .perform .start .run
  refine ⟨⟨htokens, ?_⟩, ⟨hnext, ?_⟩, ?_⟩
  · refine hbetween (before.map .ok) b [feed] (.ok define) ((last ++ [ending]).map .ok) htokens
      (by decide) (by decide) ?_
    rintro t ⟨⟩
    decide
  · exact ((hreachable c hc).2 _ _ (Prod.ext hnext rfl)).2
  · exact hlines _ htokens

end PioFrontEnd
