import PioFrontEnd.Proofs.Grammar.Viability
import PioFrontEnd.Proofs.LogicalLines

/-!
# Lexical faults and the lines they stand on

A line is drawn as a whole before it is taken. So the lexer meets what is no token after all lines
above have been taken, and before anything is said of the tokens that stand on the same line. Faults
come in the order of the lines, but within a line what the lexer finds comes first.

`BrokenLine` describes the line on which the lexer stops. If the tokens on it before the fault begin
no line that can be read, then the fault hides another one, which is found when these tokens are
taken by themselves.

* `nonempty_brokenLine_iff`: the lexer stops at a fault exactly if there is such a line.
* `BrokenLine.exists_lines`: it comes after the lines above, and nothing comes after it.
* `Compilation.run_eq_takeLines`: a run takes the lines that are left one after another.
* `Listing.error_mem_of_takeLines`: a lexical fault is reported only where the lexer has met it.
* `lexical_fault_hides_own_line_only`: when a lexical fault is reported, and what it can hide.
-/

namespace PioFrontEnd

variable {source above rest line below : Text} {fault : Fault} {tokens : List Token}

/-! ### The line on which the lexer stops -/

/-- The physical line of a source on which the lexer stops at a fault, with the lines above it and
below it, and the tokens that are drawn before the fault. -/
structure BrokenLine (source : Text) (fault : Fault) where
  /-- The lines above. -/
  above : Text
  /-- The line, without its line break. -/
  line : Text
  /-- What follows the line. -/
  below : Text
  /-- What is drawn from the lines above. -/
  earlier : List Token
  /-- The tokens on the line before the fault. -/
  tokens : List Token
  /-- The source has these lines, in order. -/
  source_eq : source = above ++ (line ++ below)
  /-- The lines above are complete. -/
  complete : above.IsComplete
  /-- The line is one line. -/
  unbroken : '\n' ∉ line
  /-- The line goes on to its line break or to the end of the source. -/
  ended : ∀ c ∈ below.head?, c = '\n'
  /-- The lexer stops at the fault, after these tokens. -/
  drawn : tokenize source = (earlier ++ tokens).map .ok ++ [.error fault]
  /-- It does not stop in the lines above. -/
  drawn_above : tokenize above =
    earlier.map .ok ++ [.ok ⟨.endOfFile, ⟨Text.byteSize above, Text.byteSize above⟩, []⟩]
  /-- The tokens on the line stand within a line. -/
  content : ∀ t ∈ tokens, t.kind.IsContent
  /-- The tokens on the line stand after the lines above and before the fault. -/
  standing : ∀ t ∈ tokens, Text.byteSize above ≤ t.span.start ∧ t.span.start < fault.offset
  /-- The fault stands on the line. -/
  within : Text.byteSize above ≤ fault.offset ∧ fault.offset ≤ Text.byteSize (above ++ line)

namespace BrokenLine

/-- The line made of the tokens before the fault, as if it ended there. -/
def cut (b : BrokenLine source fault) : Line :=
  ⟨b.tokens, ⟨.endOfFile, ⟨fault.offset, fault.offset⟩, []⟩⟩

/-- What the lexer stops at is a lexical fault. -/
theorem lexical (b : BrokenLine source fault) : fault.cause.kind = .lexical := by
  obtain ⟨tokens, final, htokens, -, rfl | ⟨fault', rfl, hlexical⟩⟩ := exists_tokenize_eq source
  · cases (drawn_inj (b.drawn.symm.trans htokens)).2
  · cases (drawn_inj (b.drawn.symm.trans htokens)).2
    exact hlexical

/-- If the lexer stops on the first line, then this is the line on which it stops. -/
theorem nonempty_of_first (hline : '\n' ∉ line) (hbelow : ∀ c ∈ below.head?, c = '\n')
    (h : .error fault ∈ tokenize line) : Nonempty (BrokenLine (line ++ below) fault) := by
  obtain ⟨tokens, final, htokens, hlayout, hcontent⟩ := exists_layout_of_not_mem hline
  obtain rfl : .error fault = final := by
    rw [htokens] at h
    simpa using h
  obtain ⟨hstops, -, hwithin⟩ := hlayout.site_bounds
  rw [Nat.zero_add] at hwithin
  exact ⟨{
    above := [], line, below, earlier := [], tokens
    source_eq := rfl
    complete := rfl
    unbroken := hline
    ended := hbelow
    drawn := tokenize_append_of_fault htokens hbelow
    drawn_above := tokenize_nil
    content := hcontent
    standing := fun t ht =>
      ⟨Nat.zero_le _, Nat.lt_of_lt_of_le (hlayout.bounds t ht).2.2 (hstops t ht)⟩
    within := ⟨Nat.zero_le _, hwithin⟩ }⟩

/-- If the lexer does not stop on the first line, it stops on a line below that. -/
theorem nonempty_of_rest {before : List Token}
    (hbefore : ∀ t, tokenize (line ++ '\n' :: t) =
      before.map .ok ++ (tokenize t).map (movedItem (Text.byteSize line + 1)))
    (b : BrokenLine rest fault) :
    Nonempty (BrokenLine (line ++ '\n' :: rest) (fault.moved (Text.byteSize line + 1))) := by
  have hsize := Text.byteSize_append_lineBreak line
  have hdrawn : ∀ {t : Text} {later : List Token} {last : Except Fault Token},
      tokenize t = later.map .ok ++ [last] → tokenize (line ++ '\n' :: t) =
        (before ++ later.map (Token.moved (Text.byteSize line + 1))).map .ok ++
          [movedItem (Text.byteSize line + 1) last] := by
    intro t later last ht
    rw [hbefore, ht, List.map_append, List.map_append, List.map_map, List.map_map,
      List.append_assoc]
    rfl
  refine ⟨{
    above := line ++ '\n' :: b.above, line := b.line, below := b.below
    earlier := before ++ b.earlier.map (Token.moved (Text.byteSize line + 1))
    tokens := b.tokens.map (Token.moved (Text.byteSize line + 1))
    source_eq := by rw [List.append_assoc, List.cons_append, ← b.source_eq]
    complete := b.complete.below line
    unbroken := b.unbroken
    ended := b.ended
    drawn := ?_
    drawn_above := ?_
    content := fun t ht => ?_
    standing := fun t ht => ?_
    within := ?_ }⟩
  · rw [hdrawn b.drawn, List.append_assoc before, ← List.map_append]
    rfl
  · rw [hdrawn b.drawn_above, hsize]
    rfl
  · obtain ⟨t', ht', rfl⟩ := List.mem_map.1 ht
    exact b.content t' ht'
  · obtain ⟨t', ht', rfl⟩ := List.mem_map.1 ht
    obtain ⟨hstart, hlt⟩ := b.standing t' ht'
    rw [hsize]
    exact ⟨Nat.add_le_add_right hstart _, Nat.add_lt_add_right hlt _⟩
  · obtain ⟨hstart, hend⟩ := b.within
    rw [List.append_assoc, List.cons_append, hsize, hsize]
    exact ⟨Nat.add_le_add_right hstart _, Nat.add_le_add_right hend _⟩

end BrokenLine

/-- The lexer stops at a fault exactly if there is a line on which it stops. -/
theorem nonempty_brokenLine_iff :
    Nonempty (BrokenLine source fault) ↔ .error fault ∈ tokenize source := by
  constructor
  · rintro ⟨b⟩
    rw [b.drawn]
    exact List.mem_append_right _ List.mem_cons_self
  · intro h
    induction hn : source.length using Nat.strongRecOn generalizing source fault with
    | ind n ih =>
      subst hn
      by_cases hbreak : '\n' ∈ source
      · obtain ⟨first, rest, rfl, hfirst⟩ := List.eq_append_cons_of_mem hbreak
        obtain ⟨tokens, final, htokens, -, rfl | ⟨fault', rfl, -⟩⟩ := exists_tokenize_eq first
        · -- the fault is among what is drawn from the lines after the first one
          rw [tokenize_append_of_ending htokens] at h
          have hlater :
              .error fault ∈ (tokenize rest).map (movedItem (Text.byteSize first + 1)) := by
            simpa using h
          obtain ⟨fault' | token, hmem, heq⟩ := List.mem_map.1 hlater <;> cases heq
          have hlt : rest.length < (first ++ '\n' :: rest).length := by
            rw [List.length_append, List.length_cons]
            omega
          obtain ⟨b⟩ := ih _ hlt hmem rfl
          exact BrokenLine.nonempty_of_rest (tokenize_append_of_ending htokens) b
        · have hbelow : ∀ c ∈ ('\n' :: rest).head?, c = '\n' :=
            fun c hc => (Option.some.inj hc).symm
          rw [tokenize_append_of_fault htokens hbelow, ← htokens] at h
          exact BrokenLine.nonempty_of_first hfirst hbelow h
      · have hbelow : ∀ c ∈ ([] : Text).head?, c = '\n' := by simp
        have hfirst := BrokenLine.nonempty_of_first hbreak hbelow h
        rwa [List.append_nil] at hfirst

/-! ### The lines that come before -/

/-- After complete lines another one is about to begin. -/
theorem freshAfter_of_isComplete (h : above.IsComplete) {stop : Token}
    (hdrawn : tokenize above = tokens.map .ok ++ [.ok stop]) : freshAfter true tokens = true := by
  rcases Text.isComplete_iff.1 h with rfl | ⟨u, rfl⟩
  · have hnil : ([] : List Token).map Except.ok ++ [_] = tokens.map Except.ok ++ [_] :=
      tokenize_nil.symm.trans hdrawn
    rw [← (drawn_inj hnil).1]
    rfl
  · obtain ⟨tokens', final, htokens, -, rfl | ⟨fault, rfl, -⟩⟩ := exists_tokenize_eq u
    · rw [tokenize_append_of_ending htokens [], tokenize_nil] at hdrawn
      rw [← (drawn_inj hdrawn).1]
      exact freshAfter_lineBreakAfter tokens' _
    · rw [tokenize_append_of_fault htokens (by simp)] at hdrawn
      cases (drawn_inj hdrawn).2

/-- Tokens up to the end of a line make lines that do not depend on what is drawn after them. -/
theorem exists_linesOf_append {tokens : List Token} (hkinds : ∀ t ∈ tokens, t.kind ≠ .endOfFile)
    (pending : List Token) (hfresh : freshAfter pending.isEmpty tokens = true) :
    ∃ lines : List Line, ∀ items,
      linesOf pending (tokens.map .ok ++ items) = lines.map .ok ++ linesOf [] items := by
  induction tokens generalizing pending with
  | nil =>
    obtain rfl := List.isEmpty_iff.1 hfresh
    exact ⟨[], fun items => rfl⟩
  | cons t tokens ih =>
    obtain ⟨hfile, hrest⟩ := List.forall_mem_cons.1 hkinds
    rw [freshAfter_cons] at hfresh
    by_cases hline : t.kind = .endOfLine
    · rw [decide_eq_true hline] at hfresh
      obtain ⟨lines, hlines⟩ := ih hrest [] hfresh
      refine ⟨⟨pending, t⟩ :: lines, fun items => ?_⟩
      rw [List.map_cons, List.cons_append, linesOf, if_pos hline, hlines]
      rfl
    · have hpending : (pending ++ [t]).isEmpty = false := by simp
      rw [decide_eq_false hline, ← hpending] at hfresh
      obtain ⟨lines, hlines⟩ := ih hrest (pending ++ [t]) hfresh
      refine ⟨lines, fun items => ?_⟩
      rw [List.map_cons, List.cons_append, linesOf, if_neg hline, if_neg hfile, hlines]

/-- The lines above the one on which the lexer stops are those of the source, and then comes the
fault. -/
theorem BrokenLine.exists_lines (b : BrokenLine source fault) : ∃ lines : List Line,
    (TokenStream.ofText source).lines = lines.map .ok ++ [.error fault] ∧
      (TokenStream.ofText b.above).lines = lines.map .ok := by
  obtain ⟨lines, hlines⟩ := exists_linesOf_append (kind_ne_endOfFile_of_tokenize b.drawn_above) []
    (freshAfter_of_isComplete b.complete b.drawn_above)
  refine ⟨lines, ?_, ?_⟩
  · rw [TokenStream.lines_eq_linesOf,
      show (TokenStream.ofText source).items = tokenize source from rfl, b.drawn, List.map_append,
      List.append_assoc, hlines, linesOf_append_content b.content]
    rfl
  · rw [TokenStream.lines_eq_linesOf,
      show (TokenStream.ofText b.above).items = tokenize b.above from rfl, b.drawn_above, hlines]
    exact List.append_nil _

/-! ### Lines that are taken by a draft -/

namespace Draft

/-- Takes lines up to the first fault. -/
def takeLines (d : Draft) : List (Except Fault Line) → Except Fault Unit × Draft
  | [] => (.ok (), d)
  | .error fault :: _ => (.error fault, d)
  | .ok line :: lines =>
    match d.takeLine line with
    | (.error fault, d) => (.error fault, d)
    | (.ok (), d) => d.takeLines lines

/-- A fault after lines that are taken is reported, and the draft is left as they have made it. -/
theorem takeLines_concat_fault {d d' : Draft} {lines : List Line}
    (h : d.takeLines (lines.map .ok) = (.ok (), d')) (fault : Fault) :
    d.takeLines (lines.map .ok ++ [.error fault]) = (.error fault, d') := by
  induction lines generalizing d with
  | nil =>
    cases h
    rfl
  | cons line lines ih =>
    rw [List.map_cons, takeLines] at h
    rw [List.map_cons, List.cons_append, takeLines]
    rcases htake : d.takeLine line with ⟨fault' | _, d₁⟩
    · rw [htake] at h
      cases h
    · rw [htake] at h
      exact ih h

end Draft

/-- A run takes the lines that are left one after another. -/
theorem Compilation.run_eq_takeLines (c : Compilation) :
    (c.run.1, c.run.2.draft) = c.draft.takeLines c.stream.lines := by
  fun_induction run c with
  | case1 c stream hnext =>
    rw [TokenStream.lines_of_none hnext]
    rfl
  | case2 c fault stream hnext =>
    rw [TokenStream.lines_of_some hnext]
    rfl
  | case3 c line stream hnext fault draft htake =>
    rw [TokenStream.lines_of_some hnext, Draft.takeLines, htake]
  | case4 c line stream hnext draft htake ih =>
    rw [TokenStream.lines_of_some hnext, Draft.takeLines, htake]
    exact ih

/-! ### What a line can be refused for -/

namespace Listing

variable {l : Listing Text}

/-- What is wrong with a statement is not lexical. -/
theorem not_lexical_of_obey {statement : Statement Text} {cause : Cause}
    (h : l.obey statement = .error cause) : cause.kind ≠ .lexical := by
  cases statement with
  | program name =>
    change l.beginProgram name = .error cause at h
    unfold beginProgram at h
    split at h <;> cases h
    exact CauseKind.noConfusion
  | define exported name expr =>
    change l.defineConstant exported name expr = .error cause at h
    unfold defineConstant at h
    split at h
    · rename_i hvalue
      cases h
      rcases Expr.cause_of_valueUnder hvalue with rfl | ⟨n, -, hmeaning⟩
      · exact CauseKind.noConfusion
      · unfold valueOf at hmeaning
        split at hmeaning <;> cases hmeaning
        exact CauseKind.noConfusion
    · split at h <;> cases h
      exact CauseKind.noConfusion

/-- What is wrong with a line of tokens is not lexical. -/
theorem not_lexical_of_takeLine {line : Line} (hended : line.Ended)
    (h : l.takeLine line = .error fault) : fault.cause.kind ≠ .lexical := by
  unfold takeLine at h
  split at h
  · rename_i hread
    cases h
    rcases (Statement.misfit_of_read hended hread).1 with hkind | hkind <;> rw [hkind] <;>
      exact CauseKind.noConfusion
  · rename_i statement hread
    rcases hobey : l.obey statement with cause | l'
    · rw [hobey] at h
      cases h
      exact not_lexical_of_obey hobey
    · rw [hobey] at h
      cases h

/-- A lexical fault is reported only where it stands among the lines. -/
theorem error_mem_of_takeLines {lines : List (Except Fault Line)}
    (hended : ∀ line, .ok line ∈ lines → line.Ended) (h : l.takeLines lines = .error fault)
    (hlexical : fault.cause.kind = .lexical) : .error fault ∈ lines := by
  induction lines generalizing l with
  | nil => cases h
  | cons item lines ih =>
    rcases item with fault' | line
    · cases h
      exact List.mem_cons_self
    · rw [takeLines] at h
      rcases htake : l.takeLine line with fault' | l'
      · rw [htake] at h
        cases h
        exact absurd hlexical (not_lexical_of_takeLine (hended line List.mem_cons_self) htake)
      · rw [htake] at h
        exact List.mem_cons_of_mem _
          (ih (fun line hline => hended line (List.mem_cons_of_mem _ hline)) h)

end Listing

/-! ### What a lexical fault hides -/

/-- What comes after lines that cannot be taken is not looked at. -/
theorem Listing.takeLines_append_of_error {l : Listing Text} {lines : List (Except Fault Line)}
    (h : l.takeLines lines = .error fault) (later : List (Except Fault Line)) :
    l.takeLines (lines ++ later) = .error fault := by
  rw [takeLines_eq_foldl] at h ⊢
  rw [List.foldl_append, h, foldl_takeNext_error]

/-- What a run reports is what is wrong with the lines of the source. -/
theorem Compilation.takeLines_of_run (h : (ofText source).run.1 = .error fault) :
    ({} : Listing Text).takeLines (TokenStream.ofText source).lines = .error fault := by
  have hfollows := run_ofText_follows source
  rw [h] at hfollows
  exact hfollows.eq_error

/-- If the lines above compile, the fault is reported, and the draft is the one they lead to. -/
theorem BrokenLine.run_of_compile (b : BrokenLine source fault) {f : File}
    (h : compile b.above = .ok f) :
    (Compilation.ofText source).run.1 = .error fault ∧
      (Compilation.ofText source).run.2.draft = (Compilation.ofText b.above).run.2.draft := by
  have hok : (Compilation.ofText b.above).run.1 = .ok () := by
    unfold compile at h
    split at h
    · rename_i hrun
      rw [hrun]
    · cases h
  obtain ⟨lines, hsource, habove⟩ := b.exists_lines
  have htaken := (Compilation.ofText b.above).run_eq_takeLines
  have hrun := (Compilation.ofText source).run_eq_takeLines
  rw [hok, show (Compilation.ofText b.above).stream.lines = _ from habove] at htaken
  rw [show (Compilation.ofText source).stream.lines = _ from hsource,
    show (Compilation.ofText source).draft.takeLines _ = _ from
      Draft.takeLines_concat_fault htaken.symm fault] at hrun
  exact Prod.mk.inj hrun

/-- If a lexical fault is what is wrong with the lines of a source, the lines above the one on which
it stands compile. -/
theorem exists_brokenLine_of_takeLines
    (h : ({} : Listing Text).takeLines (TokenStream.ofText source).lines = .error fault)
    (hlexical : fault.cause.kind = .lexical) :
    ∃ (b : BrokenLine source fault) (f : File), compile b.above = .ok f := by
  have hmem := Listing.error_mem_of_takeLines (fun _ => TokenStream.ended_of_mem_lines) h hlexical
  rw [TokenStream.lines_eq_linesOf] at hmem
  obtain ⟨b⟩ := nonempty_brokenLine_iff.2 (error_mem_of_mem_linesOf hmem)
  obtain ⟨lines, hsource, habove⟩ := b.exists_lines
  refine ⟨b, ?_⟩
  rcases htake : ({} : Listing Text).takeLines (lines.map .ok) with fault' | l
  · -- what is wrong with a line above would be reported in place of the fault
    have hfirst := Listing.takeLines_append_of_error htake [.error fault]
    rw [← hsource, h] at hfirst
    cases hfirst
    have habsurd := Listing.error_mem_of_takeLines
      (fun line hline => TokenStream.ended_of_mem_lines (habove ▸ hline)) htake hlexical
    obtain ⟨line, -, heq⟩ := List.mem_map.1 habsurd
    cases heq
  · rw [← habove] at htake
    obtain ⟨f, hcompile, -⟩ := compile_of_listing htake
    exact ⟨f, hcompile⟩

/-- The tokens before the fault, if they begin no line that can be read, are refused by themselves
for something that stands among them. -/
theorem BrokenLine.exists_hidden (b : BrokenLine source fault) {d : Draft}
    (h : ¬ Statement.Viable d.see b.tokens) : ∃ hidden,
      d.takeLine b.cut = (.error hidden, d) ∧ hidden.OfReading ∧
        Text.byteSize b.above ≤ hidden.offset ∧ hidden.offset < fault.offset := by
  have hended : b.cut.Ended := .inr rfl
  obtain ⟨hidden, hread, hof, t, ht, hoffset⟩ := Statement.exists_fault_of_not_viable hended h
  refine ⟨hidden, ?_, hof, ?_⟩
  · rw [Draft.takeLine, hread]
  · rw [hoffset]
    exact b.standing t ht

/-- The lexer stops at a fault exactly if there is a line of the source on which it does. A lexical
fault is reported exactly if the lexer stops at it and the lines above that line compile; then the
draft is the one that these lead to. So it hides nothing that is wrong with an earlier line. What it
can hide stands on its own line: if the tokens there before it begin no line that can be read in this
draft, a fault of reading, further left, which is found when these tokens are taken alone. -/
theorem lexical_fault_hides_own_line_only (source : Text) :
    (∀ fault, Nonempty (BrokenLine source fault) ↔ .error fault ∈ tokenize source) ∧
    (∀ report, compile source = .error report ∧ report.cause.kind = .lexical ↔
      ∃ (fault : Fault) (b : BrokenLine source fault) (f : File), compile b.above = .ok f ∧
        report = fault.diagnose (.ofText source)) ∧
    ∀ (fault : Fault) (b : BrokenLine source fault) (f : File), compile b.above = .ok f →
      let d := (Compilation.ofText source).run.2.draft
      (Compilation.ofText source).run.1 = .error fault ∧
        d = (Compilation.ofText b.above).run.2.draft ∧
        (¬ Statement.Viable d.see b.tokens → ∃ hidden,
          d.takeLine b.cut = (.error hidden, d) ∧ hidden.OfReading ∧
            Text.byteSize b.above ≤ hidden.offset ∧ hidden.offset < fault.offset) := by
  refine ⟨fun fault => nonempty_brokenLine_iff, fun report => ⟨?_, ?_⟩, fun fault b f h => ?_⟩
  · rintro ⟨h, hlexical⟩
    obtain ⟨fault, hlines, -, rfl⟩ := exists_fault_of_compile h
    obtain ⟨b, f, habove⟩ := exists_brokenLine_of_takeLines hlines hlexical
    exact ⟨fault, b, f, habove, rfl⟩
  · rintro ⟨fault, b, f, habove, rfl⟩
    have hlines := Compilation.takeLines_of_run (b.run_of_compile habove).1
    exact ⟨(compile_of_fault hlines).1, b.lexical⟩
  · obtain ⟨hrun, hdraft⟩ := b.run_of_compile h
    exact ⟨hrun, hdraft, b.exists_hidden⟩

/-- A line with a name that is unknown and, after it, a number that runs into a letter. -/
def unknownNameBeforeNumber :
    BrokenLine ".define A 1\n.define B C 2x\n.define D 3".toList ⟨.malformedNumber, 24⟩ where
  above := ".define A 1\n".toList
  line := ".define B C 2x".toList
  below := "\n.define D 3".toList
  earlier := [⟨.directive .define, ⟨0, 7⟩, ".define".toList⟩, ⟨.symbol, ⟨8, 9⟩, ['A']⟩,
    ⟨.number, ⟨10, 11⟩, ['1']⟩, ⟨.endOfLine, ⟨11, 12⟩, ['\n']⟩]
  tokens := [⟨.directive .define, ⟨12, 19⟩, ".define".toList⟩, ⟨.symbol, ⟨20, 21⟩, ['B']⟩,
    ⟨.symbol, ⟨22, 23⟩, ['C']⟩]
  source_eq := by decide
  complete := by decide
  unbroken := by decide
  ended := fun c hc => (Option.some.inj hc).symm
  drawn := by decide +kernel
  drawn_above := by decide +kernel
  content := by decide
  standing := by decide
  within := by decide

/-- The tokens up to the name begin no line that can be read after the first one. -/
theorem not_viable_unknownNameBeforeNumber : ¬ Statement.Viable
    (Compilation.ofText ".define A 1\n.define B C 2x\n.define D 3".toList).run.2.draft.see
    unknownNameBeforeNumber.tokens := by
  intro hviable
  let d : Draft :=
    (Compilation.ofText ".define A 1\n.define B C 2x\n.define D 3".toList).run.2.draft
  have hheading : Statement.Heading [⟨.directive .define, ⟨12, 19⟩, ".define".toList⟩,
      ⟨.symbol, ⟨20, 21⟩, ['B']⟩] false ['B'] := .bare rfl rfl
  have hexpr : Expr.Viable d.see [⟨.symbol, ⟨22, 23⟩, ['C']⟩] :=
    (Statement.viable_heading_iff hheading).1 hviable
  obtain ⟨progress, hadvance⟩ := Expr.viable_iff_advance.1 hexpr
  have hnone : Expr.Progress.start.advance d.see [⟨.symbol, ⟨22, 23⟩, ['C']⟩] = none := by
    decide +kernel
  rw [hnone] at hadvance
  cases hadvance

/-- The number is reported, and not the name, which is found when the tokens are taken by
themselves. -/
theorem lexical_fault_hides_unknown_name :
    let source : Text := ".define A 1\n.define B C 2x\n.define D 3".toList
    let d := (Compilation.ofText source).run.2.draft
    (∃ f, compile unknownNameBeforeNumber.above = .ok f) ∧
      compile source = .error ⟨.malformedNumber, ⟨2, 13⟩⟩ ∧
      ¬ Statement.Viable d.see unknownNameBeforeNumber.tokens ∧
      ∃ hidden, d.takeLine unknownNameBeforeNumber.cut = (.error hidden, d) ∧
        hidden = ⟨.unknownIdentifier ['C'], 22⟩ := by
  intro source d
  let f : File :=
    ⟨⟨[['A']]⟩, { defines := [{ name := ⟨0⟩, expr := .literal 1, value := some 1 }] }⟩
  have habove : compile unknownNameBeforeNumber.above = .ok f := by decide +kernel
  obtain ⟨-, hreported, hhides⟩ := lexical_fault_hides_own_line_only source
  have hcompile := ((hreported ⟨.malformedNumber, ⟨2, 13⟩⟩).2
    ⟨_, unknownNameBeforeNumber, f, habove, by decide +kernel⟩).1
  obtain ⟨-, -, hmisfit⟩ := hhides _ unknownNameBeforeNumber f habove
  obtain ⟨hidden, htake, -⟩ := hmisfit not_viable_unknownNameBeforeNumber
  have hfound : (d.takeLine unknownNameBeforeNumber.cut).1 =
      .error ⟨.unknownIdentifier ['C'], 22⟩ := by decide +kernel
  rw [htake] at hfound
  exact ⟨⟨f, habove⟩, hcompile, not_viable_unknownNameBeforeNumber, hidden, htake,
    Except.error.inj hfound⟩

/-- It is not so that a lexical fault comes only after tokens that begin a line. -/
theorem lexical_fault_after_misfit :
    ¬ ∀ (source : Text) (fault : Fault) (b : BrokenLine source fault),
      (Compilation.ofText source).run.1 = .error fault → fault.cause.kind = .lexical →
        Statement.Viable (Compilation.ofText source).run.2.draft.see b.tokens := by
  intro h
  have hrun : (Compilation.ofText ".define A 1\n.define B C 2x\n.define D 3".toList).run.1 =
      .error ⟨.malformedNumber, 24⟩ := by decide +kernel
  exact not_viable_unknownNameBeforeNumber (h _ _ unknownNameBeforeNumber hrun rfl)

end PioFrontEnd
