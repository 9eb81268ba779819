import Mathlib.Data.List.Basic
import PioFrontEnd.Proofs.Token.Drawing
import PioFrontEnd.Proofs.Token.Positions

/-!
# Nothing of a source is lost

The tokens of a source stand in it one after another, each with the text of its place. Whatever
stands between them is made of pieces that say nothing (`Piece`): blanks, comments, directives that
are not known, and the line breaks of lines without tokens. So the source can be put together again
from what is drawn and from such pieces (`Layout`), and drawing comes to an end for every source: at
the end of it, or at a character or number that is no token.

* `Piece`, `Droppable`: what may be passed over, said without the lexer.
* `TokenStream.exists_layout`: what is drawn from a stream lies in its text.
* `TokenStream.next?_afterDraws`: after everything has been drawn, nothing more is.
* `tokenize_lossless`: what this means for spans, texts and gaps.
-/

namespace PioFrontEnd

/-! ### What may stand between tokens -/

/-- Whether a text is made of pieces that may be passed over before this rest. -/
inductive Droppable (fresh : Bool) : Text → Text → Prop where
  /-- There is nothing to pass over. -/
  | nil {rest : Text} : Droppable fresh [] rest
  /-- First comes a piece. -/
  | cons {piece gap rest : Text} (hpiece : Piece fresh piece (gap ++ rest))
    (hgap : Droppable fresh gap rest) : Droppable fresh (piece ++ gap) rest

/-- A gap at the front of a text is a piece that may be passed over. -/
theorem piece_of_front_gap {s text rest : Text} (h : front s = .gap text rest) (fresh : Bool) :
    Piece fresh text rest := by
  cases (front_eq_iff.1 h).2 with
  | blank hc => exact .blank hc
  | comment hbegin hline hrest => exact .comment hbegin hline hrest
  | unknown hname hrest hunknown => exact .unknown hname hrest hunknown
  | lineBreak hfresh => cases hfresh

/-- What is wrong at the front of a text is lexical. -/
theorem lexical_of_front_fault {s : Text} {cause : Cause} (h : front s = .fault cause) :
    cause.kind = .lexical := by
  have hspelled := front_eq_iff.1 h
  cases cause with
  | malformedNumber => rfl
  | unexpectedCharacter c => rfl
  | _ => exact hspelled.elim

/-! ### How what is drawn lies in the source -/

/-- A part of a text is the slice that begins after what comes before it and has its size. -/
theorem Text.slice?_append (s t u : Text) :
    slice? (s ++ (t ++ u)) (byteSize s) (byteSize s + byteSize t) = some t := by
  rw [slice?, if_pos (Nat.le_add_right _ _), splitAtByte?_append, Nat.add_sub_cancel_left]
  show (splitAtByte? (t ++ u) (byteSize t)).bind _ = _
  rw [splitAtByte?_append]
  rfl

/-- Whether these tokens, and what comes last, lie in a text that begins at this offset, with
nothing but droppable pieces before each of them. -/
inductive Layout : Bool → Nat → Text → List Token → Except Fault Token → Prop where
  /-- The source ends. -/
  | ending {fresh : Bool} {offset : Nat} {gap : Text} (hgap : Droppable fresh gap []) :
    Layout fresh offset gap []
      (.ok ⟨.endOfFile, ⟨offset + Text.byteSize gap, offset + Text.byteSize gap⟩, []⟩)
  /-- Something is no token. -/
  | fault {fresh : Bool} {offset : Nat} {gap rest : Text} {cause : Cause}
    (hgap : Droppable fresh gap rest) (hcause : cause.kind = .lexical) :
    Layout fresh offset (gap ++ rest) [] (.error ⟨cause, offset + Text.byteSize gap⟩)
  /-- First comes a token. -/
  | token {fresh : Bool} {offset start stop : Nat} {gap text rest : Text} {kind : TokenKind}
    {tokens : List Token} {final : Except Fault Token} (hgap : Droppable fresh gap (text ++ rest))
    (hkind : kind ≠ .endOfFile) (htext : text ≠ [])
    (hstart : start = offset + Text.byteSize gap) (hstop : stop = start + Text.byteSize text)
    (hrest : Layout (kind = .endOfLine) stop rest tokens final) :
    Layout fresh offset (gap ++ (text ++ rest)) (⟨kind, ⟨start, stop⟩, text⟩ :: tokens) final

variable {fresh : Bool} {offset : Nat} {s : Text} {tokens : List Token}
  {final : Except Fault Token}

/-- A piece that may be passed over can come first. -/
theorem Layout.afterPiece {piece : Text} (hpiece : Piece fresh piece s)
    (h : Layout fresh (offset + Text.byteSize piece) s tokens final) :
    Layout fresh offset (piece ++ s) tokens final := by
  have hsize : ∀ gap, offset + Text.byteSize piece + Text.byteSize gap =
      offset + Text.byteSize (piece ++ gap) := by
    intro gap
    rw [Text.byteSize_append, Nat.add_assoc]
  cases h with
  | ending hgap =>
    rw [hsize]
    refine .ending (.cons ?_ hgap)
    rwa [List.append_nil]
  | fault hgap hcause =>
    rw [hsize, ← List.append_assoc]
    exact .fault (.cons hpiece hgap) hcause
  | token hgap hkind htext hstart hstop hrest =>
    rw [hsize] at hstart
    rw [← List.append_assoc]
    exact .token (.cons hpiece hgap) hkind htext hstart hstop hrest

/-- What is drawn from a stream lies in its text. -/
theorem TokenStream.exists_layout (s : TokenStream) (hs : s.finished = false) :
    ∃ tokens final, s.items = tokens.map .ok ++ [final] ∧
      Layout s.freshLine s.offset s.rest tokens final := by
  induction s using stepwise with
  | finished s hfinished hitems =>
    rw [hs] at hfinished
    cases hfinished
  | ending s _ hnil hitems =>
    refine ⟨[], _, hitems, ?_⟩
    rw [hnil]
    exact .ending .nil
  | fault s cause _ hfault hitems =>
    have hgap : Droppable s.freshLine [] s.rest := .nil
    exact ⟨[], _, hitems, .fault hgap (lexical_of_front_fault hfault)⟩
  | gap s text rest _ hgap hitems ih =>
    obtain ⟨tokens, final, hafter, hlayout⟩ := ih hs
    have hdivides := divides_front s.rest
    rw [hgap] at hdivides
    refine ⟨tokens, final, hitems.trans hafter, ?_⟩
    rw [← hdivides.1]
    exact hlayout.afterPiece (piece_of_front_gap hgap _)
  | blankLine s text rest _ hline hfresh hitems ih =>
    obtain ⟨tokens, final, hafter, hlayout⟩ := ih hs
    have hdivides := divides_front s.rest
    have hkeeps := keepsLines_front s.rest
    rw [hline] at hdivides hkeeps
    obtain rfl : text = ['\n'] := hkeeps
    refine ⟨tokens, final, hitems.trans hafter, ?_⟩
    rw [← hdivides.1, hfresh]
    exact hlayout.afterPiece (.lineBreak rfl)
  | token s kind text rest _ htoken hkeep hitems ih =>
    obtain ⟨tokens, final, hafter, hlayout⟩ := ih hs
    have hdivides := divides_front s.rest
    rw [htoken] at hdivides
    refine ⟨s.tokenHere kind text :: tokens, final, ?_, ?_⟩
    · rw [hitems, hafter]
      rfl
    · have hgap : Droppable s.freshLine [] (text ++ rest) := .nil
      rw [← hdivides.1]
      exact .token hgap (kind_ne_endOfFile htoken) hdivides.2 rfl rfl hlayout

namespace Layout

/-- The end of the source comes last, or something that is no token. -/
theorem final_eq (h : Layout fresh offset s tokens final) :
    final = .ok ⟨.endOfFile, ⟨offset + Text.byteSize s, offset + Text.byteSize s⟩, []⟩ ∨
      ∃ f : Fault, final = .error f ∧ f.cause.kind = .lexical := by
  induction h with
  | ending hgap => exact .inl rfl
  | fault hgap hcause => exact .inr ⟨_, rfl, hcause⟩
  | @token _ offset start stop gap text rest kind tokens final _ _ _ hstart hstop hrest ih =>
    rw [hstop, hstart] at ih
    rw [Text.byteSize_append, Text.byteSize_append, ← Nat.add_assoc, ← Nat.add_assoc]
    exact ih

/-- The tokens lie after the offset, none is empty, and none is the end of the source. -/
theorem bounds (h : Layout fresh offset s tokens final) :
    ∀ t ∈ tokens, t.kind ≠ .endOfFile ∧ offset ≤ t.span.start ∧ t.span.start < t.span.stop := by
  induction h with
  | ending hgap => exact fun t ht => absurd ht List.not_mem_nil
  | fault hgap hcause => exact fun t ht => absurd ht List.not_mem_nil
  | @token _ offset start stop gap text rest kind tokens final _ hkind htext hstart hstop _ ih =>
    have hpos : 0 < Text.byteSize text :=
      Nat.pos_of_ne_zero fun hzero => htext (Text.byteSize_eq_zero.1 hzero)
    intro t ht
    rcases List.mem_cons.1 ht with rfl | hmem
    · exact ⟨hkind, by simp only; omega, by simp only; omega⟩
    · obtain ⟨hnot, hle, hlt⟩ := ih t hmem
      exact ⟨hnot, by omega, hlt⟩

/-- The tokens end before what comes last, which stands in the text or at its end. -/
theorem site_bounds (h : Layout fresh offset s tokens final) :
    (∀ t ∈ tokens, t.span.stop ≤ siteOf final) ∧ offset ≤ siteOf final ∧
      siteOf final ≤ offset + Text.byteSize s := by
  induction h with
  | ending hgap =>
    exact ⟨fun t ht => absurd ht List.not_mem_nil, Nat.le_add_right _ _, Nat.le_refl _⟩
  | @fault _ offset gap rest cause hgap hcause =>
    rw [Text.byteSize_append]
    exact ⟨fun t ht => absurd ht List.not_mem_nil, Nat.le_add_right _ _,
      Nat.add_le_add_left (Nat.le_add_right _ _) offset⟩
  | @token _ offset start stop gap text rest kind tokens final _ _ _ hstart hstop _ ih =>
    obtain ⟨hstops, hbefore, hwithin⟩ := ih
    rw [Text.byteSize_append, Text.byteSize_append]
    exact ⟨List.forall_mem_cons.2 ⟨hbefore, hstops⟩, by omega, by omega⟩

/-- Each token ends before the next one begins. -/
theorem pairwise (h : Layout fresh offset s tokens final) :
    tokens.Pairwise fun a b => a.span.stop ≤ b.span.start := by
  induction h with
  | ending hgap => exact .nil
  | fault hgap hcause => exact .nil
  | token _ _ _ _ _ hrest ih =>
    exact List.pairwise_cons.2 ⟨fun t ht => (hrest.bounds t ht).2.1, ih⟩

/-- Each token has the text of its span. -/
theorem slice?_eq (h : Layout fresh offset s tokens final) (passed : Text)
    (hpassed : Text.byteSize passed = offset) :
    ∀ t ∈ tokens, t.span.slice? (passed ++ s) = some t.text := by
  induction h generalizing passed with
  | ending hgap => exact fun t ht => absurd ht List.not_mem_nil
  | fault hgap hcause => exact fun t ht => absurd ht List.not_mem_nil
  | @token _ offset start stop gap text rest kind tokens final _ _ _ hstart hstop _ ih =>
    intro t ht
    rcases List.mem_cons.1 ht with rfl | hmem
    · have hsize : Text.byteSize (passed ++ gap) = start := by
        rw [Text.byteSize_append, hpassed, hstart]
      rw [← List.append_assoc, hstop, ← hsize]
      exact Text.slice?_append (passed ++ gap) text rest
    · have hsize : Text.byteSize (passed ++ gap ++ text) = stop := by
        rw [Text.byteSize_append, Text.byteSize_append]
        omega
      have hrest := ih (passed ++ gap ++ text) hsize t hmem
      simpa only [List.append_assoc] using hrest

/-- Before each of what is drawn there are droppable pieces only. -/
theorem exists_gap (h : Layout fresh offset s tokens final) {before : List Token}
    {item : Except Fault Token} {later : List (Except Fault Token)}
    (hsplit : tokens.map .ok ++ [final] = before.map .ok ++ item :: later) :
    ∃ passed gap rest, s = passed ++ (gap ++ rest) ∧
      offset + Text.byteSize passed = (before.getLast?.map fun t => t.span.stop).getD offset ∧
      offset + Text.byteSize (passed ++ gap) = siteOf item ∧
      Droppable ((before.getLast?.map fun t => decide (t.kind = .endOfLine)).getD fresh) gap
        rest := by
  induction h generalizing before with
  | @ending fresh offset gap hgap =>
    rcases before with _ | ⟨t, before⟩
    · obtain ⟨rfl, -⟩ := List.cons.inj hsplit
      exact ⟨[], gap, [], by simp, rfl, rfl, hgap⟩
    · simp at hsplit
  | @fault fresh offset gap rest cause hgap hcause =>
    rcases before with _ | ⟨t, before⟩
    · obtain ⟨rfl, -⟩ := List.cons.inj hsplit
      exact ⟨[], gap, rest, rfl, rfl, rfl, hgap⟩
    · simp at hsplit
  | @token fresh offset start stop gap text rest kind tokens final hgap _ _ hstart hstop hrest ih =>
    rcases before with _ | ⟨t, before⟩
    · obtain ⟨rfl, -⟩ := List.cons.inj hsplit
      exact ⟨[], gap, text ++ rest, rfl, rfl, hstart.symm, hgap⟩
    · obtain ⟨heq, hlater⟩ := List.cons.inj hsplit
      cases heq
      obtain ⟨passed, gap', rest', rfl, hpassed, hsite, hdroppable⟩ := ih hlater
      have hoffset : ∀ more, offset + Text.byteSize (gap ++ text ++ more) =
          stop + Text.byteSize more := by
        intro more
        rw [Text.byteSize_append, Text.byteSize_append]
        omega
      refine ⟨gap ++ text ++ passed, gap', rest', by simp only [List.append_assoc], ?_, ?_, ?_⟩
      · rw [hoffset, hpassed, List.getLast?_cons]
        rcases before.getLast? with _ | u <;> rfl
      · rw [List.append_assoc, hoffset, hsite]
      · rw [List.getLast?_cons]
        rcases hlast : before.getLast? with _ | u <;> rw [hlast] at hdroppable <;> exact hdroppable

end Layout

/-! ### Asking again -/

namespace TokenStream

/-- The stream after so many draws. A draw that yields nothing leaves it as it is. -/
def afterDraws : Nat → TokenStream → TokenStream
  | 0, s => s
  | n + 1, s => afterDraws n ((s.next?.map Prod.snd).getD s)

/-- The draws yield everything in order, and nothing from then on. -/
theorem next?_afterDraws (n : Nat) (s : TokenStream) :
    ((s.afterDraws n).next?).map Prod.fst = s.items[n]? := by
  induction n generalizing s with
  | zero =>
    rcases hnext : s.next? with _ | ⟨item, s'⟩
    · rw [items_of_none hnext, afterDraws, hnext]
      rfl
    · rw [items_of_some hnext, afterDraws, hnext]
      rfl
  | succ n ih =>
    rw [afterDraws, ih]
    rcases hnext : s.next? with _ | ⟨item, s'⟩
    · rw [items_of_none hnext]
      show s.items[n]? = _
      rw [items_of_none hnext]
      rfl
    · rw [items_of_some hnext]
      rfl

end TokenStream

/-! ### Sources -/

/-- A source is drawn as tokens and then either its end or a lexical fault, and after that nothing.
The tokens stand in order, none is empty, and each has the text of its span. What stands before the
first of what is drawn, and between two of them, can be passed over. -/
theorem tokenize_lossless (source : Text) :
    ∃ (tokens : List Token) (final : Except Fault Token),
      tokenize source = tokens.map .ok ++ [final] ∧
      (final = .ok ⟨.endOfFile, ⟨Text.byteSize source, Text.byteSize source⟩, []⟩ ∨
        ∃ f : Fault, final = .error f ∧ f.cause.kind = .lexical) ∧
      (∀ n, (((TokenStream.ofText source).afterDraws n).next?).map Prod.fst =
        (tokens.map .ok ++ [final])[n]?) ∧
      (∀ t ∈ tokens, t.kind ≠ .endOfFile ∧ t.span.start < t.span.stop ∧
        t.span.slice? source = some t.text) ∧
      tokens.Pairwise (fun a b => a.span.stop ≤ b.span.start) ∧
      ∀ (before : List Token) (item : Except Fault Token) (later : List (Except Fault Token)),
        tokens.map .ok ++ [final] = before.map .ok ++ item :: later →
        ∃ passed gap rest, source = passed ++ (gap ++ rest) ∧
          Text.byteSize passed = (before.getLast?.map fun t => t.span.stop).getD 0 ∧
          Text.byteSize (passed ++ gap) = siteOf item ∧
          Droppable ((before.getLast?.map fun t => decide (t.kind = .endOfLine)).getD true) gap
            rest := by
  obtain ⟨tokens, final, hitems, hlayout⟩ := (TokenStream.ofText source).exists_layout rfl
  refine ⟨tokens, final, hitems, ?_, fun n => ?_, fun t ht => ?_, hlayout.pairwise, ?_⟩
  · have hfinal := hlayout.final_eq
    rw [show (TokenStream.ofText source).offset = 0 from rfl, Nat.zero_add] at hfinal
    exact hfinal
  · rw [TokenStream.next?_afterDraws, hitems]
  · obtain ⟨hkind, -, hlt⟩ := hlayout.bounds t ht
    exact ⟨hkind, hlt, hlayout.slice?_eq [] rfl t ht⟩
  · intro before item later hsplit
    obtain ⟨passed, gap, rest, hsource, hpassed, hsite, hgap⟩ := hlayout.exists_gap hsplit
    rw [show (TokenStream.ofText source).offset = 0 from rfl, Nat.zero_add] at hpassed hsite
    exact ⟨passed, gap, rest, hsource, hpassed, hsite, hgap⟩

/-- A directive that is not known, a comment, and the line break of an empty line. -/
theorem tokenize_lossless_empty_line :
    let source : Text := "é .x//c\n\n a".toList
    let before : List Token := [⟨.symbol, ⟨0, 2⟩, ['é']⟩, ⟨.endOfLine, ⟨8, 9⟩, ['\n']⟩]
    let last : Token := ⟨.symbol, ⟨11, 12⟩, ['a']⟩
    let ending : Token := ⟨.endOfFile, ⟨12, 12⟩, []⟩
    tokenize source = before.map .ok ++ .ok last :: [.ok ending] ∧
      ∃ passed gap rest, source = passed ++ (gap ++ rest) ∧ Text.byteSize passed = 9 ∧
        Text.byteSize (passed ++ gap) = 11 ∧ Droppable true gap rest := by
  intro source before last ending
  have htokens : tokenize source = before.map .ok ++ .ok last :: [.ok ending] := by decide +kernel
  obtain ⟨tokens, final, hitems, -, -, -, -, hgaps⟩ := tokenize_lossless source
  exact ⟨htokens, hgaps before (.ok last) [.ok ending] (hitems.symm.trans htokens)⟩

end PioFrontEnd
