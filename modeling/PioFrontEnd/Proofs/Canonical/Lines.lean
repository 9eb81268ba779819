import PioFrontEnd.Proofs.ByName.Basic
import PioFrontEnd.Proofs.Canonical.Lexing

/-!
# Lines of the canonical form

The lines that a stream draws have the lexemes that their text yields, with spans added. And what is
read from lines that a stream has drawn is well formed: names are spelled as names are, and
expressions have the shape that the reader gives them.

* `nextLine_of_yields`: a line whose text yields lexemes is drawn with these lexemes, and the stream
  is then at the beginning of the next line. `lines_of_yields`: without a line break it is the only
  line.
* `Statement.wellFormed_of_read`: a statement is well formed if the line was drawn from a stream.
-/

namespace PioFrontEnd

namespace TokenStream

variable {s s' s₁ : TokenStream} {kind : TokenKind} {text rest : Text} {tokens : List Token}
  {token : Token} {lineEnd : LineEnd}

/-- Whether nothing has been drawn yet from the line that the stream is in. -/
structure Fresh (s : TokenStream) : Prop where
  /-- No token has been drawn since the last line break. -/
  freshLine : s.freshLine = true
  /-- There is more to be drawn. -/
  unfinished : s.finished = false

/-- At the beginning of a source nothing has been drawn on the line. -/
theorem fresh_ofText (source : Text) : (ofText source).Fresh := ⟨rfl, rfl⟩

/-- The lexemes that a text yields are those of tokens of the line, and gathering goes on where they
end. -/
theorem gather_through {lexemes : List Lexeme} (h : Yields s.rest lexemes rest)
    (hs : s.finished = false) :
    ∃ (tokens : List Token) (s' : TokenStream), tokens.map Token.lexeme = lexemes ∧
      s'.rest = rest ∧ s'.finished = false ∧
      (s'.freshLine = true → s.freshLine = true ∧ lexemes = []) ∧
      ∀ {more stop s₁}, s'.gather = (more, .token stop, s₁) →
        s.gather = (tokens ++ more, .token stop, s₁) := by
  generalize hleft : s.rest = left at h
  induction h generalizing s with
  | nil => exact ⟨[], s, rfl, hleft, hs, fun hf => ⟨hf, rfl⟩, id⟩
  | gap hfront _ ih =>
    obtain ⟨tokens, s', hlexemes, hrest, hs', hfresh, hgather⟩ := ih (s := s.skip _ _) hs rfl
    refine ⟨tokens, s', hlexemes, hrest, hs', hfresh, fun hmore => ?_⟩
    exact gather_congr (next?_of_gap hs (hleft ▸ hfront)) (hgather hmore) (by simp)
  | token hfront hkind _ ih =>
    have hnext := next?_of_token hs (hleft ▸ hfront) fun hboth => hkind.1 hboth.1
    obtain ⟨tokens, s', hlexemes, hrest, hs', hfresh, hgather⟩ := ih (s := s.advance _ _ _) hs rfl
    refine ⟨s.tokenHere _ _ :: tokens, s', ?_, hrest, hs',
      fun hf => absurd (of_decide_eq_true (hfresh hf).1) hkind.1,
      fun hmore => gather_of_content hnext hkind (hgather hmore)⟩
    rw [List.map_cons, hlexemes]
    rfl

/-- The lexemes that a text yields up to a line break are those of the tokens up to there. -/
theorem gather_of_yields {lexemes : List Lexeme} (h : Yields s.rest lexemes ('\n' :: rest))
    (hs : s.finished = false) (hne : s.freshLine = true → lexemes ≠ []) :
    ∃ tokens stop s', s.gather = (tokens, .token stop, s') ∧ tokens.map Token.lexeme = lexemes ∧
      s'.rest = rest ∧ s'.Fresh := by
  obtain ⟨tokens, s', hlexemes, hrest, hs', hfresh, hgather⟩ := gather_through h hs
  have hkeep : s'.freshLine ≠ true := fun hf => hne (hfresh hf).1 (hfresh hf).2
  have hnext := next?_of_token hs' (hrest ▸ front_lineBreak rest) fun hboth => hkeep hboth.2
  have hstop := hgather (gather_of_stop hnext (.inl rfl))
  rw [List.append_nil] at hstop
  exact ⟨tokens, _, _, hstop, hlexemes, rfl, rfl, hs'⟩

/-- A line whose text yields lexemes is drawn with these lexemes. -/
theorem nextLine_of_yields {lexemes : List Lexeme} (hfresh : s.Fresh)
    (h : Yields s.rest lexemes ('\n' :: rest)) (hne : lexemes ≠ []) :
    ∃ line s', s.nextLine = (some (.ok line), s') ∧ line.tokens.map Token.lexeme = lexemes ∧
      s'.rest = rest ∧ s'.Fresh := by
  obtain ⟨tokens, stop, s', hgather, hlexemes, hrest, hfresh'⟩ :=
    gather_of_yields h hfresh.unfinished fun _ => hne
  have htokens : tokens.isEmpty = false := by
    cases tokens with
    | nil => exact absurd hlexemes.symm hne
    | cons token tokens => rfl
  refine ⟨⟨tokens, stop⟩, s', ?_, hlexemes, hrest, hfresh'⟩
  rw [nextLine, hgather]
  simp [htokens]

/-- At the end of the source there is no line. -/
theorem lines_of_end (hfresh : s.Fresh) (h : s.rest = []) : s.lines = [] := by
  have hgather := gather_of_stop
    (next?_of_ending hfresh.unfinished (front_eq_ending.2 h)) (.inr rfl)
  have hnone : s.nextLine = (none, s.close) := by
    rw [nextLine, hgather]
    rfl
  exact lines_of_none hnone

/-- A text without a line break that yields lexemes is the only line of its source. -/
theorem lines_of_yields {lexemes : List Lexeme} (hfresh : s.Fresh)
    (h : Yields s.rest lexemes []) (hne : lexemes ≠ []) :
    ∃ line : Line, s.lines = [.ok line] ∧ line.tokens.map Token.lexeme = lexemes := by
  obtain ⟨tokens, s', hlexemes, hrest, hs', -, hgather⟩ := gather_through h hfresh.unfinished
  have hstop := hgather (gather_of_stop
    (next?_of_ending hs' (front_eq_ending.2 hrest)) (.inr rfl))
  rw [List.append_nil] at hstop
  have htokens : tokens.isEmpty = false := by
    cases tokens with
    | nil => exact absurd hlexemes.symm hne
    | cons token tokens => rfl
  have hline : s.nextLine = (some (.ok ⟨tokens, s'.tokenHere .endOfFile []⟩), s'.close) := by
    rw [nextLine, hstop]
    simp [htokens]
  have hlast : s'.close.nextLine = (none, s'.close) := by
    have hexhausted : s'.close.gather = ([], .exhausted, s'.close) := by
      rw [gather]
      split <;> simp_all [next?_of_finished, close]
    rw [nextLine, hexhausted]
  exact ⟨_, by rw [lines_of_some hline, lines_of_none hlast], hlexemes⟩

end TokenStream

/-! ### Names that are drawn -/

/-- Whether a symbol at the front is spelled as a name is. -/
def Front.SpellsName : Front → Prop
  | .token kind text _ => kind = .symbol → IsName text
  | .gap .. | .ending | .fault _ => True

/-- A symbol at the front of a text is spelled as a name is. -/
theorem spellsName_front (s : Text) : (front s).SpellsName := by
  rcases hfront : front s with _ | ⟨kind, text, rest⟩ | ⟨text, rest⟩ | cause
  case token =>
    intro hkind
    obtain ⟨-, -, hstands⟩ := front_eq_iff.1 hfront
    rw [hkind] at hstands
    exact hstands.1
  all_goals trivial

/-- Whether a token that is a symbol is spelled as a name is. -/
def Token.SpellsName (t : Token) : Prop := t.kind = .symbol → IsName t.text

namespace TokenStream

variable {s s' : TokenStream}

/-- A symbol that is drawn is spelled as a name is. -/
theorem spellsName_of_next? {token : Token} (hnext : s.next? = some (.ok token, s')) :
    token.SpellsName := by
  fun_induction next? s with
  | case1 s hs => cases hnext
  | case2 s hs hfront =>
    cases hnext
    intro hkind
    cases hkind
  | case3 s hs cause hfront => cases hnext
  | case4 s hs text rest hfront ih => exact ih hnext
  | case5 s hs kind text rest hfront hfresh ih => exact ih hnext
  | case6 s hs kind text rest hfront hfresh =>
    cases hnext
    have hspells := spellsName_front s.rest
    rw [hfront] at hspells
    exact hspells

/-- The symbols on a line that is drawn are spelled as names are. -/
theorem spellsName_of_gather {tokens : List Token} {lineEnd : LineEnd}
    (hgather : s.gather = (tokens, lineEnd, s')) :
    (∀ t ∈ tokens, t.SpellsName) ∧ ∀ stop, lineEnd = .token stop → stop.SpellsName := by
  fun_induction gather s generalizing tokens with
  | case1 s =>
    cases hgather
    exact ⟨by simp, fun stop hstop => by cases hstop⟩
  | case2 s fault s₁ hnext =>
    cases hgather
    exact ⟨by simp, fun stop hstop => by cases hstop⟩
  | case3 s token s₁ hnext =>
    cases hgather
    exact ⟨by simp, fun stop hstop => by cases hstop; exact spellsName_of_next? hnext⟩
  | case4 s token s₁ hnext =>
    cases hgather
    exact ⟨by simp, fun stop hstop => by cases hstop; exact spellsName_of_next? hnext⟩
  | case5 s token s₁ hnext tokens₂ end₂ s₂ hgather₂ _ _ ih =>
    cases hgather
    obtain ⟨htokens, hstop⟩ := ih hgather₂
    refine ⟨fun t ht => ?_, hstop⟩
    rcases List.mem_cons.1 ht with rfl | ht
    · exact spellsName_of_next? hnext
    · exact htokens t ht

/-- Every symbol in a line that has been drawn is spelled as a name is. -/
theorem spellsName_of_nextLine {line : Line} (hnext : s.nextLine = (some (.ok line), s')) :
    ∀ t ∈ line.all, t.SpellsName := by
  unfold nextLine at hnext
  split at hnext
  · cases hnext
  · cases hnext
  · rename_i hgather
    split at hnext
    · cases hnext
    · cases hnext
      obtain ⟨htokens, hstop⟩ := spellsName_of_gather hgather
      intro t ht
      rcases List.mem_append.1 ht with ht | ht
      · exact htokens t ht
      · rw [List.mem_singleton.1 ht]
        exact hstop _ rfl

end TokenStream

/-! ### Statements that are read -/

namespace Statement

/-- The name that a statement declares. -/
def subject {ν : Type} : Statement ν → Text
  | program name => name
  | define _ name _ => name

/-- Whether a statement declares a name that is spelled as one, with an expression of the shape that
the reader gives it. -/
def WellFormed {ν : Type} (s : Statement ν) : Prop :=
  IsName s.subject ∧ ∀ exported name expr, s = .define exported name expr → expr.Shaped false

variable {ν : Type} {see : Text → Option ν} {line : Line} {site : Nat} {s : Statement ν}

/-- A statement that is read from a line of a stream is well formed. -/
theorem wellFormed_of_read (hline : ∀ t ∈ line.all, t.SpellsName) (h : read see line = .ok s) :
    s.WellFormed := by
  rcases read_eq_program_or_define h with ⟨-, hread⟩ | ⟨-, exported, line', hall, hread⟩
  · obtain ⟨hkind, -, rfl⟩ := readProgram_eq_ok.1 hread
    exact ⟨hline _ (line.all_rest_subset line.rest.peek_mem_all) hkind, fun _ _ _ hs => by cases hs⟩
  · obtain ⟨hkind, expr, left, hexpr, -, rfl⟩ := readConstant_eq_ok.1 hread
    refine ⟨hline _ (hall line'.peek_mem_all) hkind, fun _ _ _ hs => ?_⟩
    cases hs
    exact Expr.shaped_of_read hexpr

end Statement

end PioFrontEnd
