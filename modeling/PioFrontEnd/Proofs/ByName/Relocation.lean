import PioFrontEnd.Proofs.ByName.Lines

/-!
# Lines in other places

What is read from a line, and what the line makes of a listing, depends on its tokens but not on
their places: the same tokens say the same wherever they stand, and if they say nothing, what is
wrong is found where the token stands that was wrong. Nor does it matter whether the line ends with
a line break or with the source.

* `Statement.read_placed`: the statement of a line in other places.
* `Listing.takeLine_placed`, `Listing.takeLines_placedLine`: what lines in other places make of a
  listing.
-/

namespace PioFrontEnd

/-! ### Lines that say the same -/

/-- Whether a token ends lines. -/
def Token.Ends (t : Token) : Prop := t.kind = .endOfLine ∨ t.kind = .endOfFile

/-- Whether one token is the other one in its new place, or both end lines there. -/
def Token.Matches (g : Nat → Nat) (t t' : Token) : Prop :=
  t' = t.placed g ∨ t.Ends ∧ t'.Ends ∧ t'.span.start = g t.span.start

/-- Where a token starts is moved with its span. -/
theorem Token.Matches.start {g : Nat → Nat} {t t' : Token} (h : t.Matches g t') :
    t'.span.start = g t.span.start := by
  rcases h with rfl | ⟨-, -, hstart⟩
  · rfl
  · exact hstart

/-- Whether one line has the tokens of the other one, each in its new place. -/
structure Line.Placed (g : Nat → Nat) (line line' : Line) : Prop where
  /-- The tokens are the same. -/
  tokens : line'.tokens = line.tokens.map (Token.placed g)
  /-- The ends match. -/
  stop : line.stop.Matches g line'.stop

namespace Line.Placed

variable {g : Nat → Nat} {line line' : Line}

/-- The tokens that come next match. -/
theorem peek (h : line.Placed g line') : line.peek.Matches g line'.peek := by
  unfold Line.peek
  rw [h.tokens]
  rcases line.tokens with _ | ⟨token, tokens⟩
  · exact h.stop
  · exact .inl rfl

/-- Without the token that comes next, lines match as before. -/
theorem rest (h : line.Placed g line') : line.rest.Placed g line'.rest := by
  refine ⟨?_, h.stop⟩
  simp only [Line.rest, h.tokens, List.map_tail]

/-- Lines that match are at their ends alike, and the fault of one that is not is moved. -/
theorem finish (h : line.Placed g line') :
    line'.finish = line.finish.mapError (Fault.placed g) := by
  unfold Line.finish Line.isEmpty
  rw [h.tokens, List.isEmpty_map]
  split
  · rfl
  · simp only [h.peek.start, mapError_error, Fault.placed]

/-- Both lines go on with a token of some kind or neither, unless the kind ends lines. -/
theorem peek_kind_iff (h : line.Placed g line') (kind : TokenKind) (hkind : kind.IsContent) :
    line'.peek.kind = kind ↔ line.peek.kind = kind := by
  rcases h.peek with heq | ⟨hends, hends', -⟩
  · rw [heq]
    rfl
  · constructor
    · rintro rfl
      exact absurd hends' (not_or.2 hkind)
    · rintro rfl
      exact absurd hends (not_or.2 hkind)

/-- A token that does not end lines is read from both or from neither. -/
theorem read? (h : line.Placed g line') (kind : TokenKind) (hkind : kind.IsContent) :
    line.read? kind = none ∧ line'.read? kind = none ∨
      line.read? kind = some (line.peek, line.rest) ∧
        line'.read? kind = some (line.peek.placed g, line'.rest) := by
  have hiff := h.peek_kind_iff kind hkind
  by_cases hpeek : line.peek.kind = kind
  · have heq : line'.peek = line.peek.placed g := by
      rcases h.peek with heq | ⟨hends, -⟩
      · exact heq
      · rw [← hpeek] at hkind
        exact absurd hends (not_or.2 hkind)
    rw [← heq]
    exact .inr ⟨if_pos hpeek, if_pos (hiff.2 hpeek)⟩
  · exact .inl ⟨if_neg hpeek, if_neg fun h => hpeek (hiff.1 h)⟩

end Line.Placed

variable {ν : Type} {g : Nat → Nat} {line line' : Line}

/-- What an expression is read to, and what is left, does not depend on the place. -/
theorem Expr.Progress.run_placed (see : Text → Option ν) {stop stop' : Token}
    (hstop : stop.Matches g stop') (progress : Progress ν) (tokens : List Token) :
    match progress.run see stop tokens with
    | .ok (e, line) => ∃ line',
      progress.run see stop' (tokens.map (Token.placed g)) = .ok (e, line') ∧ line.Placed g line'
    | .error fault =>
      progress.run see stop' (tokens.map (Token.placed g)) = .error (fault.placed g) := by
  induction tokens generalizing progress with
  | nil =>
    simp only [run, List.map_nil]
    rcases progress.conclude with cause | e
    · simp only [hstop.start, Fault.placed]
    · exact ⟨⟨[], stop'⟩, rfl, rfl, hstop⟩
  | cons token tokens ih =>
    have hstep : progress.step see (token.placed g) = progress.step see token := by
      rcases progress with _ | _ <;> rfl
    simp only [run, List.map_cons, hstep]
    rcases progress.step see token with progress' | e | cause
    · exact ih progress'
    · exact ⟨⟨(token :: tokens).map (Token.placed g), stop'⟩, rfl, rfl, hstop⟩
    · rfl

/-- From lines that match the same expression is read, with lines that match left over, or the fault
is moved. -/
theorem Expr.read_placed (see : Text → Option ν) (h : line.Placed g line') :
    match Expr.read see line with
    | .ok (e, left) => ∃ left', Expr.read see line' = .ok (e, left') ∧ left.Placed g left'
    | .error fault => Expr.read see line' = .error (fault.placed g) := by
  unfold Expr.read
  rw [h.tokens]
  exact Progress.run_placed see h.stop .start line.tokens

namespace Statement

/-- What follows `.program` is read alike from lines that match. -/
theorem readProgram_placed (site : Nat) (h : line.Placed g line') :
    readProgram (ν := ν) (g site) line' = (readProgram site line).mapError (Fault.placed g) := by
  unfold readProgram
  rcases h.read? .symbol (by simp [TokenKind.IsContent]) with ⟨hnone, hnone'⟩ | ⟨hsome, hsome'⟩
  · rw [hnone, hnone']
    rfl
  · rw [hsome, hsome']
    dsimp only
    rw [h.rest.finish]
    rcases line.rest.finish with fault | _ <;> rfl

/-- What follows `.define` and its qualifier is read alike from lines that match. -/
theorem readConstant_placed (see : Text → Option ν) (site : Nat) (exported : Bool)
    (h : line.Placed g line') :
    readConstant see (g site) exported line' =
      (readConstant see site exported line).mapError (Fault.placed g) := by
  unfold readConstant
  rcases h.read? .symbol (by simp [TokenKind.IsContent]) with ⟨hnone, hnone'⟩ | ⟨hsome, hsome'⟩
  · rw [hnone, hnone']
    rfl
  · rw [hsome, hsome']
    dsimp only
    have hread := Expr.read_placed see h.rest
    rcases hexpr : Expr.read see line.rest with fault | ⟨e, left⟩
    · rw [hexpr] at hread
      rw [hread]
      rfl
    · rw [hexpr] at hread
      obtain ⟨left', hread', hleft⟩ := hread
      rw [hread']
      simp only [bind, Except.bind, hleft.finish]
      rcases left.finish with fault | _ <;> rfl

/-- What follows `.define` is read alike from lines that match. -/
theorem readDefine_placed (see : Text → Option ν) (site : Nat) (h : line.Placed g line') :
    readDefine see (g site) line' = (readDefine see site line).mapError (Fault.placed g) := by
  rw [readDefine_eq, readDefine_eq]
  have hkind := h.peek_kind_iff (.qualifier .exported) (by simp [TokenKind.IsContent])
  by_cases hexported : line.peek.kind = .qualifier .exported
  · rw [if_pos hexported, if_pos (hkind.2 hexported)]
    exact readConstant_placed see site true h.rest
  · rw [if_neg hexported, if_neg fun h => hexported (hkind.1 h)]
    exact readConstant_placed see site false h

/-- The same statement is read, or what is wrong is in its new place. -/
theorem read_placed (see : Text → Option ν) (h : line.Placed g line') :
    read see line' = (read see line).mapError (Fault.placed g) := by
  unfold read
  dsimp only
  rw [h.peek.start]
  rcases h.peek with heq | ⟨hends, hends', -⟩
  · have hkind : line'.peek.kind = line.peek.kind := by rw [heq]; rfl
    rw [hkind]
    split
    · exact readProgram_placed _ h.rest
    · exact readDefine_placed see _ h.rest
    · rfl
  · -- neither line begins with a directive
    rcases hends with hkind | hkind <;> rcases hends' with hkind' | hkind' <;>
      · rw [hkind, hkind']
        rfl

end Statement

/-! ### Lines that are taken -/

namespace Listing

/-- A line makes the same of a listing wherever it stands. -/
theorem takeLine_placed (l : Listing Text) (h : line.Placed g line') :
    l.takeLine line' = (l.takeLine line).mapError (Fault.placed g) := by
  unfold takeLine
  rw [Statement.read_placed l.see h, h.peek.start]
  rcases Statement.read l.see line with fault | statement
  · rfl
  · show (l.obey statement).mapError _ = ((l.obey statement).mapError _).mapError _
    rcases l.obey statement with cause | l' <;> rfl

/-- Lines make the same of a listing wherever they stand. -/
theorem takeLines_placedLine (l : Listing Text) (lines : List (Except Fault Line)) :
    l.takeLines (lines.map (placedLine g)) = (l.takeLines lines).mapError (Fault.placed g) := by
  induction lines generalizing l with
  | nil => rfl
  | cons line lines ih =>
    rcases line with fault | line
    · rfl
    · have hplaced : line.Placed g ⟨line.tokens.map (Token.placed g), line.stop.placed g⟩ :=
        ⟨rfl, .inl rfl⟩
      simp only [List.map_cons, placedLine, takeLines, l.takeLine_placed hplaced]
      rcases l.takeLine line with fault | l'
      · rfl
      · exact ih l'

end Listing

end PioFrontEnd
