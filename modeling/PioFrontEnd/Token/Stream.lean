import PioFrontEnd.Token.Front

/-!
# The stream of tokens

Tokens are drawn from a source one at a time. Between two draws a `TokenStream` knows the text
that is left, its offset, the line breaks that were passed, and whether anything has been drawn
since the last line break: a line that holds no token leaves no trace, so the line breaks that
follow one another, or begin the source, are passed over.

A stream ends with the token `endOfFile` or with a fault, and after that nothing more is drawn.

* `remaining_lt_of_next?`: every draw brings the stream closer to its end, so `items` collects
  all of them.
-/

namespace PioFrontEnd

/-- The state of a source that tokens are drawn from. -/
structure TokenStream where
  /-- The text that is left. -/
  rest : Text
  /-- The byte offset of that text. -/
  offset : Nat := 0
  /-- The line breaks passed so far. -/
  breaks : LineBreaks := {}
  /-- Whether no token has been drawn since the last line break. -/
  freshLine : Bool := true
  /-- Whether the end of the source or a fault has been drawn. -/
  finished : Bool := false
  deriving DecidableEq, Repr

namespace TokenStream

/-- The stream of a source that nothing has been drawn from. -/
def ofText (source : Text) : TokenStream := { rest := source }

/-- Passes over a gap. -/
def skip (s : TokenStream) (gap rest : Text) : TokenStream :=
  { s with rest := rest, offset := s.offset + Text.byteSize gap }

/-- Passes over a token. A line break is noted by its offset. -/
def advance (s : TokenStream) (kind : TokenKind) (text rest : Text) : TokenStream :=
  { s with
    rest := rest
    offset := s.offset + Text.byteSize text
    breaks := if kind = .endOfLine then s.breaks.push s.offset else s.breaks
    freshLine := kind = .endOfLine }

/-- Passes over nothing, and draws no more. -/
def close (s : TokenStream) : TokenStream := { s with finished := true }

/-- A token that stands at the front of the stream. -/
def tokenHere (s : TokenStream) (kind : TokenKind) (text : Text) : Token :=
  ⟨kind, ⟨s.offset, s.offset + Text.byteSize text⟩, text⟩

/-- Draws the next token or fault, if there is one. -/
def next? (s : TokenStream) : Option (Except Fault Token × TokenStream) :=
  if s.finished then none
  else
    match _h : front s.rest with
    | .ending => some (.ok (s.tokenHere .endOfFile []), s.close)
    | .fault cause => some (.error ⟨cause, s.offset⟩, s.close)
    | .gap text rest => next? (s.skip text rest)
    | .token kind text rest =>
      if kind = .endOfLine ∧ s.freshLine then next? (s.advance kind text rest)
      else some (.ok (s.tokenHere kind text), s.advance kind text rest)
termination_by s.rest.length
decreasing_by
  · exact length_lt_of_front_gap _h
  · exact length_lt_of_front_token _h

/-- The line and column of an offset, as far as line breaks have been passed. -/
def position (s : TokenStream) (offset : Nat) : Position := s.breaks.position offset

/-! ### Drawing everything -/

/-- A bound on the number of draws left. -/
def remaining (s : TokenStream) : Nat := if s.finished then 0 else s.rest.length + 1

/-- Every draw brings the stream closer to its end. -/
theorem remaining_lt_of_next? {s s' : TokenStream} {item : Except Fault Token}
    (h : s.next? = some (item, s')) : s'.remaining < s.remaining := by
  fun_induction next? s with
  | case1 s hs => simp at h
  | case2 s hs =>
    cases h
    simp [remaining, close, hs]
  | case3 s hs =>
    cases h
    simp [remaining, close, hs]
  | case4 s hs text rest hfront ih =>
    have hlt := length_lt_of_front_gap hfront
    have := ih h
    simp only [remaining, skip, hs] at *
    grind
  | case5 s hs kind text rest hfront hfresh ih =>
    have hlt := length_lt_of_front_token hfront
    have := ih h
    simp only [remaining, advance, hs] at *
    grind
  | case6 s hs kind text rest hfront hfresh =>
    have hlt := length_lt_of_front_token hfront
    cases h
    simp only [remaining, advance, hs]
    grind

/-- Everything that can still be drawn, in order. -/
def items (s : TokenStream) : List (Except Fault Token) :=
  match _h : s.next? with
  | none => []
  | some (item, s') => item :: items s'
termination_by s.remaining
decreasing_by exact remaining_lt_of_next? _h

end TokenStream

/-- The tokens of a source, up to the end of it or the first fault. -/
def tokenize (source : Text) : List (Except Fault Token) := (TokenStream.ofText source).items

end PioFrontEnd
