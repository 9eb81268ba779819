import PioFrontEnd.Token.Stream

/-!
# Logical lines

A statement stands on a line of its own. A `Line` holds the tokens of one physical line that has
any, together with the end of line or end of file that stopped it. It is read from left to right,
and reading past the last token yields the stopping token again and again, so that whatever is
missing can be reported where the line ends.
-/

namespace PioFrontEnd

/-- The tokens of a line that have not been read, and the token that ends it. -/
structure Line where
  /-- The tokens that have not been read. -/
  tokens : List Token
  /-- The end of line or end of file. -/
  stop : Token
  deriving DecidableEq, Repr

namespace Line

/-- The token to be read next. -/
def peek (line : Line) : Token := line.tokens.headD line.stop

/-- The line after that token has been read. -/
def rest (line : Line) : Line := { line with tokens := line.tokens.tail }

/-- Whether all tokens have been read. -/
def isEmpty (line : Line) : Bool := line.tokens.isEmpty

/-- Reads the next token if it is of this kind. -/
def read? (line : Line) (kind : TokenKind) : Option (Token × Line) :=
  if line.peek.kind = kind then some (line.peek, line.rest) else none

/-- Accepts a line of which nothing is left. -/
def finish (line : Line) : Except Fault Unit :=
  if line.isEmpty then .ok () else .error ⟨.trailingToken, line.peek.span.start⟩

end Line

/-- What stops the tokens of a line. -/
inductive LineEnd where
  /-- The end of the line or of the source. -/
  | token (stop : Token)
  /-- A fault. -/
  | fault (f : Fault)
  /-- Nothing, because nothing was left to draw. -/
  | exhausted
  deriving DecidableEq, Repr

namespace TokenStream

/-- Draws the tokens of a line, what stops them, and the stream after that. -/
def gather (s : TokenStream) : List Token × LineEnd × TokenStream :=
  match _h : s.next? with
  | none => ([], .exhausted, s)
  | some (.error fault, s') => ([], .fault fault, s')
  | some (.ok token, s') =>
    match token.kind with
    | .endOfLine | .endOfFile => ([], .token token, s')
    | _ =>
      let (tokens, lineEnd, s'') := gather s'
      (token :: tokens, lineEnd, s'')
termination_by s.remaining
decreasing_by exact remaining_lt_of_next? _h

/-- Draws the next line, if there is one. The end of the source is no line of its own, and a fault
loses the tokens before it. -/
def nextLine (s : TokenStream) : Option (Except Fault Line) × TokenStream :=
  match s.gather with
  | (_, .exhausted, s') => (none, s')
  | (_, .fault fault, s') => (some (.error fault), s')
  | (tokens, .token stop, s') =>
    if tokens.isEmpty ∧ stop.kind = .endOfFile then (none, s')
    else (some (.ok ⟨tokens, stop⟩), s')

/-- Whatever stops a line brings the stream closer to its end. -/
theorem remaining_lt_of_gather {s s' : TokenStream} {tokens : List Token} {lineEnd : LineEnd}
    (h : s.gather = (tokens, lineEnd, s')) (hend : lineEnd ≠ .exhausted) :
    s'.remaining < s.remaining := by
  fun_induction gather s generalizing tokens with
  | case1 s =>
    cases h
    exact absurd rfl hend
  | case2 s fault s₁ hnext =>
    cases h
    exact remaining_lt_of_next? hnext
  | case3 s token s₁ hnext =>
    cases h
    exact remaining_lt_of_next? hnext
  | case4 s token s₁ hnext =>
    cases h
    exact remaining_lt_of_next? hnext
  | case5 s token s₁ hnext tokens₂ end₂ s₂ hgather _ _ ih =>
    cases h
    exact Nat.lt_trans (ih hgather) (remaining_lt_of_next? hnext)

/-- A line brings the stream closer to its end. -/
theorem remaining_lt_of_nextLine {s s' : TokenStream} {line : Except Fault Line}
    (h : s.nextLine = (some line, s')) : s'.remaining < s.remaining := by
  unfold nextLine at h
  split at h
  · simp at h
  · rename_i hgather
    cases h
    exact remaining_lt_of_gather hgather (by simp)
  · rename_i hgather
    split at h
    · simp at h
    · cases h
      exact remaining_lt_of_gather hgather (by simp)

end TokenStream

end PioFrontEnd
