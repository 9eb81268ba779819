import PioFrontEnd.Diagnostic
import PioFrontEnd.Token.Words

/-!
# What stands at the front of a text

Reading tokens is one question, asked again and again: what stands at the front of the text that
is left? The answer is a `Front`: a token, a gap between tokens, the end, or a character or number
that no token can begin with. It depends on the text alone and not on anything read before, so the
stream of tokens only has to keep count of offsets and lines.

A gap is a blank, a comment (a semicolon or two slashes, up to the end of the line), or a dot with
letters and underscores that is no known directive.

* `divides_front`: a token or a gap is a nonempty piece cut off the front, and nothing is lost.
-/

namespace PioFrontEnd

/-- What stands at the front of a text. -/
inductive Front where
  /-- Nothing; the text is empty. -/
  | ending
  /-- A token of this kind, and the text after it. -/
  | token (kind : TokenKind) (text rest : Text)
  /-- A piece that stands between tokens, and the text after it. -/
  | gap (text rest : Text)
  /-- Something that is no token. -/
  | fault (cause : Cause)
  deriving DecidableEq, Repr

namespace Front

/-- The comment that a text begins with. Its line break does not belong to it. -/
def ofComment (s : Text) : Front :=
  .gap (s.takeWhile (· ≠ '\n')) (s.dropWhile (· ≠ '\n'))

/-- The symbol or label that a text begins with. -/
def ofName (s : Text) : Front :=
  match s.dropWhile isSymbolPart with
  | ':' :: rest => .token .label (s.takeWhile isSymbolPart ++ [':']) rest
  | rest => .token .symbol (s.takeWhile isSymbolPart) rest

/-- The directive that begins with a dot before `s`. A name that is not known makes a gap. -/
def ofDirective (s : Text) : Front :=
  let name := s.takeWhile isSymbolStart
  let rest := s.dropWhile isSymbolStart
  match Directive.ofName? name with
  | some d => .token (.directive d) ('.' :: name) rest
  | none => .gap ('.' :: name) rest

/-- The number that a text begins with. It may not run into a letter or an underscore. -/
def ofNumber (s : Text) : Front :=
  let rest := s.dropWhile Char.isDigit
  if rest.head?.any isSymbolStart then .fault .malformedNumber
  else .token .number (s.takeWhile Char.isDigit) rest

/-- The mark that a text begins with. -/
def ofMark (c : Char) (rest : Text) : Front :=
  match Mark.ofChar? c with
  | some m => .token (.mark m) [c] rest
  | none => .fault (.unexpectedCharacter c)

/-- What a text begins with when that is no keyword. -/
def ofCharacter (c : Char) (rest : Text) : Front :=
  if c = '\n' then .token .endOfLine [c] rest
  else if c = ';' ∨ (c = '/' ∧ rest.head? = some '/') then ofComment (c :: rest)
  else if isBlank c then .gap [c] rest
  else if isSymbolStart c then ofName (c :: rest)
  else if c = '.' then ofDirective rest
  else if c.isDigit then ofNumber (c :: rest)
  else ofMark c rest

end Front

/-- What stands at the front of a text. Keywords are tried before everything else. -/
def front (s : Text) : Front :=
  match Keyword.leading? s with
  | some (word, kind) => .token kind (s.take word.length) (s.drop word.length)
  | none =>
    match s with
    | [] => .ending
    | c :: rest => .ofCharacter c rest

/-! ### A front is cut off the text -/

namespace Front

/-- The pieces of a front make up the text, and the first piece is not empty. -/
def Divides : Front → Text → Prop
  | .token _ text rest, s | .gap text rest, s => text ++ rest = s ∧ text ≠ []
  | .ending, _ | .fault _, _ => True

/-- A comment is cut off the front, and is not empty. -/
theorem divides_ofComment {c : Char} {rest : Text} (hc : c ≠ '\n') :
    (ofComment (c :: rest)).Divides (c :: rest) :=
  ⟨List.takeWhile_append_dropWhile, by simp [hc]⟩

/-- A symbol or label is cut off the front, and is not empty. -/
theorem divides_ofName {c : Char} {rest : Text} (hc : isSymbolPart c = true) :
    (ofName (c :: rest)).Divides (c :: rest) := by
  have happ := List.takeWhile_append_dropWhile (p := isSymbolPart) (l := c :: rest)
  unfold ofName
  split
  · rename_i rest' h
    rw [h] at happ
    exact ⟨by rw [List.append_assoc]; exact happ, by simp⟩
  · exact ⟨happ, by simp [hc]⟩

/-- A directive, known or not, is cut off the front together with its dot. -/
theorem divides_ofDirective (rest : Text) : (ofDirective rest).Divides ('.' :: rest) := by
  have happ := List.takeWhile_append_dropWhile (p := isSymbolStart) (l := rest)
  unfold ofDirective
  dsimp only
  split <;> exact ⟨by rw [List.cons_append, happ], by simp⟩

/-- A number is cut off the front, and is not empty. -/
theorem divides_ofNumber {c : Char} {rest : Text} (hc : c.isDigit = true) :
    (ofNumber (c :: rest)).Divides (c :: rest) := by
  unfold ofNumber
  dsimp only
  split
  · trivial
  · exact ⟨List.takeWhile_append_dropWhile, by simp [hc]⟩

/-- A mark is cut off the front. -/
theorem divides_ofMark (c : Char) (rest : Text) : (ofMark c rest).Divides (c :: rest) := by
  unfold ofMark
  split
  · exact ⟨rfl, by simp⟩
  · trivial

/-- Whatever begins with a character is cut off the front, and is not empty. -/
theorem divides_ofCharacter (c : Char) (rest : Text) :
    (ofCharacter c rest).Divides (c :: rest) := by
  unfold ofCharacter
  split
  · exact ⟨rfl, by simp⟩
  · rename_i hline
    split
    · exact divides_ofComment hline
    · split
      · exact ⟨rfl, by simp⟩
      · split
        · rename_i hstart
          exact divides_ofName (by simp [isSymbolPart, hstart])
        · split
          · rename_i hdot
            exact hdot ▸ divides_ofDirective rest
          · split
            · rename_i hdigit
              exact divides_ofNumber hdigit
            · exact divides_ofMark c rest

end Front

/-- A keyword at the front of a text is not empty and is spelled there in some case. -/
theorem Keyword.length_pos_of_leading? {s word : Text} {kind : TokenKind}
    (h : Keyword.leading? s = some (word, kind)) :
    0 < word.length ∧ (s.take word.length).map Char.toLower = word := by
  unfold Keyword.leading? at h
  have hmem := List.mem_of_find?_eq_some h
  have hstands := List.find?_some h
  have hpos : ∀ entry ∈ Keyword.table, 0 < entry.1.length := by decide
  refine ⟨hpos _ hmem, ?_⟩
  simp only [Keyword.standsAt, Bool.and_eq_true, decide_eq_true_eq] at hstands
  exact hstands.1

/-- A token or a gap is a nonempty piece cut off the front of the text. -/
theorem divides_front (s : Text) : (front s).Divides s := by
  unfold front
  split
  · rename_i word kind h
    obtain ⟨hpos, hword⟩ := Keyword.length_pos_of_leading? h
    refine ⟨List.take_append_drop _ _, fun hnil => ?_⟩
    rw [hnil] at hword
    simp [← hword] at hpos
  · cases s with
    | nil => trivial
    | cons c rest => exact Front.divides_ofCharacter c rest

/-- What is left after a token is shorter. -/
theorem length_lt_of_front_token {s text rest : Text} {kind : TokenKind}
    (h : front s = .token kind text rest) : rest.length < s.length := by
  have hdiv := divides_front s
  rw [h] at hdiv
  rw [← hdiv.1, List.length_append]
  have := List.length_pos_iff.2 hdiv.2
  omega

/-- What is left after a gap is shorter. -/
theorem length_lt_of_front_gap {s text rest : Text} (h : front s = .gap text rest) :
    rest.length < s.length := by
  have hdiv := divides_front s
  rw [h] at hdiv
  rw [← hdiv.1, List.length_append]
  have := List.length_pos_iff.2 hdiv.2
  omega

end PioFrontEnd
