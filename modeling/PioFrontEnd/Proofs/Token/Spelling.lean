import PioFrontEnd.Proofs.Token.Names

/-!
# How tokens are spelled

What stands at the front of a text can be said without the lexer (`Front.Spelled`): a token of a
kind is spelled in a certain way and has certain characters after it (`TokenKind.Stands`), a gap is
a blank, a comment or an unknown directive (`Piece`), a malformed number is a run of digits and then
a letter or an underscore, and an unexpected character begins nothing (`BeginsNothing`). Every rule
about the character that comes next makes a token as long as it can be.

* `front_eq_iff`: the lexer finds at the front of a text what is spelled there, and nothing else.
  One direction goes through the branches of the lexer and the other through the ways of spelling,
  so no two of these overlap.
-/

namespace PioFrontEnd

/-! ### What each kind of token is -/

/-- Whether a text is a token of this kind where this character, or nothing, comes after it. -/
def TokenKind.Stands : TokenKind → Text → Option Char → Prop
  | .endOfFile, text, next => text = [] ∧ next = none
  | .endOfLine, text, _ => text = ['\n']
  | .number, text, next => text ≠ [] ∧ (∀ c ∈ text, c.isDigit = true) ∧
      ∀ c ∈ next, c.isDigit = false ∧ isSymbolStart c = false
  | .symbol, text, next => IsName text ∧ (∀ c ∈ next, isSymbolPart c = false ∧ c ≠ ':') ∧
      ¬ (IsKeyword text ∧ ∀ c ∈ next, isWordEnd c = true)
  | .label, text, _ => ∃ name, IsName name ∧ text = name ++ [':']
  | .directive d, text, next => text = '.' :: d.name ∧ ∀ c ∈ next, isSymbolStart c = false
  | .instruction i, text, next => (text.map Char.toLower, .instruction i) ∈ Keyword.table ∧
      ∀ c ∈ next, isWordEnd c = true
  | .qualifier q, text, next => (text.map Char.toLower, .qualifier q) ∈ Keyword.table ∧
      ∀ c ∈ next, isWordEnd c = true
  | .mark m, text, next => text = [m.char] ∧ (m = .slash → next ≠ some '/')

/-- Whether the tokens of a kind are keywords. -/
def TokenKind.isWord : TokenKind → Bool
  | .instruction _ | .qualifier _ => true
  | _ => false

/-- Every kind of token in the table of keywords is that of a keyword. -/
theorem Keyword.isWord_of_mem {entry : Text × TokenKind} (h : entry ∈ table) :
    entry.2.isWord = true := by
  have htable : ∀ entry ∈ table, entry.2.isWord = true := by decide
  exact htable entry h

/-- A token of the kind of a keyword is a keyword that ends where one may end. -/
theorem TokenKind.stands_iff_of_isWord {kind : TokenKind} (h : kind.isWord = true) {text : Text}
    {next : Option Char} : kind.Stands text next ↔
      (text.map Char.toLower, kind) ∈ Keyword.table ∧ ∀ c ∈ next, isWordEnd c = true := by
  cases kind with
  | instruction i => rfl
  | qualifier q => rfl
  | _ => cases h

/-! ### What else stands at the front of a text -/

/-- Whether a piece of text may be passed over before this rest. Line breaks may be passed over
where no token has come since the last one. -/
inductive Piece (fresh : Bool) : Text → Text → Prop where
  /-- A blank. -/
  | blank {c : Char} {rest : Text} (hc : isBlank c = true) : Piece fresh [c] rest
  /-- A comment up to the end of its line, which does not belong to it. -/
  | comment {text rest : Text} (hbegin : [';'] <+: text ∨ ['/', '/'] <+: text)
    (hline : '\n' ∉ text) (hrest : ∀ c ∈ rest.head?, c = '\n') : Piece fresh text rest
  /-- A dot with as many letters and underscores as there are, if that is no known directive. -/
  | unknown {name rest : Text} (hname : ∀ c ∈ name, isSymbolStart c = true)
    (hrest : ∀ c ∈ rest.head?, isSymbolStart c = false)
    (hunknown : Directive.ofName? name = none) : Piece fresh ('.' :: name) rest
  /-- The line break of a line without tokens. -/
  | lineBreak {rest : Text} (hfresh : fresh = true) : Piece fresh ['\n'] rest

/-- Only the first character of the rest matters to a piece. -/
theorem Piece.of_head?_eq {fresh : Bool} {text rest rest' : Text} (h : Piece fresh text rest)
    (hhead : rest'.head? = rest.head?) : Piece fresh text rest' := by
  cases h with
  | blank hc => exact .blank hc
  | comment hbegin hline hrest => exact .comment hbegin hline (hhead ▸ hrest)
  | unknown hname hrest hunknown => exact .unknown hname (hhead ▸ hrest) hunknown
  | lineBreak hfresh => exact .lineBreak hfresh

/-- Whether no token and no gap begins with this character. -/
def BeginsNothing (c : Char) : Prop :=
  c ≠ '\n' ∧ c ≠ ';' ∧ isBlank c = false ∧ isSymbolStart c = false ∧ c ≠ '.' ∧ c.isDigit = false ∧
    ∀ m : Mark, c ≠ m.char

/-- What a comment takes from a text may be passed over. -/
theorem piece_ofComment {fresh : Bool} {c : Char} {s : Text}
    (h : c = ';' ∨ c = '/' ∧ s.head? = some '/') :
    Piece fresh ((c :: s).takeWhile (· ≠ '\n')) ((c :: s).dropWhile (· ≠ '\n')) := by
  refine .comment ?_ (not_mem_takeWhile (by decide) _) fun d hd => ?_
  · rcases h with rfl | ⟨rfl, hslash⟩
    · exact .inl ⟨_, rfl⟩
    · obtain ⟨s', rfl⟩ := List.head?_eq_some_iff.1 hslash
      exact .inr ⟨_, rfl⟩
  · simpa using forall_head?_dropWhile _ d hd

namespace Front

/-- Whether a front is what a text begins with, said without the lexer. -/
def Spelled : Front → Text → Prop
  | .ending, s => s = []
  | .token kind text rest, s => s = text ++ rest ∧ kind ≠ .endOfFile ∧ kind.Stands text rest.head?
  | .gap text rest, s => s = text ++ rest ∧ Piece false text rest
  | .fault .malformedNumber, s => ∃ digits c more, s = digits ++ c :: more ∧ digits ≠ [] ∧
      (∀ d ∈ digits, d.isDigit = true) ∧ isSymbolStart c = true
  | .fault (.unexpectedCharacter c), s => ∃ more, s = c :: more ∧ BeginsNothing c
  | .fault _, _ => False

/-- A name that is no keyword is spelled as a symbol, or as a label. -/
theorem spelled_ofName {c : Char} {s : Text} (hc : isSymbolStart c = true)
    (hnone : Keyword.leading? (c :: s) = none) : (ofName (c :: s)).Spelled (c :: s) := by
  have hsplit := List.takeWhile_append_dropWhile (p := isSymbolPart) (l := c :: s)
  have hname : IsName ((c :: s).takeWhile isSymbolPart) := by
    rw [List.takeWhile_cons, if_pos (isSymbolPart_of_isSymbolStart hc)]
    exact ⟨hc, fun d hd => List.all_eq_true.1 List.all_takeWhile d hd⟩
  unfold ofName
  split
  · rename_i rest hrest
    rw [hrest] at hsplit
    exact ⟨by rw [List.append_assoc]; exact hsplit.symm, by simp, _, hname, rfl⟩
  · rename_i hcolon
    refine ⟨hsplit.symm, by simp, hname, fun d hd => ⟨forall_head?_dropWhile _ d hd, ?_⟩, ?_⟩
    · rintro rfl
      obtain ⟨rest, hrest⟩ := List.head?_eq_some_iff.1 hd
      exact hcolon rest hrest
    · -- spelled like a keyword and ending like one, it would be one
      rintro ⟨hkey, hend⟩
      obtain ⟨⟨word, kind⟩, hmem, hword⟩ := List.mem_map.1 hkey
      rw [Keyword.leading?_eq_some_iff.2 ⟨hmem, hword.symm, hend⟩] at hnone
      cases hnone

/-- What begins with a dot is spelled as a directive, or may be passed over. -/
theorem spelled_ofDirective (s : Text) : (ofDirective s).Spelled ('.' :: s) := by
  have hsplit := List.takeWhile_append_dropWhile (p := isSymbolStart) (l := s)
  unfold ofDirective
  dsimp only
  split
  · rename_i d hd
    refine ⟨by rw [List.cons_append, hsplit], by simp, ?_, forall_head?_dropWhile s⟩
    rw [Directive.ofName?_eq_some.1 hd]
  · rename_i hunknown
    exact ⟨by rw [List.cons_append, hsplit], .unknown
      (fun c hc => List.all_eq_true.1 List.all_takeWhile c hc) (forall_head?_dropWhile s) hunknown⟩

/-- What begins with a digit is spelled as a number, or is a malformed one. -/
theorem spelled_ofNumber {c : Char} {s : Text} (hc : c.isDigit = true) :
    (ofNumber (c :: s)).Spelled (c :: s) := by
  have hsplit := List.takeWhile_append_dropWhile (p := Char.isDigit) (l := c :: s)
  have hne : (c :: s).takeWhile Char.isDigit ≠ [] := by simp [hc]
  have hdigits : ∀ d ∈ (c :: s).takeWhile Char.isDigit, d.isDigit = true :=
    fun d hd => List.all_eq_true.1 List.all_takeWhile d hd
  unfold ofNumber
  dsimp only
  split
  · rename_i hany
    obtain ⟨d, hd, hstart⟩ := (Option.any_eq_true _ _).1 hany
    obtain ⟨more, hmore⟩ := List.head?_eq_some_iff.1 hd
    rw [hmore] at hsplit
    exact ⟨_, d, more, hsplit.symm, hne, hdigits, hstart⟩
  · rename_i hany
    refine ⟨hsplit.symm, by simp, hne, hdigits, fun d hd => ⟨forall_head?_dropWhile _ d hd, ?_⟩⟩
    rw [Option.mem_def.1 hd] at hany
    simpa using hany

/-- A character that begins nothing else is spelled as a mark, or begins nothing at all. -/
theorem spelled_ofMark {c : Char} {s : Text}
    (hc : c ≠ '\n' ∧ c ≠ ';' ∧ isBlank c = false ∧ isSymbolStart c = false ∧ c ≠ '.' ∧
      c.isDigit = false) (hslash : c = '/' → s.head? ≠ some '/') :
    (ofMark c s).Spelled (c :: s) := by
  unfold ofMark
  split
  · rename_i m hm
    rw [Mark.ofChar?_eq_some.1 hm] at hslash ⊢
    exact ⟨rfl, by simp, rfl, fun h => hslash (by rw [h]; rfl)⟩
  · rename_i hnone
    obtain ⟨hfeed, hsemicolon, hblank, hstart, hdot, hdigit⟩ := hc
    refine ⟨s, rfl, hfeed, hsemicolon, hblank, hstart, hdot, hdigit, fun m hm => ?_⟩
    rw [Mark.ofChar?_eq_some.2 hm] at hnone
    cases hnone

/-- What the lexer makes of the first character is what stands there, if no keyword does. -/
theorem spelled_ofCharacter {c : Char} {s : Text} (hnone : Keyword.leading? (c :: s) = none) :
    (ofCharacter c s).Spelled (c :: s) := by
  unfold ofCharacter
  split
  · rename_i hfeed
    exact ⟨rfl, by simp, by rw [hfeed]; rfl⟩
  · rename_i hfeed
    split
    · rename_i hbegin
      exact ⟨List.takeWhile_append_dropWhile.symm, piece_ofComment hbegin⟩
    · rename_i hbegin
      split
      · rename_i hblank
        exact ⟨rfl, .blank hblank⟩
      · rename_i hblank
        split
        · rename_i hstart
          exact spelled_ofName hstart hnone
        · rename_i hstart
          split
          · rename_i hdot
            exact hdot ▸ spelled_ofDirective s
          · rename_i hdot
            split
            · rename_i hdigit
              exact spelled_ofNumber hdigit
            · rename_i hdigit
              refine spelled_ofMark ⟨hfeed, fun h => hbegin (.inl h), by simpa using hblank,
                by simpa using hstart, hdot, by simpa using hdigit⟩ fun h hs => hbegin (.inr ⟨h, hs⟩)

end Front

/-- What the lexer finds at the front of a text is what stands there. -/
theorem spelled_front (s : Text) : (front s).Spelled s := by
  unfold front
  split
  · rename_i word kind hleading
    obtain ⟨hmem, hword, hend⟩ := Keyword.leading?_eq_some_iff.1 hleading
    have hlength : word.length = (s.takeWhile isSymbolPart).length := by
      rw [← hword, List.length_map]
    obtain ⟨htake, hdrop⟩ := take_length_takeWhile hlength
    rw [htake, hdrop]
    have hkind := Keyword.isWord_of_mem hmem
    refine ⟨List.takeWhile_append_dropWhile.symm, ?_,
      (TokenKind.stands_iff_of_isWord hkind).2 ⟨?_, hend⟩⟩
    · rintro rfl
      cases hkind
    · rwa [hword]
  · rename_i hnone
    cases s with
    | nil => rfl
    | cons c s => exact Front.spelled_ofCharacter hnone

/-! ### Nothing else can stand there -/

/-- Where no keyword stands, the first character decides what is at the front. -/
theorem front_of_leading?_eq_none {c : Char} {rest : Text}
    (h : Keyword.leading? (c :: rest) = none) : front (c :: rest) = .ofCharacter c rest := by
  rw [front, h]

/-- A line feed is the token that ends a line. -/
theorem front_lineBreak (rest : Text) : front ('\n' :: rest) = .token .endOfLine ['\n'] rest := by
  rw [front_of_leading?_eq_none (Keyword.leading?_of_not_isSymbolStart (by decide) rest)]
  rfl

namespace Front

/-- A character of a sort that has no line feed, no blank, no semicolon and no slash in it ends no
line and begins no comment and no gap of blanks. -/
theorem ofCharacter_of_pos {p : Char → Bool}
    (hp : ['\n', ';', '/', ' ', '\t', '\r'].any p = false) {c : Char} (hc : p c = true) (s : Text) :
    ofCharacter c s =
      if isSymbolStart c then ofName (c :: s) else if c = '.' then ofDirective s
      else if c.isDigit then ofNumber (c :: s) else ofMark c s := by
  have hne : ∀ d ∈ ['\n', ';', '/', ' ', '\t', '\r'], c ≠ d := by
    rintro d hd rfl
    exact List.any_eq_false.1 hp c hd hc
  have hbegin : ¬ (c = ';' ∨ c = '/' ∧ s.head? = some '/') := by
    rintro (h | ⟨h, -⟩)
    · exact hne _ (by decide) h
    · exact hne _ (by decide) h
  have hblank : ¬ isBlank c = true := by
    simp only [isBlank, Bool.or_eq_true, decide_eq_true_eq]
    rintro ((h | h) | h)
    all_goals exact hne _ (by decide) h
  rw [ofCharacter, if_neg (hne _ (by decide)), if_neg hbegin, if_neg hblank]

/-- A letter or an underscore begins a name. -/
theorem ofCharacter_of_isSymbolStart {c : Char} (hc : isSymbolStart c = true) (s : Text) :
    ofCharacter c s = ofName (c :: s) := by
  rw [ofCharacter_of_pos (p := isSymbolStart) (by decide) hc, if_pos hc]

/-- A digit begins a number. -/
theorem ofCharacter_of_isDigit {c : Char} (hc : c.isDigit = true) (s : Text) :
    ofCharacter c s = ofNumber (c :: s) := by
  have hstart : ¬ isSymbolStart c = true := by
    rw [not_isSymbolStart_of_isDigit hc]
    decide
  have hdot : c ≠ '.' := by
    rintro rfl
    cases hc
  rw [ofCharacter_of_pos (p := Char.isDigit) (by decide) hc, if_neg hstart, if_neg hdot,
    if_pos hc]

/-- A name that is no keyword where it stands is a symbol, or a label if a colon follows. -/
theorem front_of_isName {n rest : Text} (hn : IsName n)
    (hrest : ∀ c ∈ rest.head?, isSymbolPart c = false)
    (hword : ¬ (IsKeyword n ∧ ∀ c ∈ rest.head?, isWordEnd c = true)) :
    front (n ++ rest) = ofName (n ++ rest) := by
  obtain ⟨htake, hdrop⟩ := takeWhile_append_of_boundary hn.isSymbolPart hrest
  have hnone : Keyword.leading? (n ++ rest) = none := by
    rcases hleading : Keyword.leading? (n ++ rest) with _ | ⟨word, kind⟩
    · rfl
    · obtain ⟨hmem, hspelled, hend⟩ := Keyword.leading?_eq_some_iff.1 hleading
      rw [htake] at hspelled
      rw [hdrop] at hend
      exact absurd ⟨List.mem_map.2 ⟨_, hmem, hspelled.symm⟩, hend⟩ hword
  cases n with
  | nil => exact hn.elim
  | cons c n =>
    rw [List.cons_append] at hnone ⊢
    rw [front_of_leading?_eq_none hnone, ofCharacter_of_isSymbolStart hn.1]

/-- A text that begins with digits has a number at its front. -/
theorem front_of_digits {digits rest : Text} (hne : digits ≠ [])
    (hdigits : ∀ c ∈ digits, c.isDigit = true) :
    front (digits ++ rest) = ofNumber (digits ++ rest) := by
  obtain ⟨c, digits, rfl⟩ := List.exists_cons_of_ne_nil hne
  have hc := hdigits c (by simp)
  have hnone := Keyword.leading?_of_not_isSymbolStart (not_isSymbolStart_of_isDigit hc)
    (digits ++ rest)
  rw [List.cons_append, front_of_leading?_eq_none hnone, ofCharacter_of_isDigit hc]

/-- A text that begins with a dot has a directive at its front. -/
theorem front_dot (s : Text) : front ('.' :: s) = ofDirective s := by
  rw [front_of_leading?_eq_none (Keyword.leading?_of_not_isSymbolStart (by decide) s)]
  rfl

end Front

/-- A mark is a token, unless it is a slash with another one after it. -/
theorem front_mark (m : Mark) {rest : Text} (hslash : m = .slash → rest.head? ≠ some '/') :
    front (m.char :: rest) = .token (.mark m) [m.char] rest := by
  have hstart : isSymbolStart m.char = false := by cases m <;> decide
  rw [front_of_leading?_eq_none (Keyword.leading?_of_not_isSymbolStart hstart rest)]
  cases m with
  | slash =>
    have hcomment : ¬ ('/' = ';' ∨ ('/' = '/' ∧ rest.head? = some '/')) := by
      rintro (hsemicolon | ⟨-, hhead⟩)
      · exact absurd hsemicolon (by decide)
      · exact hslash rfl hhead
    show Front.ofCharacter '/' rest = _
    rw [Front.ofCharacter, if_neg (by decide), if_neg hcomment]
    rfl
  | _ => rfl

namespace TokenKind.Stands

variable {text rest : Text}

/-- A keyword that ends where one may end is found. -/
theorem front_eq_keyword {kind : TokenKind} (hword : kind.isWord = true)
    (h : kind.Stands text rest.head?) : front (text ++ rest) = .token kind text rest := by
  obtain ⟨hmem, hend⟩ := (stands_iff_of_isWord hword).1 h
  have hname : IsName text := Keyword.isName_of_isKeyword (List.mem_map_of_mem hmem)
  obtain ⟨htake, hdrop⟩ := takeWhile_append_of_boundary hname.isSymbolPart
    fun c hc => Keyword.not_isSymbolPart_of_isWordEnd (hend c hc)
  have hleading : Keyword.leading? (text ++ rest) = some (text.map Char.toLower, kind) := by
    refine Keyword.leading?_eq_some_iff.2 ⟨hmem, by rw [htake], ?_⟩
    rwa [hdrop]
  unfold front
  rw [hleading]
  simp only [List.length_map, List.take_left, List.drop_left]

/-- A symbol is found with all its characters, if it is no keyword where it stands. -/
theorem front_eq_symbol (h : TokenKind.symbol.Stands text rest.head?) :
    front (text ++ rest) = .token .symbol text rest := by
  obtain ⟨hname, hnext, hword⟩ := h
  obtain ⟨htake, hdrop⟩ := takeWhile_append_of_boundary hname.isSymbolPart
    fun c hc => (hnext c hc).1
  rw [Front.front_of_isName hname (fun c hc => (hnext c hc).1) hword, Front.ofName, htake, hdrop]
  split
  · exact absurd rfl (hnext ':' rfl).2
  · rfl

/-- A name with a colon after it is found as a label, also one that is spelled like a keyword. -/
theorem front_eq_label {n : Text} (hn : IsName n) :
    front (n ++ [':'] ++ rest) = .token .label (n ++ [':']) rest := by
  have hcolon : ∀ c ∈ (':' :: rest).head?, isSymbolPart c = false := fun c hc => by
    cases hc
    decide
  have hword : ¬ (IsKeyword n ∧ ∀ c ∈ (':' :: rest).head?, isWordEnd c = true) := fun h =>
    absurd (h.2 ':' rfl) (by decide)
  obtain ⟨htake, hdrop⟩ := takeWhile_append_of_boundary hn.isSymbolPart hcolon
  rw [List.append_assoc, List.singleton_append, Front.front_of_isName hn hcolon hword,
    Front.ofName, htake, hdrop]
  rfl

/-- Digits are found as a number, if no digit, no letter and no underscore comes after them. -/
theorem front_eq_number (h : TokenKind.number.Stands text rest.head?) :
    front (text ++ rest) = .token .number text rest := by
  obtain ⟨hne, hdigits, hnext⟩ := h
  obtain ⟨htake, hdrop⟩ := takeWhile_append_of_boundary hdigits fun c hc => (hnext c hc).1
  have hany : rest.head?.any isSymbolStart = false := by
    cases rest with
    | nil => rfl
    | cons c rest => exact (hnext c rfl).2
  rw [Front.front_of_digits hne hdigits, Front.ofNumber, htake, hdrop]
  simp only [hany, Bool.false_eq_true, if_false]

/-- A directive is found, if no letter and no underscore comes after it. -/
theorem front_eq_directive {d : Directive} (hnext : ∀ c ∈ rest.head?, isSymbolStart c = false) :
    front ('.' :: d.name ++ rest) = .token (.directive d) ('.' :: d.name) rest := by
  have hletters : d.name.all isSymbolStart = true := by cases d <;> decide
  obtain ⟨htake, hdrop⟩ := takeWhile_append_of_boundary (List.all_eq_true.1 hletters) hnext
  rw [List.cons_append, Front.front_dot, Front.ofDirective, htake, hdrop,
    Directive.ofName?_eq_some.2 rfl]

/-- A token that stands before a text is what stands at the front there. -/
theorem front_eq {kind : TokenKind} (hkind : kind ≠ .endOfFile)
    (h : kind.Stands text rest.head?) : front (text ++ rest) = .token kind text rest := by
  cases kind with
  | endOfFile => exact absurd rfl hkind
  | endOfLine =>
    obtain rfl : text = ['\n'] := h
    exact front_lineBreak rest
  | number => exact front_eq_number h
  | symbol => exact front_eq_symbol h
  | label =>
    obtain ⟨n, hn, rfl⟩ := h
    exact front_eq_label hn
  | directive d =>
    obtain ⟨rfl, hnext⟩ := h
    exact front_eq_directive hnext
  | instruction i => exact front_eq_keyword rfl h
  | qualifier q => exact front_eq_keyword rfl h
  | mark m =>
    obtain ⟨rfl, hnext⟩ := h
    exact front_mark m hnext

end TokenKind.Stands

/-- A blank is a gap. -/
theorem front_of_isBlank {c : Char} (hc : isBlank c = true) (rest : Text) :
    front (c :: rest) = .gap [c] rest := by
  have hstart : isSymbolStart c = false := by
    simp only [isBlank, Bool.or_eq_true, decide_eq_true_eq] at hc
    rcases hc with (rfl | rfl) | rfl <;> decide
  rw [front_of_leading?_eq_none (Keyword.leading?_of_not_isSymbolStart hstart rest)]
  simp only [isBlank, Bool.or_eq_true, decide_eq_true_eq] at hc
  rcases hc with (rfl | rfl) | rfl <;> rfl

/-- A semicolon begins a comment, and so do two slashes. -/
theorem front_of_comment {c : Char} {s : Text} (h : c = ';' ∨ c = '/' ∧ s.head? = some '/') :
    front (c :: s) = .ofComment (c :: s) := by
  have hc : c ≠ '\n' ∧ isSymbolStart c = false := by
    rcases h with rfl | ⟨rfl, -⟩ <;> decide
  rw [front_of_leading?_eq_none (Keyword.leading?_of_not_isSymbolStart hc.2 s), Front.ofCharacter,
    if_neg hc.1, if_pos h]

/-- A piece that may be passed over, if it is no line break, is a gap. -/
theorem Piece.front_eq {text rest : Text} (h : Piece false text rest) :
    front (text ++ rest) = .gap text rest := by
  cases h with
  | blank hc => exact front_of_isBlank hc rest
  | comment hbegin hline hrest =>
    have hkeep : ∀ c ∈ text, decide (c ≠ '\n') = true :=
      fun c hc => decide_eq_true fun heq => hline (heq ▸ hc)
    obtain ⟨htake, hdrop⟩ := takeWhile_append_of_boundary hkeep
      fun c hc => decide_eq_false fun hne => hne (hrest c hc)
    have hcomment : front (text ++ rest) = .ofComment (text ++ rest) := by
      rcases hbegin with ⟨t, rfl⟩ | ⟨t, rfl⟩
      · exact front_of_comment (.inl rfl)
      · exact front_of_comment (.inr ⟨rfl, rfl⟩)
    rw [hcomment, Front.ofComment, htake, hdrop]
  | @unknown name _ hname hrest hunknown =>
    obtain ⟨htake, hdrop⟩ := takeWhile_append_of_boundary hname hrest
    rw [List.cons_append, Front.front_dot, Front.ofDirective, htake, hdrop, hunknown]
  | lineBreak hfresh => cases hfresh

/-- Digits with a letter or an underscore after them are a malformed number. -/
theorem front_of_malformedNumber {digits more : Text} {c : Char} (hne : digits ≠ [])
    (hdigits : ∀ d ∈ digits, d.isDigit = true) (hc : isSymbolStart c = true) :
    front (digits ++ c :: more) = .fault .malformedNumber := by
  have hstop : ∀ d ∈ (c :: more).head?, d.isDigit = false := by
    intro d hd
    cases hd
    rw [Bool.eq_false_iff]
    intro hdigit
    rw [not_isSymbolStart_of_isDigit hdigit] at hc
    cases hc
  obtain ⟨-, hdrop⟩ := takeWhile_append_of_boundary hdigits hstop
  rw [Front.front_of_digits hne hdigits, Front.ofNumber, hdrop]
  exact if_pos hc

/-- A character that begins nothing is unexpected. -/
theorem front_of_beginsNothing {c : Char} (hc : BeginsNothing c) (s : Text) :
    front (c :: s) = .fault (.unexpectedCharacter c) := by
  obtain ⟨hfeed, hsemicolon, hblank, hstart, hdot, hdigit, hmark⟩ := hc
  have hcomment : ¬ (c = ';' ∨ c = '/' ∧ s.head? = some '/') := by
    rintro (h | ⟨h, -⟩)
    · exact hsemicolon h
    · exact hmark .slash h
  have hnone : Mark.ofChar? c = none :=
    Option.eq_none_iff_forall_ne_some.2 fun m hm => hmark m (Mark.ofChar?_eq_some.1 hm)
  rw [front_of_leading?_eq_none (Keyword.leading?_of_not_isSymbolStart hstart s),
    Front.ofCharacter, if_neg hfeed, if_neg hcomment, if_neg (by simp [hblank]),
    if_neg (by simp [hstart]), if_neg hdot, if_neg (by simp [hdigit]), Front.ofMark, hnone]

/-- What stands at the front of a text is found there. -/
theorem Front.Spelled.front_eq {f : Front} {s : Text} (h : f.Spelled s) : front s = f := by
  match f, h with
  | .ending, h =>
    obtain rfl : s = [] := h
    rfl
  | .token kind text rest, h =>
    obtain ⟨rfl, hkind, hstands⟩ := h
    exact hstands.front_eq hkind
  | .gap text rest, h =>
    obtain ⟨rfl, hpiece⟩ := h
    exact hpiece.front_eq
  | .fault .malformedNumber, h =>
    obtain ⟨digits, c, more, rfl, hne, hdigits, hc⟩ := h
    exact front_of_malformedNumber hne hdigits hc
  | .fault (.unexpectedCharacter c), h =>
    obtain ⟨more, rfl, hc⟩ := h
    exact front_of_beginsNothing hc more

/-- The lexer finds at the front of a text what is spelled there, and nothing else. -/
theorem front_eq_iff {f : Front} {s : Text} : front s = f ↔ f.Spelled s :=
  ⟨fun h => h ▸ spelled_front s, Front.Spelled.front_eq⟩

/-- Nothing stands at the front of the empty text, and of no other. -/
theorem front_eq_ending {s : Text} : front s = .ending ↔ s = [] := front_eq_iff

/-- The end of the source is no piece of a text. -/
theorem kind_ne_endOfFile {s text rest : Text} {kind : TokenKind}
    (h : front s = .token kind text rest) : kind ≠ .endOfFile := by
  obtain ⟨-, hkind, -⟩ := front_eq_iff.1 h
  exact hkind

end PioFrontEnd
