import PioFrontEnd.Listing.Printing
import PioFrontEnd.Proofs.Canonical.Rereading
import PioFrontEnd.Proofs.Token.Drawing

/-!
# The lexemes of the canonical form

What stands at the front of a text depends on the text alone, so the lexemes of a printed line can
be found piece by piece, each in front of what is printed after it (`Yields`). A name is found again
as long as it is followed by something that cannot belong to it. If it is spelled like a keyword it
is taken for one before a blank or a line break (`nameLexeme`).

* `yields_expr`: the canonical form of an expression has the lexemes of the expression, if no name
  in it is spelled like a keyword.
* `yields_define`, `yields_program`: the lexemes of a printed line. The annotation is a comment and
  has none.
-/

namespace PioFrontEnd

/-! ### Names -/

/-- The lexeme of a name that a blank or a line break follows. -/
def nameLexeme (n : Text) : Lexeme :=
  (((Keyword.table.find? (·.1 = n.map Char.toLower)).map Prod.snd).getD .symbol, n)

/-- A name is a symbol unless it is spelled like a keyword. -/
theorem nameLexeme_kind_eq_symbol {n : Text} : (nameLexeme n).1 = .symbol ↔ ¬ IsKeyword n := by
  have hkinds : ∀ entry ∈ Keyword.table, entry.2 ≠ .symbol := by decide
  unfold nameLexeme IsKeyword
  cases hfind : Keyword.table.find? (·.1 = n.map Char.toLower) with
  | none =>
    have hnot := List.find?_eq_none.1 hfind
    simp only [Option.map_none, Option.getD_none, true_iff, List.mem_map, not_exists, not_and]
    intro entry hentry hword
    exact hnot entry hentry (decide_eq_true hword)
  | some entry =>
    have hmem := List.mem_of_find?_eq_some hfind
    have hword := List.find?_some hfind
    simp only [Option.map_some, Option.getD_some]
    constructor
    · intro hkind
      exact absurd hkind (hkinds entry hmem)
    · intro hnot
      exact absurd (List.mem_map.2 ⟨entry, hmem, of_decide_eq_true hword⟩) hnot

/-! ### What stands at the front -/

/-- Whether a text cannot go on with a name or number. It is empty, or begins with one of the
characters that follow a name or number in the canonical form. -/
def Delimited (rest : Text) : Prop := ∀ c ∈ rest.head?, c = ' ' ∨ c = ')' ∨ c = '\n'

/-- A run that no delimiter belongs to ends before a text that is delimited. -/
theorem Delimited.boundary {rest : Text} (h : Delimited rest) {p : Char → Bool}
    (hp : p ' ' = false ∧ p ')' = false ∧ p '\n' = false) : ∀ c ∈ rest.head?, p c = false := by
  intro c hc
  rcases h c hc with rfl | rfl | rfl
  · exact hp.1
  · exact hp.2.1
  · exact hp.2.2

/-- A run of digits before a delimiter is a number. -/
theorem Delimited.number_stands {digits rest : Text} (h : Delimited rest) (hne : digits ≠ [])
    (hdigits : ∀ c ∈ digits, c.isDigit = true) :
    TokenKind.number.Stands digits rest.head? :=
  ⟨hne, hdigits, fun c hc =>
    ⟨h.boundary (p := Char.isDigit) (by decide) c hc, h.boundary (by decide) c hc⟩⟩

/-- A name before a delimiter that is not spelled like a keyword is a symbol. -/
theorem Delimited.symbol_stands {n rest : Text} (h : Delimited rest) (hn : IsName n)
    (hkey : ¬ IsKeyword n) : TokenKind.symbol.Stands n rest.head? := by
  refine ⟨hn, fun c hc => ⟨h.boundary (by decide) c hc, ?_⟩, fun hword => hkey hword.1⟩
  simpa using h.boundary (p := (· = ':')) (by decide) c hc

/-- The word of a directive stands up to a blank. -/
theorem front_directive (d : Directive) (rest : Text) :
    front ('.' :: (d.name ++ ' ' :: rest)) = .token (.directive d) ('.' :: d.name)
      (' ' :: rest) :=
  TokenKind.Stands.front_eq_directive fun c hc => by
    cases hc
    decide

/-! ### Sequences of lexemes -/

/-- Whether these lexemes, with gaps between them, are cut off the front of a text one after
another. -/
inductive Yields : Text → List Lexeme → Text → Prop where
  /-- Nothing has to be cut off. -/
  | nil {s : Text} : Yields s [] s
  /-- A gap may come first. -/
  | gap {s text rest : Text} {lexemes : List Lexeme} {final : Text} (h : front s = .gap text rest)
    (hrest : Yields rest lexemes final) : Yields s lexemes final
  /-- A token of the line comes first. -/
  | token {s : Text} {kind : TokenKind} {text rest : Text} {lexemes : List Lexeme} {final : Text}
    (h : front s = .token kind text rest) (hkind : kind.IsContent)
    (hrest : Yields rest lexemes final) : Yields s ((kind, text) :: lexemes) final

/-- What one text yields up to a rest, and that rest after it, is yielded by the whole. -/
theorem Yields.append {s rest final : Text} {lexemes lexemes' : List Lexeme}
    (h : Yields s lexemes rest) (h' : Yields rest lexemes' final) :
    Yields s (lexemes ++ lexemes') final := by
  induction h with
  | nil => exact h'
  | gap h _ ih => exact .gap h (ih h')
  | token h hkind _ ih => exact .token h hkind (ih h')

/-- A space yields nothing. -/
theorem yields_blank {rest final : Text} {lexemes : List Lexeme} (h : Yields rest lexemes final) :
    Yields (' ' :: rest) lexemes final :=
  .gap (front_of_isBlank (by decide) rest) h

/-- A mark yields itself, unless it is a slash with another one after it. -/
theorem yields_mark (m : Mark) {rest final : Text} {lexemes : List Lexeme}
    (hslash : m = .slash → rest.head? ≠ some '/') (h : Yields rest lexemes final) :
    Yields (m.char :: rest) (m.lexeme :: lexemes) final :=
  .token (front_mark m hslash) ⟨by simp, by simp⟩ h

/-- Digits yield a number, if what comes after them cannot belong to it. -/
theorem yields_number {digits rest : Text} (hne : digits ≠ [])
    (hdigits : ∀ c ∈ digits, c.isDigit = true)
    (hrest : Delimited rest) : Yields (digits ++ rest) [(.number, digits)] rest :=
  .token ((hrest.number_stands hne hdigits).front_eq (by simp)) ⟨by simp, by simp⟩ .nil

/-- A name in an expression yields a symbol. -/
theorem yields_symbol {n rest : Text} (hn : IsName n) (hkey : ¬ IsKeyword n)
    (hrest : Delimited rest) :
    Yields (n ++ rest) [(.symbol, n)] rest :=
  .token ((hrest.symbol_stands hn hkey).front_eq (by simp)) ⟨by simp, by simp⟩ .nil

/-- A name before a blank or a line break yields what it is spelled like. -/
theorem yields_name {n rest : Text} (hn : IsName n) (hrest : Delimited rest)
    (hend : rest.head?.all isWordEnd = true) : Yields (n ++ rest) [nameLexeme n] rest := by
  unfold nameLexeme
  cases hfind : Keyword.table.find? (·.1 = n.map Char.toLower) with
  | none =>
    have hkey : ¬ IsKeyword n := nameLexeme_kind_eq_symbol.1 (by rw [nameLexeme, hfind]; rfl)
    exact yields_symbol hn hkey hrest
  | some entry =>
    obtain ⟨word, kind⟩ := entry
    have hmem := List.mem_of_find?_eq_some hfind
    have hfound := List.find?_some hfind
    have hword : word = n.map Char.toLower := of_decide_eq_true hfound
    have hkind := Keyword.isWord_of_mem hmem
    have hstands : kind.Stands n rest.head? := by
      refine (TokenKind.stands_iff_of_isWord hkind).2 ⟨hword ▸ hmem, fun c hc => ?_⟩
      rw [Option.mem_def.1 hc] at hend
      exact hend
    have hcontent : kind.IsContent := by
      constructor <;> rintro rfl <;> cases hkind
    exact .token (hstands.front_eq_keyword hkind) hcontent .nil

/-- A literal yields a number, after a sign if it is negative. -/
theorem yields_literal (v : Int32) {rest : Text} (hrest : Delimited rest) :
    Yields (Text.Decimal.write v ++ rest) (Expr.literal v).lexemes rest := by
  have hdigits : ∀ {n : Nat}, ∀ c ∈ Nat.toDigits 10 n, c.isDigit = true := fun {n} c hc =>
    Nat.isDigit_of_mem_toDigits (by decide) (by decide) hc
  by_cases hv : v < 0
  · rw [Text.Decimal.write, Expr.lexemes, if_pos hv, if_pos hv]
    exact yields_mark .minus (by simp) (yields_number Nat.toDigits_ne_nil hdigits hrest)
  · rw [Expr.lexemes, if_neg hv]
    refine yields_number ?_ ?_ hrest
    · rw [Text.Decimal.write, if_neg hv]
      exact Nat.toDigits_ne_nil
    · rw [Text.Decimal.write, if_neg hv]
      exact hdigits

/-- The canonical form of an expression yields its lexemes, if no name in it is spelled like a
keyword. -/
theorem yields_expr {e : Expr Text} (hnames : ∀ n ∈ e.names, IsName n ∧ ¬ IsKeyword n) {rest : Text}
    (hrest : Delimited rest) : Yields (e.print ++ rest) e.lexemes rest := by
  induction e generalizing rest with
  | literal v => exact yields_literal v hrest
  | name n =>
    obtain ⟨hn, hkey⟩ := hnames n (by simp [Expr.names])
    exact yields_symbol hn hkey hrest
  | binary op l r p ihl ihr =>
    have hblank : ∀ rest, Delimited (' ' :: rest) := fun rest c hc => by cases hc; exact .inl rfl
    have hbody : ∀ {rest : Text}, Delimited rest →
        Yields (l.print ++ [' ', op.mark.char, ' '] ++ r.print ++ rest)
          (l.lexemes ++ op.mark.lexeme :: r.lexemes) rest := by
      intro rest hrest
      have hl := ihl (fun n hn => hnames n (by simp [Expr.names, hn]))
        (hblank (op.mark.char :: ' ' :: (r.print ++ rest)))
      have hr := ihr (fun n hn => hnames n (by simp [Expr.names, hn])) hrest
      have hop := yields_blank (yields_mark op.mark (by simp) (yields_blank hr))
      have happend : l.print ++ [' ', op.mark.char, ' '] ++ r.print ++ rest =
          l.print ++ ' ' :: op.mark.char :: ' ' :: (r.print ++ rest) := by simp
      rw [happend]
      exact hl.append hop
    cases p with
    | false => exact hbody hrest
    | true =>
      have hclose : Delimited (')' :: rest) := fun c hc => by cases hc; exact .inr (.inl rfl)
      have happend : (Expr.binary op l r true).print ++ rest =
          Mark.openParen.char ::
            (l.print ++ [' ', op.mark.char, ' '] ++ r.print ++ ')' :: rest) := by
        simp [Expr.print, Mark.char]
      have hlexemes : (Expr.binary op l r true).lexemes =
          Mark.openParen.lexeme :: ((l.lexemes ++ op.mark.lexeme :: r.lexemes) ++
            [Mark.closeParen.lexeme]) := rfl
      rw [happend, hlexemes]
      refine yields_mark .openParen (by simp) ((hbody hclose).append ?_)
      exact yields_mark .closeParen (by simp) .nil

/-! ### Printed lines -/

/-- A comment yields nothing. -/
theorem yields_comment {s : Text} (hs : '\n' ∉ s) (rest : Text) :
    Yields (';' :: (s ++ '\n' :: rest)) [] ('\n' :: rest) := by
  have hpiece : Piece false (';' :: s) ('\n' :: rest) :=
    .comment (.inl ⟨s, rfl⟩) (by simp [hs]) (by simp)
  exact .gap hpiece.front_eq .nil

/-- An annotation is a comment. -/
theorem yields_annotation (d : Define Text) (rest : Text) :
    Delimited (d.annotation ++ '\n' :: rest) ∧
      Yields (d.annotation ++ '\n' :: rest) [] ('\n' :: rest) := by
  unfold Define.annotation
  split
  · rename_i v _ _
    have hfeed : '\n' ∉ [' ', '=', ' '] ++ Text.Decimal.write v := by
      intro hmem
      rcases List.mem_append.1 hmem with hmem | hmem
      · revert hmem
        decide
      · unfold Text.Decimal.write at hmem
        split at hmem
        · rcases List.mem_cons.1 hmem with heq | hmem
          · exact absurd heq (by decide)
          · have := Nat.isDigit_of_mem_toDigits (by decide) (by decide) hmem
            revert this
            decide
        · have := Nat.isDigit_of_mem_toDigits (by decide) (by decide) hmem
          revert this
          decide
    exact ⟨fun c hc => by cases hc; exact .inl rfl, yields_blank (yields_comment hfeed rest)⟩
  · exact ⟨fun c hc => by cases hc; exact .inr (.inr rfl), .nil⟩

/-- A define is printed as its name and its expression, and its annotation. -/
theorem Define.print_eq (d : Define Text) :
    d.print = ".define ".toList ++ d.name ++ [' '] ++ d.expr.print ++ d.annotation := rfl

/-- A printed define yields its directive, its name and the lexemes of its expression. -/
theorem yields_define {d : Define Text} (hname : IsName d.name)
    (hnames : ∀ n ∈ d.expr.names, IsName n ∧ ¬ IsKeyword n) (rest : Text) :
    Yields (d.print ++ '\n' :: rest)
      ((.directive .define, '.' :: Directive.define.name) :: nameLexeme d.name :: d.expr.lexemes)
      ('\n' :: rest) := by
  obtain ⟨hdelimited, hannotation⟩ := yields_annotation d rest
  have hexpr := (yields_expr hnames hdelimited).append hannotation
  rw [List.append_nil] at hexpr
  have hblank : Delimited (' ' :: (d.expr.print ++ (d.annotation ++ '\n' :: rest))) :=
    fun c hc => by cases hc; exact .inl rfl
  have happend : d.print ++ '\n' :: rest = '.' :: (Directive.define.name ++ ' ' ::
      (d.name ++ ' ' :: (d.expr.print ++ (d.annotation ++ '\n' :: rest)))) := by
    have hword : ".define ".toList = '.' :: (Directive.define.name ++ [' ']) := by decide
    rw [Define.print_eq, hword]
    simp only [List.cons_append, List.append_assoc, List.nil_append]
  have hbody := (yields_name hname hblank rfl).append (yields_blank hexpr)
  have hfront := front_directive .define
    (d.name ++ ' ' :: (d.expr.print ++ (d.annotation ++ '\n' :: rest)))
  rw [happend]
  exact .token hfront ⟨by simp, by simp⟩ (yields_blank hbody)

/-- The first line of a program, without its line break. -/
def Program.heading (name : Text) : Text := ".program ".toList ++ name

/-- A program is printed as its heading, and its defines below. -/
theorem Program.print_eq (p : Program Text) :
    p.print = heading p.name ++ ['\n'] ++ Define.printAll p.defines := rfl

/-- The line of a program yields its directive and its name. -/
theorem yields_program {n : Text} (hn : IsName n) (rest : Text) :
    Yields (Program.heading n ++ '\n' :: rest)
      [(.directive .program, '.' :: Directive.program.name), nameLexeme n] ('\n' :: rest) := by
  have hbreak : Delimited ('\n' :: rest) := fun c hc => by cases hc; exact .inr (.inr rfl)
  have happend : Program.heading n ++ '\n' :: rest =
      '.' :: (Directive.program.name ++ ' ' :: (n ++ '\n' :: rest)) := by
    have hword : ".program ".toList = '.' :: (Directive.program.name ++ [' ']) := by decide
    show ".program ".toList ++ n ++ '\n' :: rest = _
    simp only [hword, List.cons_append, List.append_assoc, List.nil_append]
  have hbody := yields_name hn hbreak rfl
  have hfront := front_directive .program (n ++ '\n' :: rest)
  rw [happend]
  exact .token hfront ⟨by simp, by simp⟩ (yields_blank hbody)

end PioFrontEnd
