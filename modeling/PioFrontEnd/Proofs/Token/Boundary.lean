import PioFrontEnd.Proofs.Token.Drawing

/-!
# Where words end

What stands at the front of a text is decided by the first characters of what follows it, and where
a word may end they decide nothing: a text that begins with a blank or a line break, or is empty,
lets everything before it be what it is at the end of a source. There is one exception. A comment
reaches to the end of its line, so it goes on over blanks.

* `TokenKind.Stands.of_none`: a token is what it is at the end of a source before any character that
  does not go on with it. Only a keyword asks for more, and a slash for less.
* `front_append`: a text that goes on where words end has the front that it has by itself, if it is
  no comment.
-/

namespace PioFrontEnd

/-- Whether words may end before a text: it is empty, or begins with a blank or a line break. -/
def EndsWords (t : Text) : Prop := ∀ c ∈ t.head?, isWordEnd c = true

/-- Words end before a line break. -/
theorem endsWords_lineBreak (t : Text) : EndsWords ('\n' :: t) := by
  rintro c ⟨⟩
  decide

/-- What begins with a line break, if it is not empty, lets words end. -/
theorem endsWords_of_lineBreak {t : Text} (h : ∀ c ∈ t.head?, c = '\n') : EndsWords t := by
  intro c hc
  rw [h c hc]
  decide

/-- Whether no name, number or directive goes on with a character. -/
structure BoundsNames (c : Char) : Prop where
  /-- No name has it. -/
  noPart : isSymbolPart c = false
  /-- No name begins with it. -/
  noStart : isSymbolStart c = false
  /-- No number has it. -/
  noDigit : c.isDigit = false
  /-- It makes no label. -/
  noColon : c ≠ ':'

/-- Where a word may end nothing goes on. -/
theorem boundsNames_of_isWordEnd {c : Char} (h : isWordEnd c = true) : BoundsNames c := by
  simp only [isWordEnd, isBlank, Bool.or_eq_true, decide_eq_true_eq] at h
  rcases h with ((rfl | rfl) | rfl) | rfl <;> exact ⟨by decide, by decide, by decide, by decide⟩

/-! ### Tokens -/

namespace TokenKind.Stands

variable {kind : TokenKind} {text : Text} {next : Option Char}

/-- A token that stands where nothing follows stands before what does not go on with it. -/
theorem of_none (h : kind.Stands text none) (hkind : kind ≠ .endOfFile)
    (hnext : ∀ c ∈ next, BoundsNames c)
    (hword : kind.isWord = true → ∀ c ∈ next, isWordEnd c = true)
    (hslash : kind = .mark .slash → next ≠ some '/') : kind.Stands text next := by
  cases kind with
  | endOfFile => exact absurd rfl hkind
  | endOfLine => exact h
  | number => exact ⟨h.1, h.2.1, fun c hc => ⟨(hnext c hc).noDigit, (hnext c hc).noStart⟩⟩
  | symbol =>
    refine ⟨h.1, fun c hc => ⟨(hnext c hc).noPart, (hnext c hc).noColon⟩, fun hkey => ?_⟩
    exact h.2.2 ⟨hkey.1, fun c hc => nomatch hc⟩
  | label => exact h
  | directive d => exact ⟨h.1, fun c hc => (hnext c hc).noStart⟩
  | instruction i => exact ⟨h.1, hword rfl⟩
  | qualifier q => exact ⟨h.1, hword rfl⟩
  | mark m => exact ⟨h.1, fun hm => hslash (congrArg TokenKind.mark hm)⟩

/-- Where words end a token is what it is at the end of a source. -/
theorem of_isWordEnd (h : kind.Stands text none) (hkind : kind ≠ .endOfFile)
    (hnext : ∀ c ∈ next, isWordEnd c = true) : kind.Stands text next := by
  refine h.of_none hkind (fun c hc => boundsNames_of_isWordEnd (hnext c hc)) (fun _ => hnext) ?_
  rintro - rfl
  exact absurd (hnext '/' rfl) (by decide)

end TokenKind.Stands

/-! ### Comments -/

/-- Whether a text is a comment: it begins like one and stays on its line. -/
structure IsComment (t : Text) : Prop where
  /-- It begins with a semicolon or two slashes. -/
  begins : [';'] <+: t ∨ ['/', '/'] <+: t
  /-- There is no line break in it. -/
  unbroken : '\n' ∉ t

instance (t : Text) : Decidable (IsComment t) :=
  decidable_of_iff (([';'] <+: t ∨ ['/', '/'] <+: t) ∧ '\n' ∉ t)
    ⟨fun h => ⟨h.1, h.2⟩, fun h => ⟨h.begins, h.unbroken⟩⟩

/-- A piece at the end of a source, if it is no comment, can be passed over before whatever no
directive goes on with. -/
theorem Piece.of_nil {text rest : Text} (h : Piece false text []) (hcomment : ¬ IsComment text)
    (hrest : ∀ c ∈ rest.head?, isSymbolStart c = false) : Piece false text rest := by
  cases h with
  | blank hc => exact .blank hc
  | comment hbegin hline _ => exact absurd ⟨hbegin, hline⟩ hcomment
  | unknown hname _ hunknown => exact .unknown hname hrest hunknown
  | lineBreak hfresh => cases hfresh

/-- What begins like a comment is one up to the end of its line. -/
theorem front_of_isComment {s : Text} (h : IsComment s) (u : Text) :
    front (s ++ u) = .gap (s ++ u.takeWhile (· ≠ '\n')) (u.dropWhile (· ≠ '\n')) := by
  refine front_eq_iff.2 ⟨?_, .comment ?_ ?_ ?_⟩
  · rw [List.append_assoc, List.takeWhile_append_dropWhile]
  · exact h.begins.imp (·.trans (List.prefix_append _ _)) (·.trans (List.prefix_append _ _))
  · rw [List.mem_append, not_or]
    exact ⟨h.unbroken, not_mem_takeWhile (by decide) u⟩
  · exact fun c hc => by simpa using forall_head?_dropWhile u c hc

/-- A comment up to the end of its line is passed over. -/
theorem front_of_isComment_of_lineBreak {s u : Text} (h : IsComment s)
    (hu : ∀ c ∈ u.head?, c = '\n') : front (s ++ u) = .gap s u := by
  have hnone : ∀ c ∈ u.head?, decide (c ≠ '\n') = false := fun c hc => by simp [hu c hc]
  obtain ⟨htake, hdrop⟩ := takeWhile_append_of_boundary (s := []) (fun c hc => nomatch hc) hnone
  rw [List.nil_append] at htake hdrop
  rw [front_of_isComment h, htake, hdrop, List.append_nil]

/-! ### Fronts -/

namespace Front

/-- The front of a text that goes on. -/
def before (tail : Text) : Front → Front
  | .token kind text rest => .token kind text (rest ++ tail)
  | .gap text rest => .gap text (rest ++ tail)
  | .ending => .ending
  | .fault cause => .fault cause

variable {f : Front} {s u : Text}

/-- What is spelled at the front of a text is spelled there if the text goes on, unless it reaches
to the end of the text and what comes next does not bound it. -/
theorem Spelled.before (h : f.Spelled s) (hs : s ≠ [])
    (htoken : ∀ kind, kind ≠ .endOfFile → kind.Stands s none → f = .token kind s [] →
      kind.Stands s u.head?)
    (hgap : Piece false s [] → Piece false s u) : (f.before u).Spelled (s ++ u) := by
  match f, h with
  | .ending, h => exact absurd h hs
  | .token kind text rest, ⟨hdivides, hkind, hstands⟩ =>
    refine ⟨by rw [hdivides, List.append_assoc], hkind, ?_⟩
    rcases rest with _ | ⟨c, rest⟩
    · obtain rfl : s = text := by rw [hdivides, List.append_nil]
      exact htoken kind hkind hstands rfl
    · exact hstands
  | .gap text rest, ⟨hdivides, hpiece⟩ =>
    refine ⟨by rw [hdivides, List.append_assoc], ?_⟩
    rcases rest with _ | ⟨c, rest⟩
    · obtain rfl : s = text := by rw [hdivides, List.append_nil]
      exact hgap hpiece
    · exact hpiece.of_head?_eq rfl
  | .fault .malformedNumber, ⟨digits, c, more, hdivides, hdigits⟩ =>
    exact ⟨digits, c, more ++ u, by rw [hdivides, List.append_assoc]; rfl, hdigits⟩
  | .fault (.unexpectedCharacter c), ⟨more, hdivides, hc⟩ =>
    exact ⟨more ++ u, by rw [hdivides]; rfl, hc⟩

end Front

variable {s : Text}

/-- A text that goes on where words end has the front that it has by itself, unless it is a
comment. -/
theorem front_append (hs : s ≠ []) (hcomment : ¬ IsComment s) {u : Text} (hu : EndsWords u) :
    front (s ++ u) = (front s).before u :=
  front_eq_iff.2 <|
    (spelled_front s).before hs (fun _ hkind hstands _ => hstands.of_isWordEnd hkind hu)
      fun hpiece => hpiece.of_nil hcomment fun c hc => (boundsNames_of_isWordEnd (hu c hc)).noStart

/-- What stands at the front of a text is not changed by what comes after a line break behind
it. -/
theorem front_append_lineBreak (hs : s ≠ []) (t : Text) :
    front (s ++ '\n' :: t) = (front s).before ('\n' :: t) := by
  by_cases hcomment : IsComment s
  · have hline : ∀ c ∈ ('\n' :: t).head?, c = '\n' := fun c hc => (Option.some.inj hc).symm
    have hnone : ∀ c ∈ ([] : Text).head?, c = '\n' := fun c hc => nomatch hc
    have hself := front_of_isComment_of_lineBreak hcomment hnone
    rw [List.append_nil] at hself
    rw [front_of_isComment_of_lineBreak hcomment hline, hself]
    rfl
  · exact front_append hs hcomment (endsWords_lineBreak t)

end PioFrontEnd
