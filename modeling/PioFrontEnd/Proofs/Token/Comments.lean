import Mathlib.Data.List.Infix
import PioFrontEnd.Proofs.Token.Continuation
import PioFrontEnd.Proofs.Token.Lossless

/-!
# Taking a comment away

A comment says nothing, so a source is divided alike without it, except in one place. A name that
is spelled like a keyword is one where a word may end, and no word ends before a comment that is
written right after it. If such a comment is taken away, the line or the source ends there instead,
and the name is a keyword.

* `CommentAt`: where a comment stands in a source, said without the lexer.
* `front_before_comment`: the front of a text before a comment, from its front by itself.
* `TokenStream.unplaced_items_without_comment`: what is drawn from a stream without a comment.
* `tokenize_without_comment`: what this means for sources, and when it makes no difference.
-/

namespace PioFrontEnd

/-- Whether a source that divides like this has a comment in the middle. -/
structure CommentAt (passed comment rest : Text) : Prop where
  /-- It is a comment. -/
  isComment : IsComment comment
  /-- Nothing before it on its line begins one. -/
  first : ∀ line, line <:+ passed → IsComment (line ++ comment) → line = []
  /-- It goes to the end of its line. -/
  ended : ∀ c ∈ rest.head?, c = '\n'

instance (passed comment rest : Text) : Decidable (CommentAt passed comment rest) :=
  decidable_of_iff (IsComment comment ∧
      (∀ line ∈ passed.tails, IsComment (line ++ comment) → line = []) ∧
      rest.head?.all (· = '\n') = true)
    ⟨fun ⟨h, hfirst, hrest⟩ =>
        ⟨h, fun line hline => hfirst line ((List.mem_tails line passed).2 hline),
          fun c hc => of_decide_eq_true ((Option.all_eq_true _ _).1 hrest c hc)⟩,
      fun ⟨h, hfirst, hrest⟩ =>
        ⟨h, fun line hline => hfirst line ((List.mem_tails line passed).1 hline),
          (Option.all_eq_true _ _).2 fun c hc => decide_eq_true (hrest c hc)⟩⟩

/-- What stands before a comment may begin later. -/
theorem CommentAt.of_append {text more comment rest : Text}
    (h : CommentAt (text ++ more) comment rest) : CommentAt more comment rest :=
  ⟨h.isComment, fun line hline => h.first line (hline.trans (List.suffix_append text more)),
    h.ended⟩

/-! ### Names where words may end -/

/-- The kind that a name has where a word may end. -/
def Keyword.kindOf (name : Text) : TokenKind :=
  (table.lookup (name.map Char.toLower)).getD .symbol

namespace TokenKind

/-- The kind that a token has if a word may end after it. -/
def asWord (kind : TokenKind) (text : Text) : TokenKind :=
  if kind = .symbol then Keyword.kindOf text else kind

/-- The kind that a token has if no word may end after it. -/
def asName (kind : TokenKind) : TokenKind := if kind.isWord = true then .symbol else kind

/-- The kind that a token has before this text, if no word may end after the text. -/
def nameBefore (kind : TokenKind) (more : Text) : TokenKind :=
  if more = [] then kind.asName else kind

end TokenKind

/-- The token with the kind that it has if a word may end at this offset. -/
def Token.wordAt (site : Nat) (t : Token) : Token :=
  if t.span.stop = site then { t with kind := t.kind.asWord t.text } else t

/-- What has been drawn, if a word may end at this offset. -/
def wordAtItem (site : Nat) : Except Fault Token → Except Fault Token
  | .ok t => .ok (t.wordAt site)
  | .error f => .error f

namespace Keyword

/-- A name that is spelled like a keyword has the kind of that keyword in the table. -/
theorem mem_table_of_isKeyword {n : Text} (h : IsKeyword n) :
    (n.map Char.toLower, kindOf n) ∈ table := by
  rcases hfind : table.lookup (n.map Char.toLower) with _ | kind
  · obtain ⟨entry, hmem, hword⟩ := List.mem_map.1 h
    have hne := List.lookup_eq_none_iff.1 hfind entry hmem
    rw [hword] at hne
    simp at hne
  · rw [kindOf, hfind]
    obtain ⟨before, after, happend, -⟩ := List.lookup_eq_some_iff.1 hfind
    rw [happend]
    exact List.mem_append_right before List.mem_cons_self

/-- A name that is spelled like no keyword is a symbol. -/
theorem kindOf_of_not_isKeyword {n : Text} (h : ¬ IsKeyword n) : kindOf n = .symbol := by
  have hnone : table.lookup (n.map Char.toLower) = none := by
    apply List.lookup_eq_none_iff.2
    intro entry hmem
    have hne : n.map Char.toLower ≠ entry.1 :=
      fun heq => h (List.mem_map.2 ⟨entry, hmem, heq.symm⟩)
    simpa using hne
  rw [kindOf, hnone]
  rfl

/-- A name is a symbol where a word may end exactly if it is not spelled like a keyword. -/
theorem kindOf_eq_symbol_iff {n : Text} : kindOf n = .symbol ↔ ¬ IsKeyword n := by
  refine ⟨fun h hkey => ?_, kindOf_of_not_isKeyword⟩
  have hword := isWord_of_mem (mem_table_of_isKeyword hkey)
  dsimp only at hword
  rw [h] at hword
  cases hword

end Keyword

namespace TokenKind

variable {kind : TokenKind} {text : Text}

/-- What a token is at the end of a source is what it is where a word may end. -/
theorem Stands.asWord_asName (h : kind.Stands text none) : kind.asName.asWord text = kind := by
  have hend : ∀ c ∈ (none : Option Char), isWordEnd c = true := fun c hc => nomatch hc
  unfold asName asWord
  by_cases hword : kind.isWord = true
  · -- both kinds stand there, and only one can
    have hkey : IsKeyword text := List.mem_map_of_mem ((stands_iff_of_isWord hword).1 h).1
    have hmem := Keyword.mem_table_of_isKeyword hkey
    have hkind := Keyword.isWord_of_mem hmem
    have hfront : front (text ++ []) = .token kind text [] := h.front_eq_keyword hword
    have hfront' : front (text ++ []) = .token (Keyword.kindOf text) text [] :=
      ((stands_iff_of_isWord hkind).2 ⟨hmem, hend⟩).front_eq_keyword hkind
    rw [if_pos hword, if_pos rfl]
    exact (Front.token.inj (hfront'.symm.trans hfront)).1
  · rw [if_neg hword]
    split
    · rename_i hsymbol
      subst hsymbol
      exact Keyword.kindOf_of_not_isKeyword fun hkey => h.2.2 ⟨hkey, hend⟩
    · rfl

/-- What comes after a token does not make it the end of a line. -/
theorem nameBefore_eq_endOfLine {more : Text} :
    kind.nameBefore more = .endOfLine ↔ kind = .endOfLine := by
  unfold nameBefore
  split
  · cases kind <;> simp [asName, isWord]
  · exact Iff.rfl

end TokenKind

/-! ### Fronts before a comment -/

section

variable {comment rest s text : Text} {kind : TokenKind}

/-- A comment is not empty. -/
theorem IsComment.ne_nil (h : IsComment comment) : comment ≠ [] := by
  rintro rfl
  rcases h.begins with hbegin | hbegin <;> simp at hbegin

/-- A comment goes on with what stays on its line. -/
theorem IsComment.append (h : IsComment s) (hcomment : IsComment comment) :
    IsComment (s ++ comment) :=
  ⟨h.begins.imp (·.trans (List.prefix_append _ _)) (·.trans (List.prefix_append _ _)),
    fun hbreak => (List.mem_append.1 hbreak).elim h.unbroken hcomment.unbroken⟩

/-- No name, number or directive goes on with a comment, and no word ends before one. -/
theorem IsComment.boundsNames (h : IsComment comment) (rest : Text) :
    ∀ c ∈ (comment ++ rest).head?, BoundsNames c ∧ isWordEnd c = false := by
  intro c hc
  rcases h.begins with ⟨t, rfl⟩ | ⟨t, rfl⟩
  all_goals
    obtain rfl := Option.some.inj hc
    exact ⟨⟨by decide, by decide, by decide, by decide⟩, by decide⟩

/-- A name that is not followed by anything that bounds a word is a symbol. -/
theorem stands_symbol_of_isWord (h : kind.Stands text none) (hword : kind.isWord = true)
    (hcomment : IsComment comment) : TokenKind.symbol.Stands text (comment ++ rest).head? := by
  have hkey : IsKeyword text := List.mem_map_of_mem ((TokenKind.stands_iff_of_isWord hword).1 h).1
  obtain ⟨c, more, rfl⟩ := List.exists_cons_of_ne_nil hcomment.ne_nil
  have hbounds := hcomment.boundsNames rest
  refine ⟨Keyword.isName_of_isKeyword hkey, fun d hd => ?_, fun hend => ?_⟩
  · exact ⟨(hbounds d hd).1.noPart, (hbounds d hd).1.noColon⟩
  · have hstop := hend.2 c rfl
    rw [(hbounds c rfl).2] at hstop
    cases hstop

/-- Any other token stands before a comment, unless it makes the comment begin earlier. -/
theorem TokenKind.Stands.before_comment (h : kind.Stands text none) (hkind : kind ≠ .endOfFile)
    (hword : kind.isWord = false) (hcomment : IsComment comment)
    (hfirst : ¬ IsComment (text ++ comment)) : kind.Stands text (comment ++ rest).head? := by
  refine h.of_none hkind (fun c hc => (hcomment.boundsNames rest c hc).1)
    (fun htrue => absurd (htrue.symm.trans hword) (by decide)) ?_
  rintro rfl hslash
  obtain ⟨rfl, -⟩ := h
  obtain ⟨c, more, rfl⟩ := List.exists_cons_of_ne_nil hcomment.ne_nil
  obtain rfl : c = '/' := Option.some.inj hslash
  refine hfirst ⟨.inr ⟨more, rfl⟩, fun hbreak => ?_⟩
  rcases List.mem_append.1 hbreak with hmark | hbreak
  · exact absurd hmark (by decide)
  · exact hcomment.unbroken hbreak

/-- The front of a text before this tail, if no word ends there. -/
def Front.beforeName (tail : Text) : Front → Front
  | .token kind text more => .token (kind.nameBefore more) text (more ++ tail)
  | f => f.before tail

/-- Nothing reaches from before a comment into it, and of what stands right before it only a keyword
is something else. -/
theorem front_before_comment (hs : s ≠ []) (hcomment : IsComment comment)
    (hfirst : ¬ IsComment (s ++ comment)) (rest : Text) :
    front (s ++ (comment ++ rest)) = (front s).beforeName (comment ++ rest) := by
  have hself : ¬ IsComment s := fun h => hfirst (h.append hcomment)
  by_cases hkey : ∃ kind, kind.isWord = true ∧ front s = .token kind s []
  · obtain ⟨kind, hword, hfront⟩ := hkey
    obtain ⟨-, -, hstands⟩ := front_eq_iff.1 hfront
    rw [hfront, Front.beforeName, TokenKind.nameBefore, if_pos rfl, TokenKind.asName, if_pos hword]
    exact (stands_symbol_of_isWord hstands hword hcomment).front_eq (by simp)
  · have hspelled := (spelled_front s).before (u := comment ++ rest) hs
      (fun kind hkind hstands hfront => hstands.before_comment hkind
        (Bool.eq_false_iff.2 fun hword => hkey ⟨kind, hword, hfront⟩) hcomment hfirst)
      (fun hpiece => hpiece.of_nil hself fun c hc => (hcomment.boundsNames rest c hc).1.noStart)
    rw [front_eq_iff.2 hspelled]
    rcases hfront : front s with _ | ⟨kind, text, more⟩ | ⟨text, more⟩ | cause
    case token =>
      have hkind : kind.nameBefore more = kind := by
        refine ite_eq_right_iff.2 fun hmore => if_neg fun hword => ?_
        subst hmore
        obtain ⟨htext, -, -⟩ := front_eq_iff.1 hfront
        rw [List.append_nil] at htext
        exact hkey ⟨kind, hword, by rw [hfront, htext]⟩
      rw [Front.beforeName, hkind]
      rfl
    all_goals rfl

/-! ### What is drawn -/

namespace TokenStream

/-- Nothing is drawn before the place of a stream. -/
theorem le_span_of_mem_items {s : TokenStream} (hs : s.finished = false) {t : Token}
    (h : .ok t ∈ s.items) : s.offset ≤ t.span.start ∧ t.span.start ≤ t.span.stop := by
  obtain ⟨tokens, final, hitems, hlayout⟩ := s.exists_layout hs
  rw [hitems, List.mem_append, List.mem_singleton] at h
  rcases h with hmem | rfl
  · obtain ⟨t', ht', heq⟩ := List.mem_map.1 hmem
    cases heq
    obtain ⟨-, hle, hlt⟩ := hlayout.bounds t ht'
    exact ⟨hle, Nat.le_of_lt hlt⟩
  · rcases hlayout.final_eq with heq | ⟨f, heq, -⟩
    · cases heq
      exact ⟨Nat.le_add_right _ _, Nat.le_refl _⟩
    · cases heq

/-- What is drawn after a comment is drawn without it. -/
theorem unplaced_items_after_comment (hcomment : IsComment comment)
    (hrest : ∀ c ∈ rest.head?, c = '\n') {s : TokenStream} (hs : s.finished = false)
    (h : s.rest = comment ++ rest) :
    { s with rest := rest }.items.map unplaced =
      (s.items.map (wordAtItem s.offset)).map unplaced := by
  have hfront : front s.rest = .gap comment rest := by
    rw [h]
    exact front_of_isComment_of_lineBreak hcomment hrest
  have hpos : 0 < Text.byteSize comment :=
    Nat.pos_of_ne_zero fun hzero => hcomment.ne_nil (Text.byteSize_eq_zero.1 hzero)
  have hsame : ∀ item ∈ (s.skip comment rest).items, wordAtItem s.offset item = item := by
    intro item hmem
    rcases item with f | t
    · rfl
    · have hspan := le_span_of_mem_items (s := s.skip comment rest) hs hmem
      have hstart : (s.skip comment rest).offset = s.offset + Text.byteSize comment := rfl
      exact congrArg Except.ok (if_neg (by omega))
  rw [← unplaced_items_of_gap hs hfront, items_congr (next?_of_gap hs hfront),
    List.map_congr_left hsame, List.map_id']

/-- A token that stands before a comment, if a word may end where the comment begins. -/
theorem wordAt_tokenHere (s : TokenStream) {more : Text} (h : kind.Stands text more.head?) :
    (s.tokenHere (kind.nameBefore more) text).wordAt (s.offset + Text.byteSize (text ++ more)) =
      s.tokenHere kind text := by
  rcases more with _ | ⟨c, more⟩
  · rw [List.append_nil]
    exact (if_pos rfl).trans (congrArg (s.tokenHere · text) h.asWord_asName)
  · have hpos : Text.byteSize (c :: more) ≠ 0 := fun hzero => nomatch Text.byteSize_eq_zero.1 hzero
    have hstop : (s.tokenHere kind text).span.stop = s.offset + Text.byteSize text := rfl
    rw [Text.byteSize_append]
    exact if_neg (by rw [TokenKind.nameBefore, if_neg (by simp), hstop]; omega)

/-- What is drawn from a stream without a comment is what is drawn with it, if a word may end where
the comment stood. -/
theorem unplaced_items_without_comment {passed : Text} (h : CommentAt passed comment rest)
    {s : TokenStream} (hs : s.finished = false) (hsrest : s.rest = passed ++ (comment ++ rest)) :
    { s with rest := passed ++ rest }.items.map unplaced =
      (s.items.map (wordAtItem (s.offset + Text.byteSize passed))).map unplaced := by
  induction hn : passed.length using Nat.strongRecOn generalizing s passed with
  | ind n ih =>
    subst hn
    by_cases hnil : passed = []
    · subst hnil
      exact unplaced_items_after_comment h.isComment h.ended hs hsrest
    · have hfirst : ¬ IsComment (passed ++ comment) :=
        fun hc => hnil (h.first passed (List.suffix_refl passed) hc)
      have hself : ¬ IsComment passed := fun hc => hfirst (hc.append h.isComment)
      have hwith := front_before_comment hnil h.isComment hfirst rest
      have hwithout := front_append hnil hself (endsWords_of_lineBreak h.ended)
      rw [← hsrest] at hwith
      rcases hfront : front passed with _ | ⟨kind, text, more⟩ | ⟨text, more⟩ | cause
      all_goals rw [hfront] at hwith hwithout
      case ending => exact absurd (front_eq_ending.1 hfront) hnil
      case fault =>
        rw [items_of_some (next?_of_fault hs hwith), items_of_some
          (next?_of_fault (s := { s with rest := passed ++ rest }) hs hwithout), items_close,
          items_close]
        rfl
      case gap =>
        obtain ⟨rfl, -⟩ := front_eq_iff.1 hfront
        have hlater := ih more.length (length_lt_of_front_gap hfront) h.of_append
          (s := s.skip text (more ++ (comment ++ rest))) hs rfl rfl
        rw [items_congr (next?_of_gap hs hwith), items_congr
          (next?_of_gap (s := { s with rest := text ++ more ++ rest }) hs hwithout),
          Text.byteSize_append, ← Nat.add_assoc]
        exact hlater
      case token =>
        obtain ⟨rfl, -, hstands⟩ := front_eq_iff.1 hfront
        have hlater := ih more.length (length_lt_of_front_token hfront) h.of_append
          (s := s.advance (kind.nameBefore more) text (more ++ (comment ++ rest))) hs rfl rfl
        by_cases hblank : kind = .endOfLine ∧ s.freshLine = true
        · obtain ⟨rfl, hfresh⟩ := hblank
          have hname : TokenKind.endOfLine.nameBefore more = .endOfLine :=
            TokenKind.nameBefore_eq_endOfLine.2 rfl
          rw [Front.beforeName, hname] at hwith
          rw [hname] at hlater
          rw [items_congr (next?_of_blankLine hs hfresh hwith), items_congr (next?_of_blankLine
            (s := { s with rest := text ++ more ++ rest }) hs hfresh hwithout),
            Text.byteSize_append, ← Nat.add_assoc]
          exact hlater
        · have hkeep : ¬ (kind.nameBefore more = .endOfLine ∧ s.freshLine = true) := by
            rwa [TokenKind.nameBefore_eq_endOfLine]
          have hadvance : { s with rest := text ++ more ++ rest }.advance kind text (more ++ rest) =
              { s.advance (kind.nameBefore more) text (more ++ (comment ++ rest)) with
                rest := more ++ rest } := by
            simp only [advance, TokenKind.nameBefore_eq_endOfLine]
          have hoffset : s.offset + Text.byteSize (text ++ more) =
              (s.advance (kind.nameBefore more) text (more ++ (comment ++ rest))).offset +
                Text.byteSize more := by
            rw [Text.byteSize_append, ← Nat.add_assoc]
            rfl
          rw [items_of_some (next?_of_token hs hwith hkeep), items_of_some (next?_of_token
            (s := { s with rest := text ++ more ++ rest }) hs hwithout hblank), hadvance,
            List.map_cons, hlater, List.map_cons, List.map_cons, wordAtItem,
            s.wordAt_tokenHere hstands, hoffset]
          rfl

end TokenStream

end

/-- Only a name that is spelled like a keyword is something else where a word may end. -/
theorem unplaced_wordAtItem_iff {site : Nat} {item : Except Fault Token} :
    unplaced (wordAtItem site item) = unplaced item ↔
      ∀ t, item = .ok t → t.kind = .symbol → t.span.stop = site → ¬ IsKeyword t.text := by
  rcases item with f | t
  · exact iff_of_true rfl fun t ht => nomatch ht
  · refine ⟨?_, fun h => ?_⟩
    · rintro h t ⟨⟩ hsymbol hstop
      rw [wordAtItem, Token.wordAt, if_pos hstop, TokenKind.asWord, if_pos hsymbol] at h
      have hkind : Keyword.kindOf t.text = t.kind := congrArg Prod.fst (Except.ok.inj h)
      exact Keyword.kindOf_eq_symbol_iff.1 (hkind.trans hsymbol)
    · rw [wordAtItem, Token.wordAt]
      split
      · rename_i hstop
        have hkind : t.kind.asWord t.text = t.kind := by
          refine ite_eq_right_iff.2 fun hsymbol => ?_
          rw [Keyword.kindOf_of_not_isKeyword (h t rfl hsymbol hstop), hsymbol]
        exact congrArg (fun kind => Except.ok (kind, t.text)) hkind
      · rfl

/-- Taking a comment away leaves everything that is drawn from a source as it is but for the places,
except that a name that ends where the comment began is what it is where a word may end. So it makes
a difference exactly if such a name is spelled like a keyword. -/
theorem tokenize_without_comment {passed comment rest : Text} (h : CommentAt passed comment rest) :
    let items := tokenize (passed ++ (comment ++ rest))
    (tokenize (passed ++ rest)).map unplaced =
        (items.map (wordAtItem (Text.byteSize passed))).map unplaced ∧
      ((tokenize (passed ++ rest)).map unplaced = items.map unplaced ↔
        ∀ t, .ok t ∈ items → t.kind = .symbol → t.span.stop = Text.byteSize passed →
          ¬ IsKeyword t.text) := by
  intro items
  have hwithout : (tokenize (passed ++ rest)).map unplaced =
      (items.map (wordAtItem (Text.byteSize passed))).map unplaced := by
    have hdrawn := TokenStream.unplaced_items_without_comment h
      (s := .ofText (passed ++ (comment ++ rest))) rfl rfl
    rw [show (TokenStream.ofText (passed ++ (comment ++ rest))).offset = 0 from rfl,
      Nat.zero_add] at hdrawn
    exact hdrawn
  refine ⟨hwithout, ?_⟩
  rw [hwithout, List.map_map, List.map_inj_left]
  constructor
  · intro hsame t ht
    exact unplaced_wordAtItem_iff.1 (hsame _ ht) t rfl
  · intro hnone item hitem
    apply unplaced_wordAtItem_iff.2
    rintro t rfl
    exact hnone t hitem

/-- A comment after a number and a comment after a keyword in capitals, which is none before it. -/
theorem tokenize_without_comment_of_keyword :
    let passed : Text := "x 1// y\nOpt".toList
    let comment : Text := ";opt // z".toList
    let rest : Text := "\n5x".toList
    CommentAt passed comment rest ∧
      (tokenize (passed ++ rest)).map unplaced =
        ((tokenize (passed ++ (comment ++ rest))).map (wordAtItem 11)).map unplaced ∧
      (tokenize (passed ++ rest)).map unplaced ≠
        (tokenize (passed ++ (comment ++ rest))).map unplaced := by
  intro passed comment rest
  have hcomment : CommentAt passed comment rest := by decide +kernel
  obtain ⟨hwithout, hsame⟩ := tokenize_without_comment hcomment
  refine ⟨hcomment, hwithout, fun heq => ?_⟩
  have hopt : .ok ⟨.symbol, ⟨8, 11⟩, "Opt".toList⟩ ∈ tokenize (passed ++ (comment ++ rest)) := by
    decide +kernel
  exact hsame.1 heq _ hopt rfl (by decide +kernel) (by decide +kernel)

/-- Not every comment can be taken away without any difference. -/
theorem tokenize_without_comment_differs :
    ¬ ∀ passed comment rest : Text, CommentAt passed comment rest →
      (tokenize (passed ++ rest)).map unplaced =
        (tokenize (passed ++ (comment ++ rest))).map unplaced := by
  intro h
  have hsame := h "in".toList ";c".toList [] (by decide +kernel)
  exact absurd hsame (by decide +kernel)

end PioFrontEnd
