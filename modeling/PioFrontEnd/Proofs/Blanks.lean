import Mathlib.Logic.Relation
import PioFrontEnd.Proofs.ByName.Simulation
import PioFrontEnd.Proofs.ByName.Texts
import PioFrontEnd.Proofs.Token.Boundary

/-!
# Blanks

Blanks part words, and otherwise say nothing. So a run of blanks may be as long as one likes and of
whatever blanks, and at the beginning and the end of a line there may be blanks or none: the same
tokens are drawn, and a source is compiled into the same file or has the same thing wrong with it.
In particular it does not matter whether a carriage return stands before the line breaks.

A blank bounds a word, a number and a comment's first slash like the end of a source does, whatever
comes after it. That is why texts that go on with blanks can be compared piece by piece
(`front_append`), and why only a comment, which goes on over blanks, is a case of its own.

* `Relaid`: one run of blanks is changed.
* `Relaid.alike`: the same is drawn from both texts, but for the places.
* `Alike.compile_eq`: texts that the same is drawn from are compiled alike.
* `compile_relaid`: what this means for any number of changes.
-/

namespace PioFrontEnd

/-- Whether there are only blanks in a text. -/
def Text.IsBlank (t : Text) : Prop := ∀ c ∈ t, isBlank c = true

instance (t : Text) : Decidable t.IsBlank := List.decidableBAll (fun c => isBlank c = true) t

/-- Whether two texts are the same but for one run of blanks that may be changed. -/
inductive Relaid : Text → Text → Prop where
  /-- There are blanks in both of them. -/
  | run (before after : Text) {b n : Text} (hb : b.IsBlank) (hne : b ≠ []) (hn : n.IsBlank)
    (hne' : n ≠ []) : Relaid (before ++ (b ++ after)) (before ++ (n ++ after))
  /-- The line or the source ends after them. -/
  | lineEnd (before after : Text) {b n : Text} (hb : b.IsBlank) (hn : n.IsBlank)
    (hafter : ∀ c ∈ after.head?, c = '\n') : Relaid (before ++ (b ++ after)) (before ++ (n ++ after))
  /-- A line begins with them. -/
  | lineStart (before after : Text) {b n : Text} (hb : b.IsBlank) (hn : n.IsBlank)
    (hbefore : before.IsComplete) : Relaid (before ++ (b ++ after)) (before ++ (n ++ after))

/-! ### Texts that the same is drawn from -/

/-- Whether the same is drawn from two texts but for the places, wherever they stand. -/
def Alike (u v : Text) : Prop :=
  ∀ s : TokenStream, s.finished = false →
    { s with rest := u }.items.map unplaced = { s with rest := v }.items.map unplaced

namespace Alike

variable {u v w : Text}

/-- Every text is like itself. -/
theorem refl (u : Text) : Alike u u := fun _ _ => rfl

/-- Texts are alike one way round or the other. -/
theorem symm (h : Alike u v) : Alike v u := fun s hs => (h s hs).symm

/-- Texts that are like a third one are alike. -/
theorem trans (h : Alike u v) (h' : Alike v w) : Alike u w :=
  fun s hs => (h s hs).trans (h' s hs)

/-- A gap makes no difference. -/
theorem of_gap {text : Text} (h : front u = .gap text v) : Alike u v :=
  fun s hs => TokenStream.unplaced_items_of_gap (s := { s with rest := u }) hs h

/-- Blanks in front of a text make no difference. -/
theorem of_isBlank (h : u.IsBlank) (v : Text) : Alike (u ++ v) v := by
  induction u with
  | nil => exact refl v
  | cons c u ih =>
    have hgap : front (c :: (u ++ v)) = .gap [c] (u ++ v) :=
      front_of_isBlank (h c List.mem_cons_self) (u ++ v)
    exact (of_gap hgap).trans (ih fun d hd => h d (List.mem_cons_of_mem c hd))

/-- Any blanks are like any others. -/
theorem blanks (hu : u.IsBlank) (hv : v.IsBlank) (w : Text) : Alike (u ++ w) (v ++ w) :=
  (of_isBlank hu w).trans (of_isBlank hv w).symm

/-- The same is drawn where a token of the same kind comes first. -/
theorem token {kind : TokenKind} {text s t : Text} (h : Alike u v)
    (hs : front s = .token kind text u) (ht : front t = .token kind text v) : Alike s t := by
  intro stream hstream
  have hlater := h (stream.advance kind text u) hstream
  by_cases hblank : kind = .endOfLine ∧ stream.freshLine = true
  · obtain ⟨rfl, hfresh⟩ := hblank
    rw [TokenStream.items_congr (TokenStream.next?_of_blankLine (s := { stream with rest := s })
      hstream hfresh hs), TokenStream.items_congr (TokenStream.next?_of_blankLine
      (s := { stream with rest := t }) hstream hfresh ht)]
    exact hlater
  · rw [TokenStream.items_of_some (TokenStream.next?_of_token (s := { stream with rest := s })
      hstream hs hblank), TokenStream.items_of_some (TokenStream.next?_of_token
      (s := { stream with rest := t }) hstream ht hblank), List.map_cons, List.map_cons]
    exact congrArg (List.cons (unplaced (.ok (stream.tokenHere kind text)))) hlater

/-- Texts with the same fault at the front are alike, whatever comes after it. -/
theorem fault {cause : Cause} {s t : Text} (hs : front s = .fault cause)
    (ht : front t = .fault cause) : Alike s t := by
  intro stream hstream
  rw [TokenStream.items_of_some (TokenStream.next?_of_fault (s := { stream with rest := s })
    hstream hs), TokenStream.items_of_some (TokenStream.next?_of_fault
    (s := { stream with rest := t }) hstream ht), TokenStream.items_close, TokenStream.items_close]

/-- The same is drawn from texts that go on alike where words end. What is left of a comment there
must be alike, too. -/
theorem append (h : Alike u v) (hu : EndsWords u) (hv : EndsWords v)
    (hcomment : Alike (u.dropWhile (· ≠ '\n')) (v.dropWhile (· ≠ '\n'))) (s : Text) :
    Alike (s ++ u) (s ++ v) := by
  induction hn : s.length using Nat.strongRecOn generalizing s with
  | ind n ih =>
    subst hn
    by_cases hnil : s = []
    · subst hnil
      exact h
    · by_cases hself : IsComment s
      · exact ((of_gap (front_of_isComment hself u)).trans hcomment).trans
          (of_gap (front_of_isComment hself v)).symm
      · have hleft := front_append hnil hself hu
        have hright := front_append hnil hself hv
        rcases hfront : front s with _ | ⟨kind, text, more⟩ | ⟨text, more⟩ | cause
        all_goals rw [hfront] at hleft hright
        case ending => exact absurd (front_eq_ending.1 hfront) hnil
        case token =>
          exact token (ih _ (length_lt_of_front_token hfront) more rfl) hleft hright
        case gap =>
          have hmore := ih _ (length_lt_of_front_gap hfront) more rfl
          exact ((of_gap hleft).trans hmore).trans (of_gap hright).symm
        case fault => exact fault hleft hright

end Alike

/-- Words end before blanks, and before what follows where there are none. -/
theorem Text.IsBlank.endsWords {t : Text} (h : t.IsBlank) {u : Text} (hu : t ≠ [] ∨ EndsWords u) :
    EndsWords (t ++ u) := by
  rcases t with _ | ⟨c, t⟩
  · exact hu.resolve_left fun hne => hne rfl
  · rintro d ⟨⟩
    simp [isWordEnd, h c List.mem_cons_self]

/-- Blanks belong to the comment that they stand in. -/
theorem Text.IsBlank.dropWhile_append {t : Text} (h : t.IsBlank) (u : Text) :
    (t ++ u).dropWhile (· ≠ '\n') = u.dropWhile (· ≠ '\n') := by
  apply List.dropWhile_append_of_pos
  intro c hc
  have hblank := h c hc
  rw [decide_eq_true_eq]
  rintro rfl
  exact absurd hblank (by decide)

/-- The same is drawn from both texts. -/
theorem Relaid.alike {s t : Text} (h : Relaid s t) : Alike s t := by
  cases h with
  | run before after hb hne hn hne' =>
    refine (Alike.blanks hb hn after).append (hb.endsWords (.inl hne)) (hn.endsWords (.inl hne')) ?_
      before
    rw [hb.dropWhile_append, hn.dropWhile_append]
    exact .refl _
  | lineEnd before after hb hn hafter =>
    have hends := endsWords_of_lineBreak hafter
    refine (Alike.blanks hb hn after).append (hb.endsWords (.inr hends)) (hn.endsWords (.inr hends))
      ?_ before
    rw [hb.dropWhile_append, hn.dropWhile_append]
    exact .refl _
  | @lineStart before after b n hb hn hbefore =>
    have halike := Alike.blanks hb hn after
    rcases Text.isComplete_iff.1 hbefore with rfl | ⟨before, rfl⟩
    · exact halike
    · -- the line break before the blanks bounds everything
      have hbreak : Alike ('\n' :: (b ++ after)) ('\n' :: (n ++ after)) :=
        halike.token (front_lineBreak _) (front_lineBreak _)
      rw [List.append_assoc, List.append_assoc]
      exact hbreak.append (endsWords_lineBreak _) (endsWords_lineBreak _) hbreak before

/-! ### Texts that are compiled alike -/

/-- What has been drawn, put at the beginning of the source. -/
def atBeginning : Except Cause (TokenKind × Text) → Except Fault Token
  | .ok (kind, text) => .ok ⟨kind, ⟨0, 0⟩, text⟩
  | .error cause => .error ⟨cause, 0⟩

/-- An item without its place is put at the beginning like one that is moved there. -/
theorem atBeginning_unplaced (item : Except Fault Token) :
    atBeginning (unplaced item) = placedItem (fun _ => 0) item := by
  rcases item with fault | token <;> rfl

namespace Alike

variable {s t : Text}

/-- The same is drawn from texts that are alike, but for the places. -/
theorem tokenize_eq (h : Alike s t) : (tokenize s).map unplaced = (tokenize t).map unplaced :=
  h (.ofText []) rfl

/-- The lines of both texts say the same. -/
theorem takeText_eq (h : Alike s t) (l : Listing Text) :
    (l.takeText s).mapError Fault.cause = (l.takeText t).mapError Fault.cause := by
  have hplace : ∀ u : Text, (l.takeText u).mapError (Fault.placed fun _ => 0) =
      l.takeLines (linesOf [] (((tokenize u).map unplaced).map atBeginning)) := by
    intro u
    have hlines := linesOf_placedItem (fun _ => 0) [] (tokenize u)
    rw [List.map_nil] at hlines
    rw [List.map_map, show atBeginning ∘ unplaced = placedItem fun _ => 0 from
      funext atBeginning_unplaced, hlines, Listing.takeLines_placedLine, Listing.takeText,
      TokenStream.lines_eq_linesOf]
    rfl
  have hcause : ∀ u : Text, (l.takeText u).mapError Fault.cause =
      ((l.takeText u).mapError (Fault.placed fun _ => 0)).mapError Fault.cause := by
    intro u
    rcases l.takeText u with fault | l' <;> rfl
  rw [hcause, hcause, hplace, hplace, h.tokenize_eq]

/-- Both texts are compiled into the same file, or the same is wrong with them. -/
theorem compile_eq (h : Alike s t) :
    (compile s).mapError Diagnostic.cause = (compile t).mapError Diagnostic.cause := by
  have htaken := h.takeText_eq {}
  rcases hs : ({} : Listing Text).takeText s with fault | l
  · rcases ht : ({} : Listing Text).takeText t with fault' | l'
    all_goals rw [hs, ht] at htaken
    · rw [(compile_of_fault hs).1, (compile_of_fault ht).1]
      exact congrArg Except.error (Except.error.inj htaken)
    · cases htaken
  · rcases ht : ({} : Listing Text).takeText t with fault' | l'
    all_goals rw [hs, ht] at htaken
    · cases htaken
    · obtain rfl : l = l' := Except.ok.inj htaken
      obtain ⟨f, hf, hnamed⟩ := compile_of_listing hs
      obtain ⟨-, hnames⟩ := compile_eq_ok_iff.1 hf
      have hf' : compile t = .ok f := compile_eq_ok_iff.2 ⟨by rw [hnamed]; exact ht, hnames⟩
      rw [hf, hf']

end Alike

/-- A source of which runs of blanks are changed, at the beginning and the end of lines also from
and to none, has the same tokens and the same lexical fault but for their places, and is compiled
into the same file or has the same thing wrong with it. -/
theorem compile_relaid {s t : Text} (h : Relation.ReflTransGen Relaid s t) :
    (tokenize s).map unplaced = (tokenize t).map unplaced ∧
      (compile s).mapError Diagnostic.cause = (compile t).mapError Diagnostic.cause := by
  have halike : Alike s t := by
    induction h with
    | refl => exact .refl s
    | tail _ hstep ih => exact ih.trans hstep.alike
  exact ⟨halike.tokenize_eq, halike.compile_eq⟩

/-- A carriage return is taken away at the end of a comment, a line is indented, and two blanks after
a directive become one tabulator. -/
theorem compile_relaid_line_ends :
    let s : Text := ".define  A 6/ 2 // x\r\n.program p".toList
    let t : Text := ".define\tA 6/ 2 // x\n  .program p".toList
    Relation.ReflTransGen Relaid s t ∧ (tokenize s).map unplaced = (tokenize t).map unplaced ∧
      (compile s).mapError Diagnostic.cause = (compile t).mapError Diagnostic.cause := by
  intro s t
  have hsteps : Relation.ReflTransGen Relaid s t := by
    rw [show s = ".define  A 6/ 2 // x".toList ++ (['\r'] ++ "\n.program p".toList) by decide +kernel]
    have hafter : ∀ c ∈ ("\n.program p".toList).head?, c = '\n' := by
      rintro c ⟨⟩
      rfl
    refine .head (.lineEnd _ _ (n := []) (by decide) (by decide) hafter) ?_
    rw [show ".define  A 6/ 2 // x".toList ++ ([] ++ "\n.program p".toList) =
      ".define  A 6/ 2 // x\n".toList ++ ([] ++ ".program p".toList) by decide +kernel]
    refine .head (.lineStart _ _ (n := [' ', ' ']) (by decide) (by decide)
      (by decide +kernel)) ?_
    rw [show ".define  A 6/ 2 // x\n".toList ++ ([' ', ' '] ++ ".program p".toList) =
      ".define".toList ++ ([' ', ' '] ++ "A 6/ 2 // x\n  .program p".toList) by decide +kernel,
      show t = ".define".toList ++ (['\t'] ++ "A 6/ 2 // x\n  .program p".toList) by decide +kernel]
    exact .single (.run _ _ (by decide) (by decide) (by decide) (by decide))
  exact ⟨hsteps, compile_relaid hsteps⟩

end PioFrontEnd
