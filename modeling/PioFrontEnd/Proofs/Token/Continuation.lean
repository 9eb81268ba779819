import PioFrontEnd.Proofs.Token.Boundary

/-!
# A text that goes on after a line break

A line break cuts a source in two: what is drawn before it does not depend on what comes after it,
and what is drawn after it is what would be drawn from that part alone, further on in the source.
Both hold because nothing that stands at the front of a text reaches over a line break, and because
a line break and the end of the text bound a word, a number and a comment alike
(`front_append_lineBreak`).

* `TokenStream.Moved.items`: a stream draws the same wherever in the source its text stands.
* `TokenStream.items_before`: what is drawn from a text that goes on after a line break, put
  together from the two parts (`splice`).
-/

namespace PioFrontEnd

/-! ### What has been drawn, further on -/

/-- The token with its place moved on. -/
def Token.moved (n : Nat) (t : Token) : Token :=
  { t with span := ⟨t.span.start + n, t.span.stop + n⟩ }

/-- The fault with its place moved on. -/
def Fault.moved (n : Nat) (f : Fault) : Fault := { f with offset := f.offset + n }

/-- What has been drawn, with its place moved on. -/
def movedItem (n : Nat) : Except Fault Token → Except Fault Token
  | .ok t => .ok (t.moved n)
  | .error f => .error (f.moved n)

/-- The token with its place changed. -/
def Token.placed (g : Nat → Nat) (t : Token) : Token :=
  { t with span := ⟨g t.span.start, g t.span.stop⟩ }

/-- The fault with its place changed. -/
def Fault.placed (g : Nat → Nat) (f : Fault) : Fault := { f with offset := g f.offset }

/-- What has been drawn, with its place changed. -/
def placedItem (g : Nat → Nat) : Except Fault Token → Except Fault Token
  | .ok t => .ok (t.placed g)
  | .error f => .error (f.placed g)

/-- What has been drawn but for its place: the kind and text of a token, or the cause of a fault. -/
def unplaced : Except Fault Token → Except Cause (TokenKind × Text)
  | .ok t => .ok (t.kind, t.text)
  | .error f => .error f.cause

/-- What is moved on is the same but for its place. -/
theorem unplaced_movedItem (n : Nat) (item : Except Fault Token) :
    unplaced (movedItem n item) = unplaced item := by
  rcases item with fault | token <;> rfl

/-- The line break that stands where a text ended before it went on. -/
def Token.lineBreak (t : Token) : Token := ⟨.endOfLine, ⟨t.span.start, t.span.start + 1⟩, ['\n']⟩

/-- What is drawn from a text that goes on after a line break, given what is drawn from its two
parts. -/
def splice (later : List (Except Fault Token)) :
    Bool → List (Except Fault Token) → List (Except Fault Token)
  | _, [] => []
  | _, .error fault :: _ => [.error fault]
  | fresh, .ok token :: items =>
    if token.kind = .endOfFile then (if fresh then later else .ok token.lineBreak :: later)
    else .ok token :: splice later (token.kind = .endOfLine) items

namespace TokenStream

variable {s s' : TokenStream}

/-- The streams have the same text before them, at places that are so far apart. -/
structure Moved (n : Nat) (s s' : TokenStream) : Prop where
  /-- The text is the same. -/
  rest : s'.rest = s.rest
  /-- The offset of the text is not. -/
  offset : s'.offset = s.offset + n
  /-- Line breaks are passed over alike. -/
  freshLine : s'.freshLine = s.freshLine
  /-- Either both are at their end or neither. -/
  finished : s'.finished = s.finished

namespace Moved

variable {n : Nat}

/-- Streams that are moved against each other stay so when both pass over a gap. -/
theorem skip (h : Moved n s s') (text rest : Text) :
    Moved n (s.skip text rest) (s'.skip text rest) := by
  refine ⟨rfl, ?_, h.freshLine, h.finished⟩
  simp only [TokenStream.skip, h.offset]
  omega

/-- Streams that are moved against each other stay so when both draw a token. -/
theorem advance (h : Moved n s s') (kind : TokenKind) (text rest : Text) :
    Moved n (s.advance kind text rest) (s'.advance kind text rest) := by
  refine ⟨rfl, ?_, rfl, h.finished⟩
  simp only [TokenStream.advance, h.offset]
  omega

/-- What is drawn further on is the same token, moved. -/
theorem tokenHere (h : Moved n s s') (kind : TokenKind) (text : Text) :
    s'.tokenHere kind text = (s.tokenHere kind text).moved n := by
  have hstop : s.offset + n + Text.byteSize text = s.offset + Text.byteSize text + n := by omega
  simp only [TokenStream.tokenHere, Token.moved, h.offset, hstop]

/-- The same is drawn, at places that are so far apart. -/
theorem items (h : Moved n s s') : s'.items = s.items.map (movedItem n) := by
  induction s using stepwise generalizing s' with
  | finished s hs hitems =>
    rw [hitems, items_of_none (next?_of_finished (h.finished.trans hs))]
    rfl
  | ending s hs hnil hitems =>
    have hfront : front s'.rest = .ending := front_eq_ending.2 (h.rest.trans hnil)
    rw [hitems, items_of_some (next?_of_ending (h.finished.trans hs) hfront), items_close,
      h.tokenHere]
    rfl
  | fault s cause hs hfront hitems =>
    rw [← h.rest] at hfront
    rw [hitems, items_of_some (next?_of_fault (h.finished.trans hs) hfront), items_close, h.offset]
    rfl
  | gap s text rest hs hfront hitems ih =>
    rw [← h.rest] at hfront
    rw [hitems, items_congr (next?_of_gap (h.finished.trans hs) hfront), ih (h.skip text rest)]
  | blankLine s text rest hs hfront hfresh hitems ih =>
    rw [← h.rest] at hfront
    rw [hitems, items_congr (next?_of_blankLine (h.finished.trans hs) (h.freshLine.trans hfresh)
      hfront), ih (h.advance _ text rest)]
  | token s kind text rest hs hfront hkeep hitems ih =>
    rw [← h.rest] at hfront
    rw [← h.freshLine] at hkeep
    rw [hitems, items_of_some (next?_of_token (h.finished.trans hs) hfront hkeep),
      ih (h.advance kind text rest), h.tokenHere]
    rfl

/-- The same is drawn but for the place. -/
theorem unplaced_items (h : Moved n s s') : s'.items.map unplaced = s.items.map unplaced := by
  rw [h.items, List.map_map]
  exact List.map_congr_left fun item _ => unplaced_movedItem n item

end Moved

/-- A gap at the front of a stream makes no difference but for the place. -/
theorem unplaced_items_of_gap (hs : s.finished = false) {text rest : Text}
    (h : front s.rest = .gap text rest) :
    s.items.map unplaced = { s with rest := rest }.items.map unplaced := by
  have hmoved : Moved (Text.byteSize text) { s with rest := rest } (s.skip text rest) :=
    ⟨rfl, rfl, rfl, rfl⟩
  rw [items_congr (next?_of_gap hs h), hmoved.unplaced_items]

/-- The stream of a text that goes on. -/
def before (tail : Text) (s : TokenStream) : TokenStream := { s with rest := s.rest ++ tail }

/-- What stands at the front stands there also if a line break and more come after the text. -/
theorem front_before {f : Front} (h : front s.rest = f) (hf : f ≠ .ending) (t : Text) :
    front (s.before ('\n' :: t)).rest = f.before ('\n' :: t) := by
  subst h
  exact front_append_lineBreak (fun hnil => hf (front_eq_ending.2 hnil)) t

/-- What is drawn from a text that goes on after a line break. -/
theorem items_before (s : TokenStream) (t : Text) (hs : s.finished = false) :
    (s.before ('\n' :: t)).items =
      splice ((ofText t).items.map (movedItem (s.offset + Text.byteSize s.rest + 1)))
        s.freshLine s.items := by
  have hsize : ∀ {s : TokenStream} {text rest : Text}, text ++ rest = s.rest →
      s.offset + Text.byteSize text + Text.byteSize rest = s.offset + Text.byteSize s.rest := by
    intro s text rest hdivides
    rw [← hdivides, Text.byteSize_append, Nat.add_assoc]
  induction s using stepwise with
  | finished s hfinished hitems =>
    rw [hs] at hfinished
    cases hfinished
  | ending s _ hnil hitems =>
    have hbreak : front (s.before ('\n' :: t)).rest = .token .endOfLine ['\n'] t := by
      show front (s.rest ++ '\n' :: t) = _
      rw [hnil]
      exact front_lineBreak t
    have hmoved : Moved (s.offset + 1) (ofText t)
        ((s.before ('\n' :: t)).advance .endOfLine ['\n'] t) :=
      ⟨rfl, (Nat.zero_add _).symm, rfl, hs⟩
    rw [hitems, hnil, Text.byteSize_nil, Nat.add_zero, ← hmoved.items]
    rcases hfresh : s.freshLine with _ | _
    · have hkeep : ¬ (TokenKind.endOfLine = .endOfLine ∧ s.freshLine = true) := by simp [hfresh]
      rw [items_of_some (next?_of_token (s := s.before ('\n' :: t)) hs hbreak hkeep)]
      rfl
    · rw [items_congr (next?_of_blankLine (s := s.before ('\n' :: t)) hs hfresh hbreak)]
      rfl
  | fault s cause _ hfault hitems =>
    have hbefore := front_before hfault (by simp) t
    rw [hitems, items_of_some (next?_of_fault (s := s.before ('\n' :: t)) hs hbefore), items_close]
    rfl
  | gap s text rest _ hgap hitems ih =>
    have hbefore := front_before hgap (by simp) t
    have hdivides := divides_front s.rest
    rw [hgap] at hdivides
    rw [hitems, items_congr (next?_of_gap (s := s.before ('\n' :: t)) hs hbefore),
      ← hsize hdivides.1]
    exact ih hs
  | blankLine s text rest _ hline hfresh hitems ih =>
    have hbefore := front_before hline (by simp) t
    have hdivides := divides_front s.rest
    rw [hline] at hdivides
    rw [hitems, items_congr (next?_of_blankLine (s := s.before ('\n' :: t)) hs hfresh hbefore),
      ← hsize hdivides.1, hfresh]
    exact ih hs
  | token s kind text rest _ htoken hkeep hitems ih =>
    have hbefore := front_before htoken (by simp) t
    have hdivides := divides_front s.rest
    rw [htoken] at hdivides
    have hkind : (s.tokenHere kind text).kind ≠ .endOfFile := kind_ne_endOfFile htoken
    rw [hitems, items_of_some (next?_of_token (s := s.before ('\n' :: t)) hs hbefore hkeep),
      ← hsize hdivides.1, splice, if_neg hkind]
    exact congrArg _ (ih hs)

end TokenStream

end PioFrontEnd
