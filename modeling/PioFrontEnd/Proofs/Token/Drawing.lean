import PioFrontEnd.Proofs.Token.Spelling
import PioFrontEnd.Token.Line

/-!
# What a stream draws, step by step

A stream looks at the front of its text and then does one of five things: it ends, it stops at a
fault, it passes over a gap, it passes over a line break that nothing was drawn before, or it draws
a token. This file has an equation for each of them, for one draw (`next?_of_…`) and for everything
that is drawn. What holds of all streams can be proved along these steps (`stepwise`), so nothing
else has to open the loop behind a draw.

* `stepwise`: what every step keeps holds of all streams.
* `ended_items`: tokens are drawn until the end of the source is drawn, or a fault.
-/

namespace PioFrontEnd

/-! ### Tokens within a line -/

/-- Whether a token stands within a line. -/
def TokenKind.IsContent (kind : TokenKind) : Prop := kind ≠ .endOfLine ∧ kind ≠ .endOfFile

instance (kind : TokenKind) : Decidable kind.IsContent :=
  inferInstanceAs (Decidable (kind ≠ .endOfLine ∧ kind ≠ .endOfFile))

namespace TokenStream

variable {s s' s₁ : TokenStream} {kind : TokenKind} {text rest : Text} {cause : Cause}
  {item : Except Fault Token} {tokens : List Token} {token : Token} {lineEnd : LineEnd}

/-! ### One draw -/

/-- A stream that has ended draws nothing. -/
theorem next?_of_finished (hs : s.finished = true) : s.next? = none := by
  rw [next?, if_pos hs]

/-- Where the text ends, the end of the source is drawn, and nothing after it. -/
theorem next?_of_ending (hs : s.finished = false) (h : front s.rest = .ending) :
    s.next? = some (.ok (s.tokenHere .endOfFile []), s.close) := by
  rw [next?, if_neg (by simp [hs])]
  split <;> simp_all

/-- A fault is drawn where it stands, and nothing after it. -/
theorem next?_of_fault (hs : s.finished = false) (h : front s.rest = .fault cause) :
    s.next? = some (.error ⟨cause, s.offset⟩, s.close) := by
  rw [next?, if_neg (by simp [hs])]
  split <;> simp_all

/-- A gap is passed over. -/
theorem next?_of_gap (hs : s.finished = false) (h : front s.rest = .gap text rest) :
    s.next? = (s.skip text rest).next? := by
  rw [next?, if_neg (by simp [hs])]
  split <;> simp_all

/-- A line break is passed over if nothing has been drawn on its line. -/
theorem next?_of_blankLine (hs : s.finished = false) (hfresh : s.freshLine = true)
    (h : front s.rest = .token .endOfLine text rest) :
    s.next? = (s.advance .endOfLine text rest).next? := by
  rw [next?, if_neg (by simp [hs])]
  split <;> simp_all

/-- Every other token is drawn where it stands. -/
theorem next?_of_token (hs : s.finished = false) (h : front s.rest = .token kind text rest)
    (hkeep : ¬ (kind = .endOfLine ∧ s.freshLine = true)) :
    s.next? = some (.ok (s.tokenHere kind text), s.advance kind text rest) := by
  rw [next?, if_neg (by simp [hs])]
  split <;> simp_all

/-! ### The tokens of a line -/

/-- A token within a line is gathered before those that follow. -/
theorem gather_of_content (hnext : s.next? = some (.ok token, s₁)) (hkind : token.kind.IsContent)
    (hgather : s₁.gather = (tokens, lineEnd, s')) : s.gather = (token :: tokens, lineEnd, s') := by
  rw [gather]
  split <;> simp_all [TokenKind.IsContent]

/-- A line ends where its line break is drawn, or the end of the source. -/
theorem gather_of_stop (hnext : s.next? = some (.ok token, s₁))
    (hkind : token.kind = .endOfLine ∨ token.kind = .endOfFile) :
    s.gather = ([], .token token, s₁) := by
  rw [gather]
  split <;> rcases hkind with hkind | hkind <;> simp_all

/-- Only the next token matters, as long as there is one. -/
theorem gather_congr (hnext : s.next? = s₁.next?) (hgather : s₁.gather = (tokens, lineEnd, s'))
    (hend : lineEnd ≠ .exhausted) : s.gather = (tokens, lineEnd, s') := by
  rw [gather] at hgather ⊢
  rw [hnext]
  split <;> split at hgather <;> simp_all

/-! ### Everything -/

/-- From a stream that draws nothing nothing is drawn. -/
theorem items_of_none (h : s.next? = none) : s.items = [] := by
  rw [items]
  split <;> simp_all

/-- What is drawn from a stream is what is drawn next and all that is drawn after it. -/
theorem items_of_some (h : s.next? = some (item, s')) : s.items = item :: s'.items := by
  rw [items]
  split <;> simp_all

/-- Streams that draw alike once draw alike from then on. -/
theorem items_congr (h : s.next? = s'.next?) : s.items = s'.items := by
  rcases hnext : s'.next? with _ | ⟨item, s₁⟩
  · rw [items_of_none hnext, items_of_none (h.trans hnext)]
  · rw [items_of_some hnext, items_of_some (h.trans hnext)]

/-- Nothing is drawn from a stream that has been closed. -/
theorem items_close (s : TokenStream) : s.close.items = [] :=
  items_of_none (next?_of_finished rfl)

/-- What every step keeps holds of all streams. In each case `s` is the stream before the step, and
what is known of the stream after it is the last premise. -/
theorem stepwise {motive : TokenStream → Prop}
    (finished : ∀ s : TokenStream, s.finished = true → s.items = [] → motive s)
    (ending : ∀ s : TokenStream, s.finished = false → s.rest = [] →
      s.items = [.ok (s.tokenHere .endOfFile [])] → motive s)
    (fault : ∀ (s : TokenStream) (cause : Cause), s.finished = false →
      front s.rest = .fault cause → s.items = [.error ⟨cause, s.offset⟩] → motive s)
    (gap : ∀ (s : TokenStream) (text rest : Text), s.finished = false →
      front s.rest = .gap text rest → s.items = (s.skip text rest).items →
      motive (s.skip text rest) → motive s)
    (blankLine : ∀ (s : TokenStream) (text rest : Text), s.finished = false →
      front s.rest = .token .endOfLine text rest → s.freshLine = true →
      s.items = (s.advance .endOfLine text rest).items →
      motive (s.advance .endOfLine text rest) → motive s)
    (token : ∀ (s : TokenStream) (kind : TokenKind) (text rest : Text), s.finished = false →
      front s.rest = .token kind text rest → ¬ (kind = .endOfLine ∧ s.freshLine = true) →
      s.items = .ok (s.tokenHere kind text) :: (s.advance kind text rest).items →
      motive (s.advance kind text rest) → motive s)
    (s : TokenStream) : motive s := by
  induction hn : s.rest.length using Nat.strongRecOn generalizing s with
  | ind n ih =>
    subst hn
    rcases hs : s.finished with _ | _
    · rcases hfront : front s.rest with _ | ⟨kind, text, rest⟩ | ⟨text, rest⟩ | cause
      · apply ending s hs (front_eq_ending.1 hfront)
        rw [items_of_some (next?_of_ending hs hfront), items_close]
      · have hrest := ih _ (length_lt_of_front_token hfront) (s.advance kind text rest) rfl
        by_cases hblank : kind = .endOfLine ∧ s.freshLine = true
        · obtain ⟨rfl, hfresh⟩ := hblank
          exact blankLine s text rest hs hfront hfresh
            (items_congr (next?_of_blankLine hs hfresh hfront)) hrest
        · exact token s kind text rest hs hfront hblank
            (items_of_some (next?_of_token hs hfront hblank)) hrest
      · exact gap s text rest hs hfront (items_congr (next?_of_gap hs hfront))
          (ih _ (length_lt_of_front_gap hfront) (s.skip text rest) rfl)
      · apply fault s cause hs hfront
        rw [items_of_some (next?_of_fault hs hfront), items_close]
    · exact finished s hs (items_of_none (next?_of_finished hs))

/-- After the end of the source nothing is drawn. -/
theorem finished_of_endOfFile (h : s.next? = some (.ok token, s'))
    (hkind : token.kind = .endOfFile) : s'.finished = true := by
  fun_induction next? s with
  | case1 s hs => cases h
  | case2 s hs hfront =>
    cases h
    rfl
  | case3 s hs cause hfront => cases h
  | case4 s hs text rest hfront ih => exact ih h
  | case5 s hs kind text rest hfront hblank ih => exact ih h
  | case6 s hs kind text rest hfront hblank =>
    cases h
    exact absurd hkind (kind_ne_endOfFile hfront)

end TokenStream

/-- Whether these are tokens up to the end of the source or a fault, and nothing more. -/
inductive Ended : List (Except Fault Token) → Prop where
  /-- The end of the source comes last. -/
  | endOfFile {t : Token} (h : t.kind = .endOfFile) : Ended [.ok t]
  /-- A fault comes last. -/
  | fault {f : Fault} : Ended [.error f]
  /-- First comes a token. -/
  | token {t : Token} {items : List (Except Fault Token)} (h : t.kind ≠ .endOfFile)
    (hrest : Ended items) : Ended (.ok t :: items)

/-- Tokens are drawn until the end of the source is drawn, or a fault. -/
theorem TokenStream.ended_items (s : TokenStream) (hs : s.finished = false) : Ended s.items := by
  induction s using stepwise with
  | finished s hfinished hitems =>
    rw [hs] at hfinished
    cases hfinished
  | ending s _ hnil hitems =>
    rw [hitems]
    exact .endOfFile rfl
  | fault s cause _ hfault hitems =>
    rw [hitems]
    exact .fault
  | gap s text rest _ hgap hitems ih =>
    rw [hitems]
    exact ih hs
  | blankLine s text rest _ hline hfresh hitems ih =>
    rw [hitems]
    exact ih hs
  | token s kind text rest _ htoken hkeep hitems ih =>
    rw [hitems]
    exact .token (kind_ne_endOfFile htoken) (ih hs)

end PioFrontEnd
