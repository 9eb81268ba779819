import PioFrontEnd.Proofs.ByName.Basic
import PioFrontEnd.Proofs.Reading
import PioFrontEnd.Proofs.Token.Continuation

/-!
# The lines that tokens make

A stream is read line by line, and each line is drawn token by token. The same lines come out when
all tokens are drawn first and then cut where a line ends (`linesOf`), so what is known of the
tokens of a source carries over to its lines.

* `TokenStream.lines_eq_linesOf`: the lines of a stream are made of what is drawn from it.
* `TokenStream.ended_of_mem_lines`: each of them ends with a line break or the end of the source.
* `linesOf_placedItem`: the same lines are made of the same tokens in other places.
* `foldl_linesOf_splice`: what takes the lines of a text that goes on takes those of its first part
  and then the later ones.
-/

namespace PioFrontEnd

/-- The lines that are made of what is drawn, if these tokens have been drawn before. -/
def linesOf (pending : List Token) : List (Except Fault Token) → List (Except Fault Line)
  | [] => []
  | .error fault :: items => .error fault :: linesOf [] items
  | .ok token :: items =>
    if token.kind = .endOfLine then .ok ⟨pending, token⟩ :: linesOf [] items
    else if token.kind = .endOfFile then
      if pending.isEmpty then [] else [.ok ⟨pending, token⟩]
    else linesOf (pending ++ [token]) items

/-- The lines that begin with these tokens, given what ends them and what is drawn after that. -/
def LineEnd.linesBefore (tokens : List Token) (later : List (Except Fault Token)) :
    LineEnd → List (Except Fault Line)
  | .token stop =>
    if tokens.isEmpty ∧ stop.kind = .endOfFile then [] else .ok ⟨tokens, stop⟩ :: linesOf [] later
  | .fault f => .error f :: linesOf [] later
  | .exhausted => []

namespace TokenStream

variable {s s' : TokenStream}

/-- What is drawn up to the end of a line makes one line. -/
theorem linesOf_of_gather {tokens : List Token} {lineEnd : LineEnd}
    (h : s.gather = (tokens, lineEnd, s')) (pending : List Token) :
    linesOf pending s.items = lineEnd.linesBefore (pending ++ tokens) s'.items := by
  fun_induction gather s generalizing pending tokens with
  | case1 s hnext =>
    cases h
    rw [items_of_none hnext]
    rfl
  | case2 s fault s₁ hnext =>
    cases h
    rw [items_of_some hnext]
    rfl
  | case3 s token s₁ hnext hkind =>
    cases h
    rw [items_of_some hnext, linesOf, if_pos hkind, List.append_nil, LineEnd.linesBefore, hkind]
    rw [if_neg fun hboth => TokenKind.noConfusion hboth.2]
  | case4 s token s₁ hnext hkind =>
    cases h
    have hdone : s'.items = [] :=
      items_of_none (next?_of_finished (finished_of_endOfFile hnext hkind))
    rw [items_of_some hnext, hdone, linesOf, if_neg (by rw [hkind]; exact TokenKind.noConfusion),
      if_pos hkind, List.append_nil, LineEnd.linesBefore]
    simp only [hkind, and_true]
    rfl
  | case5 s token s₁ hnext tokens₂ end₂ s₂ hgather hline hfile ih =>
    cases h
    rw [items_of_some hnext, linesOf, if_neg hline, if_neg hfile, ih hgather, List.append_assoc,
      List.singleton_append]

/-- The lines of a stream are made of what is drawn from it. -/
theorem lines_eq_linesOf (s : TokenStream) : s.lines = linesOf [] s.items := by
  fun_induction lines s with
  | case1 s s₁ hnext =>
    rcases hgather : s.gather with ⟨tokens, stop | fault | _, s₂⟩
    · simp only [nextLine, hgather] at hnext
      split at hnext
      · rename_i hnone
        rw [linesOf_of_gather hgather, LineEnd.linesBefore, List.nil_append, if_pos hnone]
      · cases hnext
    · simp only [nextLine, hgather] at hnext
      cases hnext
    · rw [linesOf_of_gather hgather, LineEnd.linesBefore]
  | case2 s line s₁ hnext ih =>
    rw [ih]
    rcases hgather : s.gather with ⟨tokens, stop | fault | _, s₂⟩
    · simp only [nextLine, hgather] at hnext
      split at hnext
      · cases hnext
      · rename_i hsome
        cases hnext
        rw [linesOf_of_gather hgather, LineEnd.linesBefore, List.nil_append, if_neg hsome]
    · simp only [nextLine, hgather] at hnext
      cases hnext
      rw [linesOf_of_gather hgather, LineEnd.linesBefore]
    · simp only [nextLine, hgather] at hnext
      cases hnext

end TokenStream

/-- The lines that tokens make are ended. -/
theorem Line.ended_of_mem_linesOf {pending : List Token} {items : List (Except Fault Token)}
    {line : Line} (h : .ok line ∈ linesOf pending items) : line.Ended := by
  induction items generalizing pending with
  | nil => cases h
  | cons item items ih =>
    rcases item with fault | token
    · rcases List.mem_cons.1 h with hfault | h
      · cases hfault
      · exact ih h
    · rw [linesOf] at h
      split at h
      · rename_i hline
        rcases List.mem_cons.1 h with hsame | h
        · cases hsame
          exact .inl hline
        · exact ih h
      · split at h
        · rename_i hfile
          split at h
          · cases h
          · cases List.mem_singleton.1 h
            exact .inr hfile
        · exact ih h

/-- Faults among the lines are faults among the tokens. -/
theorem error_mem_of_mem_linesOf {pending : List Token} {items : List (Except Fault Token)}
    {fault : Fault} (h : .error fault ∈ linesOf pending items) : .error fault ∈ items := by
  induction items generalizing pending with
  | nil => cases h
  | cons item items ih =>
    rcases item with fault' | token
    · rcases List.mem_cons.1 h with heq | h
      · cases heq
        exact List.mem_cons_self
      · exact List.mem_cons_of_mem _ (ih h)
    · rw [linesOf] at h
      split at h
      · rcases List.mem_cons.1 h with heq | h
        · cases heq
        · exact List.mem_cons_of_mem _ (ih h)
      · split at h
        · split at h
          · cases h
          · cases List.mem_singleton.1 h
        · exact List.mem_cons_of_mem _ (ih h)

/-- Every line of a stream is ended. -/
theorem TokenStream.ended_of_mem_lines {s : TokenStream} {line : Line} (h : .ok line ∈ s.lines) :
    line.Ended := by
  rw [lines_eq_linesOf] at h
  exact Line.ended_of_mem_linesOf h

/-- The line, or the fault in place of it, with its place moved on. -/
def movedLine (n : Nat) : Except Fault Line → Except Fault Line
  | .ok line => .ok ⟨line.tokens.map (Token.moved n), line.stop.moved n⟩
  | .error f => .error (f.moved n)

/-- The line, or the fault in place of it, with its place changed. -/
def placedLine (g : Nat → Nat) : Except Fault Line → Except Fault Line
  | .ok line => .ok ⟨line.tokens.map (Token.placed g), line.stop.placed g⟩
  | .error f => .error (f.placed g)

/-- The same lines are made of the same tokens in other places. -/
theorem linesOf_placedItem (g : Nat → Nat) (pending : List Token)
    (items : List (Except Fault Token)) :
    linesOf (pending.map (Token.placed g)) (items.map (placedItem g)) =
      (linesOf pending items).map (placedLine g) := by
  induction items generalizing pending with
  | nil => rfl
  | cons item items ih =>
    rcases item with fault | token
    · exact congrArg _ (ih [])
    · have hkind : (token.placed g).kind = token.kind := rfl
      simp only [List.map_cons, placedItem, linesOf, hkind]
      by_cases hline : token.kind = .endOfLine
      · rw [if_pos hline, if_pos hline]
        exact congrArg _ (ih [])
      · rw [if_neg hline, if_neg hline]
        by_cases hfile : token.kind = .endOfFile
        · rw [if_pos hfile, if_pos hfile, List.isEmpty_map]
          split <;> rfl
        · rw [if_neg hfile, if_neg hfile, ← ih, List.map_append]
          rfl

/-- The same lines are made of the same tokens further on. -/
theorem linesOf_movedItem (n : Nat) (pending : List Token) (items : List (Except Fault Token)) :
    linesOf (pending.map (Token.moved n)) (items.map (movedItem n)) =
      (linesOf pending items).map (movedLine n) :=
  linesOf_placedItem (· + n) pending items

/-- What takes lines one after another takes those of a text that goes on as the lines of its first
part and then the later ones, if it takes a line alike whether a line break or the source ends it,
and takes nothing after a fault. -/
theorem foldl_linesOf_splice {σ : Type} {f : σ → Except Fault Line → σ}
    (hbreak : ∀ (x : σ) (tokens : List Token) (stop : Token), stop.kind = .endOfFile →
      f x (.ok ⟨tokens, stop.lineBreak⟩) = f x (.ok ⟨tokens, stop⟩))
    {items : List (Except Fault Token)} (h : Ended items)
    (hfault : ∀ fault, .error fault ∈ items → ∀ (x : σ) (lines : List (Except Fault Line)),
      lines.foldl f (f x (.error fault)) = f x (.error fault))
    (x : σ) (pending : List Token) (later : List (Except Fault Token)) :
    (linesOf pending (splice later pending.isEmpty items)).foldl f x =
      (linesOf [] later).foldl f ((linesOf pending items).foldl f x) := by
  induction h generalizing x pending with
  | @endOfFile stop hstop =>
    have hline : stop.kind ≠ .endOfLine := by simp [hstop]
    rw [splice, if_pos hstop, linesOf, if_neg hline, if_pos hstop]
    rcases pending with _ | ⟨token, tokens⟩
    · rfl
    · -- where the text ended its last line, a line break ends it
      show (linesOf [] later).foldl f (f x (.ok ⟨token :: tokens, stop.lineBreak⟩)) = _
      rw [hbreak x _ _ hstop]
      rfl
  | @fault fault => exact (hfault fault List.mem_cons_self x _).symm
  | @token t items hfile hrest ih =>
    have hfault' := fun fault hmem => hfault fault (List.mem_cons_of_mem _ hmem)
    rw [splice, if_neg hfile]
    by_cases hline : t.kind = .endOfLine
    · rw [linesOf, if_pos hline, linesOf, if_pos hline, hline]
      exact ih hfault' (f x (.ok ⟨pending, t⟩)) []
    · have hfresh : decide (t.kind = .endOfLine) = (pending ++ [t]).isEmpty := by
        simp [hline]
      rw [linesOf, if_neg hline, if_neg hfile, linesOf, if_neg hline, if_neg hfile, hfresh]
      exact ih hfault' x (pending ++ [t])

/-! ### A text without line breaks -/

/-- No line break is drawn from a text that has none. -/
theorem TokenStream.kind_ne_endOfLine (s : TokenStream) (h : '\n' ∉ s.rest) :
    ∀ token, .ok token ∈ s.items → token.kind ≠ .endOfLine := by
  induction s using stepwise with
  | finished s _ hitems =>
    rw [hitems]
    exact fun token hmem => absurd hmem List.not_mem_nil
  | ending s _ hnil hitems =>
    intro token hmem
    rw [hitems, List.mem_singleton] at hmem
    cases hmem
    exact TokenKind.noConfusion
  | fault s cause _ hfault hitems =>
    intro token hmem
    rw [hitems, List.mem_singleton] at hmem
    cases hmem
  | gap s text rest _ hgap hitems ih =>
    have hdivides := divides_front s.rest
    rw [hgap] at hdivides
    rw [← hdivides.1] at h
    rw [hitems]
    exact ih fun hbreak => h (List.mem_append_right _ hbreak)
  | blankLine s text rest _ hline hfresh hitems ih =>
    have hdivides := divides_front s.rest
    have hkeeps := keepsLines_front s.rest
    rw [hline] at hdivides hkeeps
    rw [Front.KeepsLines, if_pos rfl] at hkeeps
    rw [← hdivides.1, hkeeps] at h
    exact absurd List.mem_cons_self h
  | token s kind text rest _ htoken _ hitems ih =>
    have hdivides := divides_front s.rest
    have hkeeps := keepsLines_front s.rest
    rw [htoken] at hdivides hkeeps
    rw [← hdivides.1] at h
    have hkind : kind ≠ .endOfLine := by
      intro hline
      rw [Front.KeepsLines, if_pos hline] at hkeeps
      rw [hkeeps] at h
      exact h List.mem_cons_self
    intro token hmem
    rw [hitems] at hmem
    rcases List.mem_cons.1 hmem with hhere | hmem
    · cases hhere
      exact hkind
    · exact ih (fun hbreak => h (List.mem_append_right _ hbreak)) token hmem

/-- Without line breaks there is one line at most. -/
theorem linesOf_of_kind_ne_endOfLine {items : List (Except Fault Token)} (hended : Ended items)
    (h : ∀ token, .ok token ∈ items → token.kind ≠ .endOfLine) (pending : List Token) :
    linesOf pending items = [] ∨ ∃ item, linesOf pending items = [item] := by
  induction hended generalizing pending with
  | @endOfFile stop hstop =>
    rw [linesOf, if_neg (h stop List.mem_cons_self), if_pos hstop]
    rcases pending with _ | ⟨token, tokens⟩
    · exact .inl rfl
    · exact .inr ⟨_, rfl⟩
  | @fault f => exact .inr ⟨.error f, rfl⟩
  | @token t items hfile hrest ih =>
    rw [linesOf, if_neg (h t List.mem_cons_self), if_neg hfile]
    exact ih (fun token hmem => h token (List.mem_cons_of_mem _ hmem)) _

end PioFrontEnd
