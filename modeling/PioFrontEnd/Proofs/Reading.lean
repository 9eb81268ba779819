import PioFrontEnd.Statement

/-!
# What reading a statement depends on

A statement is read from the tokens of a line, and the only question that is put to the rest of the
compilation is which names are visible. So a reader that is told names in place of symbols reads the
same statement with names in place of symbols (`Statement.read_map`). From this alone it follows
that every name in what is read is one that was seen (`Statement.exists_see_of_read`): the reader
cannot tell whether the symbols it is given carry a proof of having been seen.

What is read is a program or a constant, and nothing of the line is left over
(`Statement.read_eq_program_or_define`). What cannot be read is reported at the beginning of a token
of the line, or at its end (`Statement.within_of_read`).
-/

namespace PioFrontEnd

variable {ν μ : Type}

/-! ### Renaming what is being read -/

namespace Expr

/-- The operand and its operator with other names. -/
def Waiting.map (f : ν → μ) (w : Waiting ν) : Waiting μ := ⟨w.op, w.left.map f⟩

/-- The group with other names. -/
def Group.map (f : ν → μ) (group : Group ν) : Group μ := List.map (Waiting.map f) group

/-- What has been read, with other names. -/
def Progress.map (f : ν → μ) : Progress ν → Progress μ
  | operandDue group outer => operandDue (group.map f) (outer.map (Group.map f))
  | operandRead e group outer => operandRead (e.map f) (group.map f) (outer.map (Group.map f))

/-- What a token does, with other names. -/
def Step.map (f : ν → μ) : Step ν → Step μ
  | proceed progress => proceed (progress.map f)
  | ended e => ended (e.map f)
  | fault cause => fault cause

/-- Operators that wait are settled alike with other names. -/
theorem settle_map (f : ν → μ) (inside : Bool) (bound : Nat) (group : Group ν) (e : Expr ν) :
    settle inside bound (group.map f) (e.map f) =
      ((settle inside bound group e).1.map f, (settle inside bound group e).2.map f) := by
  induction group generalizing e with
  | nil => rfl
  | cons w group ih =>
    by_cases hbound : bound ≤ w.op.tightness
    · have hjoin : join inside w.op (w.left.map f) (e.map f) =
          (join inside w.op w.left e).map f := rfl
      simp only [Group.map, List.map_cons, settle, Waiting.map, if_pos hbound, hjoin]
      exact ih _
    · simp only [Group.map, List.map_cons, settle, Waiting.map, if_neg hbound]

/-- All operators that wait are settled alike with other names. -/
theorem settleAll_map (f : ν → μ) (inside : Bool) (group : Group ν) (e : Expr ν) :
    settleAll inside (group.map f) (e.map f) = (settleAll inside group e).map f := by
  rw [settleAll, settle_map]
  rfl

namespace Progress

/-- A token does the same to what has been read under any names. -/
theorem step_map (f : ν → μ) (see : Text → Option ν) (progress : Progress ν) (token : Token) :
    (progress.map f).step (fun n => (see n).map f) token = (progress.step see token).map f := by
  cases progress with
  | operandDue group outer =>
    simp only [map, step, stepOperand]
    split
    · rfl
    · cases see token.text <;> rfl
    · rfl
    · rfl
  | operandRead e group outer =>
    simp only [map, step, stepOperator]
    cases operator? token with
    | some op =>
      have hinside : (!(outer.map (Group.map f)).isEmpty) = !outer.isEmpty := by simp
      simp only [hinside, settle_map]
      rfl
    | none =>
      cases outer with
      | nil => simp only [List.map_nil, settleAll_map, Step.map]
      | cons around outer =>
        simp only [List.map_cons]
        split
        · simp only [settleAll_map, Step.map, map]
        · rfl

/-- Reading ends with the same expression over other names, or for the same cause. -/
theorem conclude_map (f : ν → μ) (progress : Progress ν) :
    (progress.map f).conclude = progress.conclude.map (Expr.map f) := by
  cases progress with
  | operandDue group outer => rfl
  | operandRead e group outer =>
    cases outer with
    | nil => simp only [map, List.map_nil, conclude, settleAll_map, Except.map]
    | cons around outer => rfl

/-- Tokens are read alike if other names are seen in place of the names. -/
theorem run_map (f : ν → μ) (see : Text → Option ν) (stop : Token) (progress : Progress ν)
    (tokens : List Token) :
    (progress.map f).run (fun n => (see n).map f) stop tokens =
      (progress.run see stop tokens).map fun (e, line) => (e.map f, line) := by
  induction tokens generalizing progress with
  | nil =>
    simp only [run, conclude_map]
    cases progress.conclude <;> rfl
  | cons token tokens ih =>
    simp only [run, step_map]
    cases progress.step see token with
    | proceed progress => exact ih progress
    | ended e => rfl
    | fault cause => rfl

end Progress

/-- The same expression is read under any names. -/
theorem read_map (f : ν → μ) (see : Text → Option ν) (line : Line) :
    read (fun n => (see n).map f) line = (read see line).map fun (e, line) => (e.map f, line) :=
  Progress.run_map f see line.stop .start line.tokens

end Expr

namespace Statement

/-- The statement with other names in its expression. -/
def map (f : ν → μ) : Statement ν → Statement μ
  | program name => program name
  | define exported name expr => define exported name (expr.map f)

/-- The names in the expression of a statement. -/
def names : Statement ν → List ν
  | program _ => []
  | define _ _ expr => expr.names

/-- The names in a statement with other names are the other names, in the same order. -/
@[simp] theorem names_map (f : ν → μ) (s : Statement ν) : (s.map f).names = s.names.map f := by
  cases s with
  | program name => rfl
  | define exported name expr => exact Expr.names_map f expr

/-- A program is read alike whatever is visible, as there is no name to be looked up. -/
theorem readProgram_map (f : ν → μ) (site : Nat) (line : Line) :
    readProgram site line = (readProgram site line).map (map f) := by
  unfold readProgram
  cases line.read? .symbol with
  | none => rfl
  | some found =>
    cases hfinish : found.2.finish <;> simp only [hfinish] <;> rfl

/-- Reads what follows `.define` and its qualifier, or the lack of it. -/
def readConstant (see : Text → Option ν) (site : Nat) (exported : Bool) (line : Line) :
    Except Fault (Statement ν) :=
  match line.read? .symbol with
  | none => .error ⟨.defineSyntax, site⟩
  | some (name, line) => do
    let (expr, line) ← Expr.read see line
    line.finish
    return .define exported name.text expr

/-- The qualifier may be there or not. -/
theorem readDefine_eq (see : Text → Option ν) (site : Nat) (line : Line) :
    readDefine see site line =
      if line.peek.kind = .qualifier .exported then readConstant see site true line.rest
      else readConstant see site false line := by
  by_cases h : line.peek.kind = .qualifier .exported
  · have hread : line.read? (.qualifier .exported) = some (line.peek, line.rest) := if_pos h
    rw [if_pos h, readDefine, hread]
    rfl
  · have hread : line.read? (.qualifier .exported) = none := if_neg h
    rw [if_neg h, readDefine, hread]
    rfl

/-- What follows `.define` and its qualifier is read alike if other names are seen in place of the
names. -/
theorem readConstant_map (f : ν → μ) (see : Text → Option ν) (site : Nat) (exported : Bool)
    (line : Line) :
    readConstant (fun n => (see n).map f) site exported line =
      (readConstant see site exported line).map (map f) := by
  unfold readConstant
  cases line.read? .symbol with
  | none => rfl
  | some found =>
    obtain ⟨name, line⟩ := found
    simp only [Expr.read_map]
    cases Expr.read see line with
    | error fault => rfl
    | ok found =>
      obtain ⟨expr, line⟩ := found
      cases hfinish : line.finish <;>
        simp only [Except.map, bind, Except.bind, hfinish, pure, Except.pure, map]

/-- The same statement is read under any names. -/
theorem read_map (f : ν → μ) (see : Text → Option ν) (line : Line) :
    read (fun n => (see n).map f) line = (read see line).map (map f) := by
  unfold read
  dsimp only
  split
  · exact readProgram_map f _ _
  · rw [readDefine_eq, readDefine_eq]
    split <;> exact readConstant_map f see _ _ _
  · rfl

/-- Every name in a statement is one that was seen. -/
theorem exists_see_of_read {see : Text → Option ν} {line : Line} {s : Statement ν}
    (h : read see line = .ok s) : ∀ n ∈ s.names, ∃ t, see t = some n := by
  -- what is seen can be made to carry the fact that it was
  let see' : Text → Option { n // ∃ t, see t = some n } := fun t =>
    (see t).attachWith (fun n => ∃ t, see t = some n) fun n hn => ⟨t, hn⟩
  have hsee : see = fun t => (see' t).map Subtype.val := by
    funext t
    exact (Option.attachWith_map_subtype_val _ _).symm
  rw [hsee, read_map] at h
  cases hread : read see' line with
  | error fault =>
    rw [hread] at h
    cases h
  | ok s' =>
    rw [hread] at h
    cases h
    intro n hn
    rw [names_map, List.mem_map] at hn
    obtain ⟨⟨n', hseen⟩, -, rfl⟩ := hn
    exact hseen

end Statement

/-! ### What is read -/

/-- A result is handed on exactly if there is one. -/
theorem bind_eq_ok {ε α β : Type} {x : Except ε α} {f : α → Except ε β} {b : β} :
    (x >>= f) = .ok b ↔ ∃ a, x = .ok a ∧ f a = .ok b := by
  rcases x with fault | a
  · simp [bind, Except.bind]
  · simp only [bind, Except.bind, Except.ok.injEq, exists_eq_left']

namespace Line

/-- All tokens of a line, and the one that ends it. -/
def all (line : Line) : List Token := line.tokens ++ [line.stop]

/-- The token that comes next is one of a line, or its end. -/
theorem peek_mem_all (line : Line) : line.peek ∈ line.all := by
  obtain ⟨tokens, stop⟩ := line
  cases tokens <;> simp [peek, all]

/-- What is left of a line without its first token belongs to the line. -/
theorem all_rest_subset (line : Line) : line.rest.all ⊆ line.all :=
  List.append_subset.2 ⟨fun _ h => List.mem_append_left _ (List.mem_of_mem_tail h),
    List.subset_append_right _ _⟩

/-- Whether a line has been cut where tokens end a line. -/
def Ended (line : Line) : Prop :=
  line.stop.kind = .endOfLine ∨ line.stop.kind = .endOfFile

/-- A line keeps its end when its first token is read. -/
theorem Ended.rest {line : Line} (h : line.Ended) : line.rest.Ended := h

/-- What is seen at the front of a line stands there, unless it ends lines. -/
theorem Ended.tokens_eq_cons {line : Line} (h : line.Ended) {kind : TokenKind}
    (hpeek : line.peek.kind = kind) (hline : kind ≠ .endOfLine) (hfile : kind ≠ .endOfFile) :
    line.tokens = line.peek :: line.rest.tokens := by
  obtain ⟨tokens, stop⟩ := line
  cases tokens with
  | nil =>
    rcases h with h | h
    · exact absurd (hpeek.symm.trans h) hline
    · exact absurd (hpeek.symm.trans h) hfile
  | cons token tokens => rfl

/-- A line that is finished has no more tokens. -/
theorem tokens_of_finish {line : Line} (h : line.finish = .ok ()) : line.tokens = [] := by
  unfold finish isEmpty at h
  split at h
  · rename_i hempty
    exact List.isEmpty_iff.1 hempty
  · cases h

end Line

namespace Statement

variable {see : Text → Option ν} {line : Line} {site : Nat} {exported : Bool} {s : Statement ν}

/-- A program is read exactly if there is a symbol and nothing else. -/
theorem readProgram_eq_ok : readProgram site line = .ok s ↔
    line.peek.kind = .symbol ∧ line.rest.finish = .ok () ∧ s = .program line.peek.text := by
  unfold readProgram
  by_cases hkind : line.peek.kind = .symbol
  · have hname : line.read? .symbol = some (line.peek, line.rest) := if_pos hkind
    simp only [hname, bind_eq_ok, hkind, true_and]
    constructor
    · rintro ⟨_, hfinish, hs⟩
      exact ⟨hfinish, (Except.ok.inj hs).symm⟩
    · rintro ⟨hfinish, rfl⟩
      exact ⟨(), hfinish, rfl⟩
  · simp [Line.read?, hkind]

/-- A constant is read exactly if there is a symbol and an expression and nothing else. -/
theorem readConstant_eq_ok : readConstant see site exported line = .ok s ↔
    line.peek.kind = .symbol ∧ ∃ expr left, Expr.read see line.rest = .ok (expr, left) ∧
      left.finish = .ok () ∧ s = .define exported line.peek.text expr := by
  unfold readConstant
  by_cases hkind : line.peek.kind = .symbol
  · have hname : line.read? .symbol = some (line.peek, line.rest) := if_pos hkind
    simp only [hname, bind_eq_ok, hkind, true_and]
    constructor
    · rintro ⟨⟨expr, left⟩, hexpr, _, hfinish, hs⟩
      exact ⟨expr, left, hexpr, hfinish, (Except.ok.inj hs).symm⟩
    · rintro ⟨expr, left, hexpr, hfinish, rfl⟩
      exact ⟨(expr, left), hexpr, (), hfinish, rfl⟩
  · simp [Line.read?, hkind]

/-- What is read is a program, where the line begins one, or else a constant. -/
theorem read_eq_program_or_define (h : read see line = .ok s) :
    line.peek.kind = .directive .program ∧ readProgram line.peek.span.start line.rest = .ok s ∨
      line.peek.kind = .directive .define ∧ ∃ exported line', line'.all ⊆ line.all ∧
        readConstant see line.peek.span.start exported line' = .ok s := by
  unfold read at h
  dsimp only at h
  split at h
  · rename_i hkind
    exact .inl ⟨hkind, h⟩
  · rename_i hkind
    refine .inr ⟨hkind, ?_⟩
    rw [readDefine_eq] at h
    split at h
    · exact ⟨true, _, List.Subset.trans (Line.all_rest_subset _) line.all_rest_subset, h⟩
    · exact ⟨false, _, line.all_rest_subset, h⟩
  · cases h

end Statement

/-! ### Where a fault can be -/

/-- Whether a fault is at the beginning of a token of a line or of the one that ends it. -/
def Fault.Within (fault : Fault) (line : Line) : Prop := ∃ t ∈ line.all, fault.offset = t.span.start

/-- A fault within a line is within every line that has all tokens of that one. -/
theorem Fault.Within.mono {fault : Fault} {line line' : Line} (h : fault.Within line)
    (hall : line.all ⊆ line'.all) : fault.Within line' := by
  obtain ⟨t, ht, hoffset⟩ := h
  exact ⟨t, hall ht, hoffset⟩

/-- That a line goes on where it should end is reported at a token of it. -/
theorem Line.within_of_finish {line : Line} {fault : Fault} (h : line.finish = .error fault) :
    fault.Within line := by
  unfold finish at h
  split at h
  · cases h
  · cases h
    exact ⟨_, line.peek_mem_all, rfl⟩

/-- An expression is cut off the front of a line, or has its fault there. -/
theorem Expr.Progress.cut_of_run (see : Text → Option ν) (stop : Token) (progress : Progress ν)
    (tokens : List Token) :
    match progress.run see stop tokens with
    | .ok (_, line) => line.all ⊆ (⟨tokens, stop⟩ : Line).all
    | .error fault => fault.Within ⟨tokens, stop⟩ := by
  induction tokens generalizing progress with
  | nil =>
    rw [run]
    cases progress.conclude with
    | ok e => exact List.Subset.refl _
    | error cause => exact ⟨stop, by simp [Line.all], rfl⟩
  | cons token tokens ih =>
    have htail : (⟨tokens, stop⟩ : Line).all ⊆ (⟨token :: tokens, stop⟩ : Line).all :=
      Line.all_rest_subset ⟨token :: tokens, stop⟩
    rw [run]
    cases progress.step see token with
    | ended e => exact List.Subset.refl _
    | fault cause => exact ⟨token, by simp [Line.all], rfl⟩
    | proceed progress' =>
      have hrest := ih progress'
      dsimp only
      split <;> rename_i hrun <;> rw [hrun] at hrest
      · exact List.Subset.trans hrest htail
      · exact hrest.mono htail

namespace Statement

variable {see : Text → Option ν} {line : Line} {site : Nat} {fault : Fault}

/-- What is reported of a constant is at a token or at the directive. -/
theorem within_of_readConstant {exported : Bool}
    (h : readConstant see site exported line = .error fault) :
    fault.offset = site ∨ fault.Within line := by
  unfold readConstant Line.read? at h
  split at h
  · cases h
    exact .inl rfl
  · rename_i name line' hname
    split at hname <;> cases hname
    have hcut := Expr.Progress.cut_of_run see line.rest.stop .start line.rest.tokens
    refine .inr (Fault.Within.mono ?_ line.all_rest_subset)
    cases hread : Expr.read see line.rest with
    | error fault' =>
      rw [hread] at h
      cases h
      rw [← Expr.read, hread] at hcut
      exact hcut
    | ok found =>
      obtain ⟨expr, line''⟩ := found
      rw [hread] at h
      rw [← Expr.read, hread] at hcut
      refine Fault.Within.mono (Line.within_of_finish ?_) hcut
      cases hfinish : line''.finish with
      | error fault' =>
        simp only [bind, Except.bind, hfinish] at h
        cases h
        rfl
      | ok _ =>
        simp only [bind, Except.bind, hfinish] at h
        cases h

/-- What is reported of a program is at a token or at the directive. -/
theorem within_of_readProgram (h : readProgram (ν := ν) site line = .error fault) :
    fault.offset = site ∨ fault.Within line := by
  unfold readProgram Line.read? at h
  split at h
  · cases h
    exact .inl rfl
  · rename_i name line' hname
    split at hname <;> cases hname
    refine .inr (Fault.Within.mono (Line.within_of_finish ?_) line.all_rest_subset)
    cases hfinish : line.rest.finish with
    | error fault' =>
      simp only [bind, Except.bind, hfinish] at h
      cases h
      rfl
    | ok _ =>
      simp only [bind, Except.bind, hfinish] at h
      cases h

/-- What is reported of a line is at a token of it, or at its end. -/
theorem within_of_read (h : read see line = .error fault) : fault.Within line := by
  have hrest : ∀ {line' : Line}, line'.all ⊆ line.all →
      fault.offset = line.peek.span.start ∨ fault.Within line' → fault.Within line := by
    rintro line' hall (hoffset | hwithin)
    · exact ⟨_, line.peek_mem_all, hoffset⟩
    · exact hwithin.mono hall
  unfold read at h
  dsimp only at h
  split at h
  · exact hrest line.all_rest_subset (within_of_readProgram h)
  · rw [readDefine_eq] at h
    split at h
    · exact hrest (List.Subset.trans (Line.all_rest_subset _) line.all_rest_subset)
        (within_of_readConstant h)
    · exact hrest line.all_rest_subset (within_of_readConstant h)
  · cases h
    exact hrest (List.Subset.refl _) (.inl rfl)

end Statement

end PioFrontEnd
