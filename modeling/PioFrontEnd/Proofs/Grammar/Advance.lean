import PioFrontEnd.Proofs.Reading

/-!
# Reading an expression token by token

An expression that takes up the rest of a line is read to the end of the line (`Expr.readToEnd`).
Tokens that belong to it lead from one state of reading to another (`Progress.advance`).

* `Progress.runToEnd_eq_ok_iff`: a line is read exactly if all of its tokens lead on and the state
  in which they end concludes with an expression.
* `Progress.refused_of_runToEnd`: otherwise there is a first token that is refused, or the end of
  the line is.
* `settle_settle`, `settle_of_looser`: when operands that wait are given their right operand.
-/

namespace PioFrontEnd

namespace Expr

variable {ν : Type}

/-! ### Settling -/

/-- Settling for a tighter operator first makes no difference. -/
theorem settle_settle {inside : Bool} {bound bound' : Nat} (h : bound ≤ bound') (group : Group ν)
    (e : Expr ν) :
    settle inside bound (settle inside bound' group e).2 (settle inside bound' group e).1 =
      settle inside bound group e := by
  induction group generalizing e with
  | nil => rfl
  | cons w group ih =>
    by_cases hw : bound' ≤ w.op.tightness
    · simp only [settle, if_pos hw, if_pos (Nat.le_trans h hw)]
      exact ih _
    · simp only [settle, if_neg hw]

/-- What binds less tightly goes on waiting. -/
theorem settle_of_looser {inside : Bool} {bound : Nat} {group : Group ν}
    (h : ∀ w ∈ group, w.op.tightness < bound) (e : Expr ν) :
    settle inside bound group e = (e, group) := by
  cases group with
  | nil => rfl
  | cons w group =>
    have hw := h w (by simp)
    rw [settle, if_neg (by omega)]

/-! ### One token -/

/-- The state that a token leads to, if it belongs to the expression. -/
def Step.progress? : Step ν → Option (Progress ν)
  | proceed progress => some progress
  | ended _ | fault _ => none

/-- Why a token is refused, if it is. A token before which the expression has ended is one too many
for a line that should hold nothing else. -/
def Step.refusal? : Step ν → Option Cause
  | proceed _ => none
  | ended _ => some .trailingToken
  | fault cause => some cause

/-- A token leads to a state exactly if reading proceeds with that state. -/
theorem Step.progress?_eq_some {step : Step ν} {progress : Progress ν} :
    step.progress? = some progress ↔ step = .proceed progress := by
  cases step <;> simp [progress?]

/-- A token is refused exactly if it leads nowhere. -/
theorem Step.refusal?_eq_none {step : Step ν} :
    step.refusal? = none ↔ ∃ progress, step.progress? = some progress := by
  cases step <;> simp [progress?, refusal?]

namespace Progress

variable {see : Text → Option ν} {token : Token} {e : Expr ν} {group : Group ν}
  {outer : List (Group ν)} {progress' : Progress ν}

/-- The operator of a mark is recognised. -/
theorem operator?_eq_some {op : Operator} :
    operator? token = some op ↔ token.kind = .mark op.mark := by
  unfold operator?
  cases token.kind with
  | mark m => simp [Operator.ofMark?_eq_some]
  | _ => simp

/-- What belongs to an expression where an operand is due: a number, a symbol that can be seen, or an
opening parenthesis. -/
theorem step_operandDue_iff : (operandDue group outer).step see token = .proceed progress' ↔
    (token.kind = .number ∧
      progress' = operandRead (.literal (Text.Decimal.value token.text)) group outer) ∨
    (token.kind = .symbol ∧ ∃ n, see token.text = some n ∧
      progress' = operandRead (.name n) group outer) ∨
    (token.kind = .mark .openParen ∧ progress' = operandDue [] (group :: outer)) := by
  simp only [step, stepOperand]
  cases hkind : token.kind with
  | number => simp [@eq_comm _ progress']
  | symbol => cases see token.text <;> simp [@eq_comm _ progress']
  | mark m => cases m <;> simp [@eq_comm _ progress']
  | _ => simp

/-- What belongs to an expression after an operand: an operator, which gives operands to all that
bind at least as tightly as it does and then waits, or the end of a parenthesis that is open. -/
theorem step_operandRead_iff : (operandRead e group outer).step see token = .proceed progress' ↔
    (∃ op : Operator, token.kind = .mark op.mark ∧
      progress' = operandDue (⟨op, (settle (!outer.isEmpty) op.tightness group e).1⟩ ::
        (settle (!outer.isEmpty) op.tightness group e).2) outer) ∨
    (∃ around outer', outer = around :: outer' ∧ token.kind = .mark .closeParen ∧
      progress' = operandRead (settleAll true group e) around outer') := by
  simp only [step, stepOperator, ← operator?_eq_some]
  cases hop : operator? token with
  | some op =>
    have hclose : token.kind ≠ .mark .closeParen := by
      simp [operator?_eq_some.1 hop]
    simp [hclose, @eq_comm _ progress']
  | none =>
    cases outer with
    | nil => simp
    | cons around outer =>
      by_cases hclose : token.kind = .mark .closeParen <;>
        simp [hclose, @eq_comm _ progress', and_assoc]

/-- What is refused where an operand is due: a symbol that cannot be seen, as an unknown name, and
anything else as no expression. -/
theorem refusal_operandDue {cause : Cause}
    (h : ((operandDue group outer).step see token).refusal? = some cause) :
    (token.kind = .symbol ∧ see token.text = none ∧ cause = .unknownIdentifier token.text) ∨
    ((token.kind = .symbol → see token.text ≠ none) ∧ cause = .expressionSyntax) := by
  simp only [step, stepOperand] at h
  cases hkind : token.kind with
  | symbol => cases hsee : see token.text <;> simp_all [Step.refusal?]
  | mark m => cases m <;> simp_all [Step.refusal?]
  | _ => simp_all [Step.refusal?]

/-- What is refused after an operand is one token too many, unless a parenthesis is open. -/
theorem refusal_operandRead {cause : Cause}
    (h : ((operandRead e group outer).step see token).refusal? = some cause) :
    cause = if outer.isEmpty then .trailingToken else .unclosedParenthesis := by
  simp only [step, stepOperator] at h
  cases hop : operator? token with
  | some op => simp [hop, Step.refusal?] at h
  | none =>
    cases outer with
    | nil => simpa [hop, Step.refusal?, eq_comm] using h
    | cons around outer =>
      by_cases hclose : token.kind = .mark .closeParen
      · simp [hop, hclose, Step.refusal?] at h
      · simpa [hop, hclose, Step.refusal?, eq_comm] using h

end Progress

/-! ### States that tokens lead to -/

namespace Progress

variable {see : Text → Option ν} {progress progress' : Progress ν} {stop token : Token}
  {tokens before : List Token} {e : Expr ν}

/-- The state that tokens lead to, if all of them belong to the expression. -/
def advance (see : Text → Option ν) (progress : Progress ν) (tokens : List Token) :
    Option (Progress ν) :=
  tokens.foldlM (fun progress token => (progress.step see token).progress?) progress

/-- The first token leads to a state from which the others lead on. -/
theorem advance_cons (see : Text → Option ν) (progress : Progress ν) (token : Token)
    (tokens : List Token) : progress.advance see (token :: tokens) =
      (progress.step see token).progress?.bind (·.advance see tokens) := rfl

/-- Once the first token has been read, the others lead on from there. -/
theorem advance_cons_of_proceed (h : progress.step see token = .proceed progress')
    (tokens : List Token) :
    progress.advance see (token :: tokens) = progress'.advance see tokens := by
  rw [advance_cons, h]
  rfl

/-- Tokens lead on from where those before them have led. -/
theorem advance_append (see : Text → Option ν) (progress : Progress ν) (tokens more : List Token) :
    progress.advance see (tokens ++ more) =
      (progress.advance see tokens).bind (·.advance see more) :=
  List.foldlM_append

/-- One more token. -/
theorem advance_concat (h : progress.advance see before = some progress') (token : Token) :
    progress.advance see (before ++ [token]) = (progress'.step see token).progress? := by
  rw [advance_append, h, Option.bind_some, advance_cons]
  exact Option.bind_fun_some _

/-- What holds of a state and what has been read goes on holding, if every token preserves it. -/
theorem advance_invariant {P : Progress ν → List Token → Prop}
    (hstep : ∀ {progress progress' : Progress ν} {read : List Token} {token : Token},
      P progress read → progress.step see token = .proceed progress' →
      P progress' (read ++ [token]))
    {read : List Token} (h : P progress read)
    (hadvance : progress.advance see tokens = some progress') : P progress' (read ++ tokens) := by
  induction tokens generalizing progress read with
  | nil =>
    cases hadvance
    rwa [List.append_nil]
  | cons token tokens ih =>
    rw [advance_cons] at hadvance
    obtain ⟨next, hnext, hrest⟩ := Option.bind_eq_some_iff.1 hadvance
    rw [List.append_cons]
    exact ih (hstep h (Step.progress?_eq_some.1 hnext)) hrest

/-- Reads on to the end of the line. -/
def runToEnd (see : Text → Option ν) (stop : Token) (progress : Progress ν) (tokens : List Token) :
    Except Fault (Expr ν) := do
  let (e, rest) ← progress.run see stop tokens
  rest.finish
  return e

/-- Where no token is left, the expression ends, or what is missing is reported at the end of the
line. -/
theorem runToEnd_nil : progress.runToEnd see stop [] =
    progress.conclude.mapError (⟨·, stop.span.start⟩) := by
  rw [runToEnd, run]
  cases progress.conclude <;> rfl

/-- A token is read, or is reported as one too many or as a fault. -/
theorem runToEnd_cons : progress.runToEnd see stop (token :: tokens) =
    match progress.step see token with
    | .proceed progress' => progress'.runToEnd see stop tokens
    | .ended _ => .error ⟨.trailingToken, token.span.start⟩
    | .fault cause => .error ⟨cause, token.span.start⟩ := by
  rw [runToEnd, run]
  cases progress.step see token <;> rfl

/-- A token that is refused is where reading fails. -/
theorem runToEnd_cons_of_refused {cause : Cause}
    (h : (progress.step see token).refusal? = some cause) :
    progress.runToEnd see stop (token :: tokens) = .error ⟨cause, token.span.start⟩ := by
  rw [runToEnd_cons]
  cases hstep : progress.step see token with
  | proceed progress' =>
    rw [hstep] at h
    cases h
  | ended e | fault cause' =>
    rw [hstep] at h
    cases h
    rfl

/-- Reading succeeds exactly if all tokens lead on and their end concludes. -/
theorem runToEnd_eq_ok_iff : progress.runToEnd see stop tokens = .ok e ↔
    ∃ progress', progress.advance see tokens = some progress' ∧ progress'.conclude = .ok e := by
  induction tokens generalizing progress with
  | nil =>
    rw [runToEnd_nil]
    constructor
    · intro h
      refine ⟨progress, rfl, ?_⟩
      cases hconclude : progress.conclude with
      | ok x =>
        rw [hconclude] at h
        cases h
        rfl
      | error cause =>
        rw [hconclude] at h
        cases h
    · rintro ⟨_, hsame, hconclude⟩
      cases hsame
      rw [hconclude]
      rfl
  | cons token tokens ih =>
    rw [runToEnd_cons, advance_cons]
    cases progress.step see token with
    | proceed progress' => exact ih
    | ended e' => simp [Step.progress?]
    | fault cause => simp [Step.progress?]

/-- Reading fails at the first token that is refused, or at the end. -/
theorem refused_of_runToEnd {fault : Fault}
    (h : progress.runToEnd see stop tokens = .error fault) :
    (∃ before token after progress' cause, tokens = before ++ token :: after ∧
      progress.advance see before = some progress' ∧
      (progress'.step see token).refusal? = some cause ∧ fault = ⟨cause, token.span.start⟩) ∨
    ∃ progress' cause, progress.advance see tokens = some progress' ∧
      progress'.conclude = .error cause ∧ fault = ⟨cause, stop.span.start⟩ := by
  induction tokens generalizing progress with
  | nil =>
    rw [runToEnd_nil] at h
    refine .inr ⟨progress, ?_⟩
    cases hconclude : progress.conclude with
    | ok e =>
      rw [hconclude] at h
      cases h
    | error cause =>
      rw [hconclude] at h
      cases h
      exact ⟨cause, rfl, rfl, rfl⟩
  | cons token tokens ih =>
    cases hrefusal : (progress.step see token).refusal? with
    | some cause =>
      rw [runToEnd_cons_of_refused hrefusal] at h
      cases h
      exact .inl ⟨[], token, tokens, progress, cause, rfl, rfl, hrefusal, rfl⟩
    | none =>
      obtain ⟨progress', hnext⟩ := Step.refusal?_eq_none.1 hrefusal
      have hstep := Step.progress?_eq_some.1 hnext
      rw [runToEnd_cons, hstep] at h
      have hfirst := advance_cons_of_proceed hstep
      rcases ih h with ⟨before, token', after, p, cause, rfl, hp, hlater, hfault⟩ |
        ⟨p, cause, hp, hconclude, hfault⟩
      · exact .inl ⟨token :: before, token', after, p, cause, rfl, (hfirst before).trans hp,
          hlater, hfault⟩
      · exact .inr ⟨p, cause, (hfirst tokens).trans hp, hconclude, hfault⟩

end Progress

/-- Reads an expression that takes up a whole line. -/
def readToEnd (see : Text → Option ν) (line : Line) : Except Fault (Expr ν) := do
  let (e, rest) ← read see line
  rest.finish
  return e

/-- A line is read to its end from the state in which nothing has been read. -/
theorem readToEnd_eq_runToEnd (see : Text → Option ν) (line : Line) :
    readToEnd see line = Progress.start.runToEnd see line.stop line.tokens := rfl

end Expr

/-- The expression of a constant takes up the rest of its line. -/
theorem Statement.readConstant_eq {ν : Type} {line line' : Line} {name : Token}
    (hname : line.read? .symbol = some (name, line')) (see : Text → Option ν) (site : Nat)
    (exported : Bool) :
    readConstant see site exported line =
      (Expr.readToEnd see line').map (.define exported name.text) := by
  rw [readConstant, hname, Expr.readToEnd]
  dsimp only
  cases Expr.read see line' with
  | error fault => rfl
  | ok found =>
    obtain ⟨e, rest⟩ := found
    simp only [bind, Except.bind]
    cases rest.finish <;> rfl

end PioFrontEnd
