import Mathlib.Data.List.Basic
import PioFrontEnd.Draft.Basic
import PioFrontEnd.Proofs.Grammar.Advance

/-!
# Errors in expressions point at the first misfit

Some tokens begin an expression that is accepted, and some cannot be right whatever follows them.
When an expression is refused, the fault is where the first token stands that cannot be right after
the tokens before it, or where the line ends if the line is only too short. What is said of it
depends on two things that can be seen in the tokens before it: whether an operand is due there, and
whether a parenthesis is open.

* `viable_iff_advance`: tokens begin an expression that is accepted exactly if all of them lead on,
  since every state can be completed.
* `Progress.Agrees.step`, `Progress.Agrees.start_advance`: the state of reading agrees with what can
  be seen in the tokens.
* `fault_at_first_misfit`: where the fault is and what it says.
-/

namespace PioFrontEnd.Expr

variable {ν : Type} {see : Text → Option ν} {tokens before : List Token} {token : Token}

open Progress

/-! ### Tokens that can be right -/

/-- Whether tokens are an expression that takes up a whole line. -/
def Accepts (see : Text → Option ν) (tokens : List Token) : Prop :=
  ∃ stop e, readToEnd see ⟨tokens, stop⟩ = .ok e

/-- Whether tokens begin an expression that is accepted. -/
def Viable (see : Text → Option ν) (tokens : List Token) : Prop :=
  ∃ more, Accepts see (tokens ++ more)

/-- Tokens are accepted exactly if they lead to a state that concludes. -/
theorem accepts_iff_advance : Accepts see tokens ↔
    ∃ progress e, start.advance see tokens = some progress ∧ progress.conclude = .ok e := by
  simp only [Accepts, readToEnd_eq_runToEnd, runToEnd_eq_ok_iff]
  constructor
  · rintro ⟨_, e, progress, hadvance, hconclude⟩
    exact ⟨progress, e, hadvance, hconclude⟩
  · rintro ⟨progress, e, hadvance, hconclude⟩
    exact ⟨⟨.endOfLine, ⟨0, 0⟩, []⟩, e, progress, hadvance, hconclude⟩

/-- After an operand the open parentheses can be closed. -/
theorem Progress.exists_completion_operandRead (see : Text → Option ν) (e : Expr ν)
    (group : Group ν) (outer : List (Group ν)) :
    ∃ more progress e', (operandRead e group outer).advance see more = some progress ∧
      progress.conclude = .ok e' := by
  induction outer generalizing e group with
  | nil => exact ⟨[], _, _, rfl, rfl⟩
  | cons around outer ih =>
    obtain ⟨more, progress, e', hadvance, hconclude⟩ := ih (settleAll true group e) around
    let closing : Token := ⟨.mark .closeParen, ⟨0, 0⟩, [')']⟩
    have hclose : (operandRead e group (around :: outer)).step see closing =
        .proceed (operandRead (settleAll true group e) around outer) :=
      step_operandRead_iff.2 (.inr ⟨around, outer, rfl, rfl, rfl⟩)
    exact ⟨closing :: more, progress, e', (advance_cons_of_proceed hclose more).trans hadvance,
      hconclude⟩

/-- Every state can be completed. -/
theorem Progress.exists_completion (see : Text → Option ν) (progress : Progress ν) :
    ∃ more progress' e, progress.advance see more = some progress' ∧
      progress'.conclude = .ok e := by
  cases progress with
  | operandRead e group outer => exact exists_completion_operandRead see e group outer
  | operandDue group outer =>
    let zero : Token := ⟨.number, ⟨0, 0⟩, ['0']⟩
    have hzero : (operandDue group outer).step see zero =
        .proceed (operandRead (.literal (Text.Decimal.value ['0'])) group outer) :=
      step_operandDue_iff.2 (.inl ⟨rfl, rfl⟩)
    obtain ⟨more, progress', e, hadvance, hconclude⟩ :=
      exists_completion_operandRead see (.literal (Text.Decimal.value ['0'])) group outer
    exact ⟨zero :: more, progress', e, (advance_cons_of_proceed hzero more).trans hadvance,
      hconclude⟩

/-- Tokens begin an expression that is accepted exactly if all of them lead on. -/
theorem viable_iff_advance : Viable see tokens ↔
    ∃ progress, (start : Progress ν).advance see tokens = some progress := by
  simp only [Viable, accepts_iff_advance, advance_append]
  constructor
  · rintro ⟨more, progress, e, hadvance, -⟩
    obtain ⟨progress', hfirst, -⟩ := Option.bind_eq_some_iff.1 hadvance
    exact ⟨progress', hfirst⟩
  · rintro ⟨progress, hfirst⟩
    obtain ⟨more, progress', e, hmore, hconclude⟩ := progress.exists_completion see
    exact ⟨more, progress', e, by rw [hfirst]; exact hmore, hconclude⟩

/-- What comes first in viable tokens is viable. -/
theorem Viable.earlier {earlier : List Token} (h : Viable see tokens)
    (hearlier : earlier <+: tokens) : Viable see earlier := by
  obtain ⟨rest, rfl⟩ := hearlier
  obtain ⟨more, haccepts⟩ := h
  exact ⟨rest ++ more, by rwa [← List.append_assoc]⟩

/-! ### What can be seen in the tokens before -/

/-- Whether a token is an opening parenthesis or an operator. -/
def AsksForOperand (token : Token) : Prop :=
  token.kind = .mark .openParen ∨ ∃ op : Operator, token.kind = .mark op.mark

/-- Whether an operand is due after tokens: at the beginning, and after an opening parenthesis or an
operator. -/
def OperandDue (tokens : List Token) : Prop := ∀ t ∈ tokens.getLast?, AsksForOperand t

/-- Whether more parentheses have been opened than closed. -/
def InParentheses (tokens : List Token) : Prop :=
  tokens.countP (·.kind = .mark .closeParen) < tokens.countP (·.kind = .mark .openParen)

/-- What is said of a token that cannot be right after the tokens before it. -/
inductive Blames (see : Text → Option ν) (before : List Token) (token : Token) : Cause → Prop where
  /-- A symbol that cannot be seen stands for an operand. -/
  | unknown (hdue : OperandDue before) (hkind : token.kind = .symbol)
    (hsee : see token.text = none) : Blames see before token (.unknownIdentifier token.text)
  /-- Something else stands for an operand. -/
  | noOperand (hdue : OperandDue before) (hother : token.kind = .symbol → see token.text ≠ none) :
    Blames see before token .expressionSyntax
  /-- A parenthesis is not closed after an operand. -/
  | unclosed (hread : ¬ OperandDue before) (hinside : InParentheses before) :
    Blames see before token .unclosedParenthesis
  /-- A token follows the whole expression. -/
  | trailing (hread : ¬ OperandDue before) (houtside : ¬ InParentheses before) :
    Blames see before token .trailingToken

/-- Whether an operand is due depends on the last token alone. -/
theorem operandDue_concat : OperandDue (before ++ [token]) ↔ AsksForOperand token := by
  simp [OperandDue]

/-- Whether a state of reading agrees with what can be seen in the tokens read. -/
def Progress.Agrees : Progress ν → List Token → Prop
  | operandDue _ outer, tokens =>
    OperandDue tokens ∧ tokens.countP (·.kind = .mark .openParen) =
      tokens.countP (·.kind = .mark .closeParen) + outer.length
  | operandRead _ _ outer, tokens =>
    ¬ OperandDue tokens ∧ tokens.countP (·.kind = .mark .openParen) =
      tokens.countP (·.kind = .mark .closeParen) + outer.length

/-- A token that is read keeps the state of reading in agreement with what has been read. -/
theorem Progress.Agrees.step {progress progress' : Progress ν} (h : progress.Agrees before)
    (hstep : progress.step see token = .proceed progress') :
    progress'.Agrees (before ++ [token]) := by
  cases progress with
  | operandDue group outer =>
    obtain ⟨-, hcount⟩ := h
    rcases step_operandDue_iff.1 hstep with ⟨hkind, rfl⟩ | ⟨hkind, n, -, rfl⟩ | ⟨hkind, rfl⟩
    · exact ⟨by simp [operandDue_concat, AsksForOperand, hkind], by simp [hkind, hcount]⟩
    · exact ⟨by simp [operandDue_concat, AsksForOperand, hkind], by simp [hkind, hcount]⟩
    · exact ⟨operandDue_concat.2 (.inl hkind), by simp [hkind, hcount, Nat.add_assoc]⟩
  | operandRead e group outer =>
    obtain ⟨-, hcount⟩ := h
    rcases step_operandRead_iff.1 hstep with ⟨op, hkind, rfl⟩ | ⟨around, outer, rfl, hkind, rfl⟩
    · exact ⟨operandDue_concat.2 (.inr ⟨op, hkind⟩), by simp [hkind, hcount]⟩
    · exact ⟨by simp [operandDue_concat, AsksForOperand, hkind, @eq_comm _ Mark.closeParen],
        by simp [hkind, hcount, Nat.add_assoc, Nat.add_comm 1]⟩

/-- The state that tokens lead to agrees with them. -/
theorem Progress.Agrees.start_advance {progress : Progress ν}
    (h : start.advance see tokens = some progress) : progress.Agrees tokens := by
  have hstart : (start : Progress ν).Agrees [] := ⟨fun t ht => (by cases ht), rfl⟩
  exact advance_invariant (P := Progress.Agrees) Progress.Agrees.step hstart h

/-- After an operand a parenthesis is open exactly if one can be seen. -/
theorem Progress.Agrees.inParentheses_iff {e : Expr ν} {group : Group ν} {outer : List (Group ν)}
    (h : (operandRead e group outer).Agrees tokens) : InParentheses tokens ↔ outer ≠ [] := by
  rw [InParentheses, h.2, ← List.length_pos_iff]
  omega

/-- What is said of a token that is refused. -/
theorem Progress.Agrees.blames {progress : Progress ν} {cause : Cause} (h : progress.Agrees before)
    (hrefusal : (progress.step see token).refusal? = some cause) :
    Blames see before token cause := by
  cases progress with
  | operandDue group outer =>
    rcases refusal_operandDue hrefusal with ⟨hkind, hsee, rfl⟩ | ⟨hother, rfl⟩
    · exact .unknown h.1 hkind hsee
    · exact .noOperand h.1 hother
  | operandRead e group outer =>
    rw [refusal_operandRead hrefusal]
    cases outer with
    | nil => exact .trailing h.1 (by simp [h.inParentheses_iff])
    | cons around outer => exact .unclosed h.1 (by simp [h.inParentheses_iff])

/-! ### Whole lines -/

/-- **A fault is found at the first misfit.** If an expression does not take up a line, then the fault
is where the first token stands with which the line no longer begins any expression that is
accepted, and says what kind of misfit it is; or the line is too short, and the fault is where it
ends. -/
theorem fault_at_first_misfit (d : Draft) (line : Line) (fault : Fault)
    (h : readToEnd d.see line = .error fault) :
    (∃ before token after cause, line.tokens = before ++ token :: after ∧
      (∀ earlier, earlier <+: before → Viable d.see earlier) ∧
      ¬ Viable d.see (before ++ [token]) ∧
      Blames d.see before token cause ∧ fault = ⟨cause, token.span.start⟩) ∨
    (Viable d.see line.tokens ∧ ¬ Accepts d.see line.tokens ∧
      ((OperandDue line.tokens ∧ fault = ⟨.expressionSyntax, line.stop.span.start⟩) ∨
        (¬ OperandDue line.tokens ∧ InParentheses line.tokens ∧
          fault = ⟨.unclosedParenthesis, line.stop.span.start⟩))) := by
  rw [readToEnd_eq_runToEnd] at h
  rcases refused_of_runToEnd h with
    ⟨before, token, after, progress, cause, htokens, hadvance, hrefusal, rfl⟩ |
    ⟨progress, cause, hadvance, hconclude, rfl⟩
  · have hviable : Viable d.see before := viable_iff_advance.2 ⟨progress, hadvance⟩
    refine .inl ⟨before, token, after, cause, htokens, fun earlier => hviable.earlier, ?_,
      (Progress.Agrees.start_advance hadvance).blames hrefusal, rfl⟩
    rw [viable_iff_advance, advance_concat hadvance, ← Step.refusal?_eq_none, hrefusal]
    simp
  · refine .inr ⟨viable_iff_advance.2 ⟨progress, hadvance⟩, ?_, ?_⟩
    · rw [accepts_iff_advance, hadvance]
      rintro ⟨progress', e, heq, hok⟩
      cases heq
      rw [hconclude] at hok
      cases hok
    · have hagrees := Progress.Agrees.start_advance hadvance
      cases progress with
      | operandDue group outer =>
        cases hconclude
        exact .inl ⟨hagrees.1, rfl⟩
      | operandRead e group outer =>
        cases outer with
        | nil => cases hconclude
        | cons around outer =>
          cases hconclude
          exact .inr ⟨hagrees.1, by simp [hagrees.inParentheses_iff], rfl⟩

/-- In `(1 + 2 3) * x` the numeral `3` is the first misfit. That the name `x` is unknown does not
matter any more. -/
theorem fault_at_second_operand :
    let line : Line := ⟨(TokenStream.ofText "(1 + 2 3) * x".toList).gather.1,
      ⟨.endOfFile, ⟨13, 13⟩, []⟩⟩
    readToEnd ({} : Draft).see line = .error ⟨.unclosedParenthesis, 7⟩ ∧
      ∃ before token after, line.tokens = before ++ token :: after ∧ token.span.start = 7 ∧
        (∀ earlier, earlier <+: before → Viable ({} : Draft).see earlier) ∧
        ¬ Viable ({} : Draft).see (before ++ [token]) := by
  intro line
  have hfault : readToEnd ({} : Draft).see line = .error ⟨.unclosedParenthesis, 7⟩ := by
    decide +kernel
  refine ⟨hfault, ?_⟩
  rcases fault_at_first_misfit {} line _ hfault with
    ⟨before, token, after, cause, htokens, hviable, hmisfit, -, hwhere⟩ |
    ⟨-, -, ⟨-, hend⟩ | ⟨-, -, hend⟩⟩
  · exact ⟨before, token, after, htokens, (Fault.mk.inj hwhere).2.symm, hviable, hmisfit⟩
  · cases hend
  · exact absurd (Fault.mk.inj hend).2 (by decide)

end PioFrontEnd.Expr
