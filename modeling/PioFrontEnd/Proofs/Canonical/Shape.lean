import PioFrontEnd.Expr.Printing
import PioFrontEnd.Expr.Reading

/-!
# The shape of expressions that are read

Not every expression can come out of the reader. Inside parentheses everything but a product or a
quotient is flagged, and outside nothing is flagged, so that there the tightness of the operators
has to say what belongs together (`Expr.Shaped`). The canonical form puts back what the flags and
the tightness say. It loses the grouping of products and quotients, which are never flagged:
`Expr.regroup` groups them from the left, as they will be read.

* `shaped_of_read`: what is read has this shape.
* `regroup_eq_self_iff`: an expression of this shape is what it is regrouped into exactly if no
  product or quotient is the right operand of one (`Expr.Straight`).
* `print_regroup`: regrouping is not visible in the canonical form.
-/

namespace PioFrontEnd.Expr

variable {ν : Type}

/-! ### Shapes -/

/-- How tightly an expression holds together: as tightly as its operator, or more tightly than any
operator if it is a single operand or is flagged for parentheses. -/
def grip : Expr ν → Nat
  | literal _ | name _ => 5
  | binary op _ _ p => if p then 5 else op.tightness

/-- Whether an expression has a shape that is read inside parentheses, or outside. -/
def Shaped (inside : Bool) : Expr ν → Prop
  | literal _ | name _ => True
  | binary op l r p =>
    if op.isMultiplicative ∨ inside = true ∨ p = true then
      p = !op.isMultiplicative ∧ Shaped true l ∧ Shaped true r
    else Shaped false l ∧ Shaped false r ∧ op.tightness ≤ l.grip ∧ op.tightness < r.grip

/-- Whether an expression is a product or a quotient. -/
def isMultiplicative : Expr ν → Bool
  | binary op _ _ _ => op.isMultiplicative
  | _ => false

/-- The literals of an expression, from left to right. -/
def literals : Expr ν → List Int32
  | literal v => [v]
  | name _ => []
  | binary _ l r _ => l.literals ++ r.literals

/-- Whether no product or quotient is the right operand of one. -/
def Straight : Expr ν → Prop
  | literal _ | name _ => True
  | binary op l r _ =>
    l.Straight ∧ r.Straight ∧ ¬ (op.isMultiplicative = true ∧ r.isMultiplicative = true)

instance decidableStraight : (e : Expr ν) → Decidable e.Straight
  | literal _ | name _ => .isTrue trivial
  | binary op l r _ =>
    have := decidableStraight l
    have := decidableStraight r
    inferInstanceAs (Decidable (_ ∧ _ ∧ ¬ (op.isMultiplicative = true ∧ r.isMultiplicative = true)))

/-! ### Other names -/

section Map

variable {μ : Type} (f : ν → μ)

/-- How tightly an expression holds together does not depend on its names. -/
@[simp] theorem grip_map (e : Expr ν) : (e.map f).grip = e.grip := by
  cases e <;> rfl

/-- The literals in an expression do not depend on its names. -/
@[simp] theorem literals_map (e : Expr ν) : (e.map f).literals = e.literals := by
  induction e with
  | literal | name => rfl
  | binary op l r p ihl ihr => simp [map, literals, ihl, ihr]

/-- The shape of an expression does not depend on its names. -/
theorem shaped_map {inside : Bool} {e : Expr ν} : (e.map f).Shaped inside ↔ e.Shaped inside := by
  induction e generalizing inside with
  | literal | name => rfl
  | binary op l r p ihl ihr => simp only [map, Shaped, ihl, ihr, grip_map]

/-- Names that can be told from what they are mapped to are got back. -/
theorem map_map_eq_self {g : μ → ν} {e : Expr ν} (h : ∀ n ∈ e.names, g (f n) = n) :
    (e.map f).map g = e := by
  induction e with
  | literal v => rfl
  | name n => exact congrArg name (h n (by simp [names]))
  | binary op l r p ihl ihr =>
    rw [map, map, ihl fun n hn => h n (by simp [names, hn]),
      ihr fun n hn => h n (by simp [names, hn])]

end Map

/-! ### Inside and outside -/

/-- Everything inside parentheses holds together as tightly as a product. -/
theorem four_le_grip {e : Expr ν} (h : e.Shaped true) : 4 ≤ e.grip := by
  cases e with
  | literal v => exact Nat.le_succ 4
  | name n => exact Nat.le_succ 4
  | binary op l r p =>
    rw [Shaped, if_pos (.inr (.inl rfl))] at h
    cases hop : op.isMultiplicative with
    | true => rw [grip, h.1, hop, Operator.isMultiplicative_iff.1 hop]; simp
    | false => rw [grip, h.1, hop]; simp

/-- What can be read inside parentheses can be read outside, with its own parentheses. -/
theorem Shaped.mono {e : Expr ν} (h : e.Shaped true) (inside : Bool) : e.Shaped inside := by
  cases e with
  | literal v => trivial
  | name n => trivial
  | binary op l r p =>
    rw [Shaped, if_pos (.inr (.inl rfl))] at h
    cases hop : op.isMultiplicative with
    | true => rw [Shaped, if_pos (.inl hop)]; exact h
    | false =>
      have hp : p = true := by rw [h.1, hop]; rfl
      rw [Shaped, if_pos (.inr (.inr hp))]
      exact h

/-- What holds together as tightly as a product could have been read inside parentheses. -/
theorem Shaped.of_grip {e : Expr ν} {inside : Bool} (h : e.Shaped inside) (hgrip : 4 ≤ e.grip) :
    e.Shaped true := by
  cases e with
  | literal v => trivial
  | name n => trivial
  | binary op l r p =>
    by_cases hcase : op.isMultiplicative ∨ inside = true ∨ p = true
    · rw [Shaped, if_pos hcase] at h
      rw [Shaped, if_pos (.inr (.inl rfl))]
      exact h
    · exfalso
      have hp : p = false := by
        cases p with
        | true => exact absurd (.inr (.inr rfl)) hcase
        | false => rfl
      have hop : ¬ op.tightness = 4 := fun ht =>
        hcase (.inl (Operator.isMultiplicative_iff.2 ht))
      rw [grip, hp] at hgrip
      have hle := op.tightness_le
      simp only [Bool.false_eq_true, if_false] at hgrip
      omega

/-- Operands have a shape of their own, and a product or quotient is not flagged. -/
theorem Shaped.operands {op : Operator} {l r : Expr ν} {p inside : Bool}
    (h : (binary op l r p).Shaped inside) :
    l.Shaped false ∧ r.Shaped false ∧ (op.isMultiplicative = true → p = false) := by
  by_cases hcase : op.isMultiplicative = true ∨ inside = true ∨ p = true
  · rw [Shaped, if_pos hcase] at h
    refine ⟨h.2.1.mono false, h.2.2.mono false, fun hop => ?_⟩
    rw [h.1, hop]
    rfl
  · rw [Shaped, if_neg hcase] at h
    exact ⟨h.1, h.2.1, fun hop => absurd (.inl hop) hcase⟩

/-! ### The reader keeps the shape -/

/-- Whether what waits in a group can wait there: every operator binds its left operand, and the
operators bind ever more loosely. -/
def Group.Shaped (inside : Bool) : Group ν → Prop
  | [] => True
  | w :: group => w.left.Shaped inside ∧ w.op.tightness ≤ w.left.grip ∧
      (∀ v ∈ group, v.op.tightness < w.op.tightness) ∧ Group.Shaped inside group

/-- Joining two operands gives an expression of the right shape, if they hold together. -/
theorem shaped_join {inside : Bool} {op : Operator} {l r : Expr ν} (hl : l.Shaped inside)
    (hr : r.Shaped inside) (hleft : op.tightness ≤ l.grip)
    (hright : op.tightness < r.grip ∨ r.Shaped true) :
    (join inside op l r).Shaped inside ∧ op.tightness ≤ (join inside op l r).grip := by
  unfold join
  cases hop : op.isMultiplicative with
  | true =>
    have hfour := Operator.isMultiplicative_iff.1 hop
    have hr' : r.Shaped true := hright.elim (fun hlt => hr.of_grip (by omega)) id
    rw [Shaped, if_pos (.inl hop), hop, Bool.not_true, Bool.and_false]
    exact ⟨⟨rfl, hl.of_grip (by omega), hr'⟩, Nat.le_refl _⟩
  | false =>
    have hle := op.tightness_le
    have hne : op.tightness ≠ 4 := by
      intro ht
      rw [Operator.isMultiplicative_iff.2 ht] at hop
      cases hop
    cases inside with
    | true =>
      rw [Shaped, if_pos (.inr (.inl rfl)), hop]
      refine ⟨⟨rfl, hl, hr⟩, ?_⟩
      show op.tightness ≤ 5
      omega
    | false =>
      have hcase : ¬ (op.isMultiplicative = true ∨ false = true ∨ (false && !false) = true) := by
        rw [hop]
        decide
      rw [Shaped, if_neg hcase]
      refine ⟨⟨hl, hr, hleft, ?_⟩, Nat.le_refl _⟩
      rcases hright with hlt | hr'
      · exact hlt
      · have := four_le_grip hr'
        omega

/-- Settling keeps the shape: what comes out binds at least as tightly as the bound, and what goes
on waiting binds less tightly. -/
theorem shaped_settle {inside : Bool} {bound : Nat} {group : Group ν} {e : Expr ν}
    (hgroup : Group.Shaped inside group) (he : e.Shaped inside) (hbound : bound ≤ e.grip)
    (hfits : ∀ w ∈ group.head?, w.op.tightness < e.grip ∨ e.Shaped true) :
    (settle inside bound group e).1.Shaped inside ∧ bound ≤ (settle inside bound group e).1.grip ∧
      Group.Shaped inside (settle inside bound group e).2 ∧
        ∀ w ∈ (settle inside bound group e).2, w.op.tightness < bound := by
  induction group generalizing e with
  | nil => exact ⟨he, hbound, trivial, by simp [settle]⟩
  | cons w group ih =>
    obtain ⟨hleft, hgrip, hlooser, hrest⟩ := hgroup
    by_cases hw : bound ≤ w.op.tightness
    · obtain ⟨hjoin, hjoingrip⟩ := shaped_join hleft he hgrip (hfits w rfl)
      rw [settle, if_pos hw]
      refine ih hrest hjoin (Nat.le_trans hw hjoingrip) fun v hv => .inl ?_
      exact Nat.lt_of_lt_of_le (hlooser v (List.mem_of_mem_head? hv)) hjoingrip
    · rw [settle, if_neg hw]
      refine ⟨he, hbound, ⟨hleft, hgrip, hlooser, hrest⟩, fun v hv => ?_⟩
      rcases List.mem_cons.1 hv with rfl | hv
      · omega
      · have := hlooser v hv
        omega

/-- When all operators that wait have been settled the expression has its shape. -/
theorem shaped_settleAll {inside : Bool} {group : Group ν} {e : Expr ν}
    (hgroup : Group.Shaped inside group) (he : e.Shaped true) :
    (settleAll inside group e).Shaped inside :=
  (shaped_settle hgroup (he.mono inside) (Nat.zero_le _) fun _ _ => .inr he).1

/-- Whether all groups are as they can be when a token is looked at. All but the last are inside
parentheses. -/
def Group.AllShaped : List (Group ν) → Prop
  | [] => True
  | group :: outer => Group.Shaped (!outer.isEmpty) group ∧ Group.AllShaped outer

/-- Whether the state of reading is one that can be reached. -/
def Progress.Shaped : Progress ν → Prop
  | operandDue group outer => Group.AllShaped (group :: outer)
  | operandRead e group outer => e.Shaped true ∧ Group.AllShaped (group :: outer)

/-- A token leads from one state that can be reached to another, or ends an expression of the right
shape. -/
theorem Progress.shaped_step {progress : Progress ν} (h : progress.Shaped)
    (see : Text → Option ν) (token : Token) :
    match progress.step see token with
    | .proceed progress' => progress'.Shaped
    | .ended e => e.Shaped false
    | .fault _ => True := by
  cases progress with
  | operandDue group outer =>
    simp only [step, stepOperand]
    cases token.kind with
    | number => exact ⟨trivial, h⟩
    | symbol =>
      cases see token.text with
      | some n => exact ⟨trivial, h⟩
      | none => trivial
    | mark m =>
      cases m with
      | openParen => exact ⟨trivial, h⟩
      | _ => trivial
    | _ => trivial
  | operandRead e group outer =>
    obtain ⟨he, hgroup, houter⟩ := h
    have hfits : ∀ w ∈ group.head?, w.op.tightness < e.grip ∨ e.Shaped true := fun _ _ => .inr he
    simp only [step, stepOperator]
    cases operator? token with
    | some op =>
      have hbound : op.tightness ≤ e.grip := Nat.le_trans op.tightness_le (four_le_grip he)
      obtain ⟨hleft, hgrip, hwaiting, hlooser⟩ := shaped_settle hgroup (he.mono _) hbound hfits
      exact ⟨⟨hleft, hgrip, hlooser, hwaiting⟩, houter⟩
    | none =>
      cases outer with
      | nil => exact shaped_settleAll hgroup he
      | cons around outer =>
        by_cases hclose : token.kind = .mark .closeParen
        · simp only [if_pos hclose]
          exact ⟨shaped_settleAll hgroup he, houter⟩
        · simp only [if_neg hclose]

/-- What is read from tokens has the shape of what is read outside parentheses. -/
theorem Progress.shaped_run {see : Text → Option ν} {stop : Token} {tokens : List Token}
    {progress : Progress ν} {e : Expr ν} {line : Line} (h : progress.Shaped)
    (hrun : progress.run see stop tokens = .ok (e, line)) : e.Shaped false := by
  induction tokens generalizing progress with
  | nil =>
    unfold run at hrun
    cases progress with
    | operandDue group outer => cases hrun
    | operandRead e' group outer =>
      cases outer with
      | nil =>
        cases hrun
        exact shaped_settleAll h.2.1 h.1
      | cons around outer => cases hrun
  | cons token tokens ih =>
    have hstep := shaped_step h see token
    unfold run at hrun
    cases hs : progress.step see token with
    | proceed progress' =>
      rw [hs] at hrun hstep
      exact ih hstep hrun
    | ended e' =>
      rw [hs] at hrun hstep
      cases hrun
      exact hstep
    | fault cause =>
      rw [hs] at hrun
      cases hrun

/-- Every expression that is read has the shape of one that stands outside parentheses. -/
theorem shaped_of_read {see : Text → Option ν} {line line' : Line} {e : Expr ν}
    (h : read see line = .ok (e, line')) : e.Shaped false := by
  have hstart : (Progress.start : Progress ν).Shaped := ⟨trivial, trivial⟩
  exact Progress.shaped_run hstart h

/-! ### Grouping products from the left -/

/-- The expression as right operand of what waits for one. -/
def attach : Option (Waiting ν) → Expr ν → Expr ν
  | none, e => e
  | some w, e => binary w.op w.left e false

/-- The expression with products and quotients grouped from the left, as right operand of a product
or quotient that waits for one. -/
def regroup : Option (Waiting ν) → Expr ν → Expr ν
  | waiting, literal v => attach waiting (literal v)
  | waiting, name n => attach waiting (name n)
  | waiting, binary op l r p =>
    if op.isMultiplicative then regroup (some ⟨op, regroup waiting l⟩) r
    else attach waiting (binary op (regroup none l) (regroup none r) p)

/-- What is no product can only be attached. -/
theorem regroup_of_not_isMultiplicative {e : Expr ν} (h : e.isMultiplicative = false)
    (waiting : Option (Waiting ν)) : regroup waiting e = attach waiting (regroup none e) := by
  cases e with
  | literal v => rfl
  | name n => rfl
  | binary op l r p =>
    have hop : op.isMultiplicative = false := h
    simp only [regroup, hop, Bool.false_eq_true, if_false, attach]

/-- What is regrouped is an operation if it was one, or if something waits before it. -/
theorem isBinary_regroup (e : Expr ν) (waiting : Option (Waiting ν)) :
    (regroup waiting e).isBinary = (waiting.isSome || e.isBinary) := by
  induction e generalizing waiting with
  | literal v => cases waiting <;> rfl
  | name n => cases waiting <;> rfl
  | binary op l r p _ ihr =>
    by_cases hop : op.isMultiplicative = true
    · rw [regroup, if_pos hop, ihr]
      simp [isBinary]
    · rw [regroup, if_neg hop]
      cases waiting <;> simp [attach, isBinary]

/-- No product stays on the right if what is attached to what waits is none itself. -/
theorem straight_attach {waiting : Option (Waiting ν)} (hw : ∀ w ∈ waiting, w.left.Straight)
    {e : Expr ν} (he : e.Straight) (hmult : e.isMultiplicative = false) :
    (attach waiting e).Straight := by
  cases waiting with
  | none => exact he
  | some w =>
    refine ⟨hw w rfl, he, fun hboth => ?_⟩
    rw [hmult] at hboth
    cases hboth.2

/-- Regrouping leaves no product or quotient as the right operand of one. -/
theorem straight_regroup (e : Expr ν) {waiting : Option (Waiting ν)}
    (hw : ∀ w ∈ waiting, w.left.Straight) : (regroup waiting e).Straight := by
  induction e generalizing waiting with
  | literal v => exact straight_attach hw trivial rfl
  | name n => exact straight_attach hw trivial rfl
  | binary op l r p ihl ihr =>
    by_cases hop : op.isMultiplicative = true
    · rw [regroup, if_pos hop]
      apply ihr
      intro w hw'
      cases hw'
      exact ihl hw
    · have hnone : ∀ w ∈ (none : Option (Waiting ν)), w.left.Straight := by simp
      rw [regroup, if_neg hop]
      refine straight_attach hw ⟨ihl hnone, ihr hnone, fun hboth => hop hboth.1⟩ ?_
      exact Bool.eq_false_iff.2 hop

/-- An expression in which no product or quotient is the right operand of one is grouped from the
left already. -/
theorem regroup_of_straight {e : Expr ν} (h : e.Shaped false) (hs : e.Straight) :
    regroup none e = e := by
  induction e with
  | literal v => rfl
  | name n => rfl
  | binary op l r p ihl ihr =>
    obtain ⟨hl, hr, hflag⟩ := h.operands
    obtain ⟨hsl, hsr, hright⟩ := hs
    by_cases hop : op.isMultiplicative = true
    · have hr' : r.isMultiplicative = false := Bool.eq_false_iff.2 fun hmult => hright ⟨hop, hmult⟩
      rw [regroup, if_pos hop, regroup_of_not_isMultiplicative hr', ihl hl hsl, ihr hr hsr,
        hflag hop]
      rfl
    · rw [regroup, if_neg hop, ihl hl hsl, ihr hr hsr]
      rfl

/-- An expression is what it is regrouped into exactly if no product or quotient is the right
operand of one. -/
theorem regroup_eq_self_iff {e : Expr ν} (h : e.Shaped false) :
    regroup none e = e ↔ e.Straight := by
  constructor
  · intro he
    have hs : (regroup none e).Straight := straight_regroup e (by simp)
    rw [he] at hs
    exact hs
  · exact regroup_of_straight h

/-- The literals stay in their order. -/
theorem literals_regroup (e : Expr ν) (waiting : Option (Waiting ν)) :
    (regroup waiting e).literals =
      (waiting.map fun w => w.left.literals).getD [] ++ e.literals := by
  induction e generalizing waiting with
  | literal v => cases waiting <;> simp [regroup, attach, literals]
  | name n => cases waiting <;> simp [regroup, attach, literals]
  | binary op l r p ihl ihr =>
    by_cases hop : op.isMultiplicative = true
    · rw [regroup, if_pos hop, ihr]
      simp [literals, ihl]
    · rw [regroup, if_neg hop]
      cases waiting <;> simp [attach, literals, ihl, ihr]

/-- The canonical form of what waits for a right operand. -/
def printWaiting : Option (Waiting Text) → Text
  | none => []
  | some w => w.left.print ++ [' ', w.op.mark.char, ' ']

/-- What waits is printed before what is attached to it. -/
theorem print_attach (waiting : Option (Waiting Text)) (e : Expr Text) :
    (attach waiting e).print = printWaiting waiting ++ e.print := by
  cases waiting with
  | none => rfl
  | some w => simp [attach, print, printWaiting]

/-- Regrouping is not visible in the canonical form. -/
theorem print_regroup {e : Expr Text} (h : e.Shaped false) (waiting : Option (Waiting Text)) :
    (regroup waiting e).print = printWaiting waiting ++ e.print := by
  induction e generalizing waiting with
  | literal v => exact print_attach waiting _
  | name n => exact print_attach waiting _
  | binary op l r p ihl ihr =>
    obtain ⟨hl, hr, hflag⟩ := h.operands
    by_cases hop : op.isMultiplicative = true
    · rw [regroup, if_pos hop, ihr hr, printWaiting, ihl hl, hflag hop]
      simp [print]
    · rw [regroup, if_neg hop, print_attach]
      simp only [print, ihl hl, ihr hr, printWaiting, List.nil_append]

end PioFrontEnd.Expr
