import PioFrontEnd.Proofs.Canonical.Shape
import PioFrontEnd.Proofs.Grammar.Advance

/-!
# Reading what was printed

The canonical form of an expression is a sequence of lexemes, each a kind of token and its text, and
that is all that reading depends on. This file reads the lexemes of an expression back, without
looking at texts.

* `leads_lexemes`: inside any expression, the lexemes of an expression without negative literals make
  an operand or several.
* `fails_lexemes`: a negative literal cannot be read, since its sign is no operand.
* `rereadsIn_of_shaped`: what comes out is the expression regrouped. The operators that wait around
  it bind less tightly, except that a product may wait for its right operand.
-/

namespace PioFrontEnd

/-- A kind of token and its text. -/
abbrev Lexeme := TokenKind × Text

/-- What a token is, without its place. -/
def Token.lexeme (t : Token) : Lexeme := (t.kind, t.text)

/-- The lexeme of a mark. -/
def Mark.lexeme (m : Mark) : Lexeme := (.mark m, [m.char])

namespace Expr

/-- The lexemes of the canonical form of an expression. -/
def lexemes : Expr Text → List Lexeme
  | literal v =>
    if v < 0 then [Mark.minus.lexeme, (.number, Nat.toDigits 10 v.toInt.natAbs)]
    else [(.number, Text.Decimal.write v)]
  | name n => [(.symbol, n)]
  | binary op l r p =>
    let body := l.lexemes ++ op.mark.lexeme :: r.lexemes
    if p then Mark.openParen.lexeme :: (body ++ [Mark.closeParen.lexeme]) else body

/-! ### One token -/

namespace Progress

variable {see : Text → Option Text} {token : Token} {group : Group Text} {outer : List (Group Text)}
  {e : Expr Text}

/-- A number that was written for a literal is read as that literal. -/
theorem step_number {v : Int32} (hv : ¬ v < 0)
    (ht : token.lexeme = (.number, Text.Decimal.write v)) :
    (operandDue group outer).step see token = .proceed (operandRead (literal v) group outer) := by
  obtain ⟨hkind, htext⟩ := Prod.mk.inj ht
  exact step_operandDue_iff.2 (.inl ⟨hkind, by rw [htext, Text.Decimal.value_write hv]⟩)

/-- A name that is visible under itself is read as that name. -/
theorem step_name {n : Text} (hn : see n = some n) (ht : token.lexeme = (.symbol, n)) :
    (operandDue group outer).step see token = .proceed (operandRead (name n) group outer) := by
  obtain ⟨hkind, htext⟩ := Prod.mk.inj ht
  exact step_operandDue_iff.2 (.inr (.inl ⟨hkind, n, htext ▸ hn, rfl⟩))

/-- An opening parenthesis makes the operators before it wait outside. -/
theorem step_open (ht : token.lexeme = Mark.openParen.lexeme) :
    (operandDue group outer).step see token = .proceed (operandDue [] (group :: outer)) :=
  step_operandDue_iff.2 (.inr (.inr ⟨(Prod.mk.inj ht).1, rfl⟩))

/-- Where an operand is due there can be no sign. -/
theorem step_minus (ht : token.lexeme = Mark.minus.lexeme) :
    (operandDue group outer).step see token = .fault .expressionSyntax := by
  obtain ⟨hkind, -⟩ := Prod.mk.inj ht
  simp only [step, stepOperand, hkind]

/-- An operator settles those that wait and bind at least as tightly, and then waits itself. -/
theorem step_operator {op : Operator} (ht : token.lexeme = op.mark.lexeme) :
    (operandRead e group outer).step see token =
      .proceed (operandDue (⟨op, (settle (!outer.isEmpty) op.tightness group e).1⟩ ::
        (settle (!outer.isEmpty) op.tightness group e).2) outer) :=
  step_operandRead_iff.2 (.inl ⟨op, (Prod.mk.inj ht).1, rfl⟩)

/-- A closing parenthesis settles everything that waits within its parentheses. -/
theorem step_close {around : Group Text} (ht : token.lexeme = Mark.closeParen.lexeme) :
    (operandRead e group (around :: outer)).step see token =
      .proceed (operandRead (settleAll true group e) around outer) :=
  step_operandRead_iff.2 (.inr ⟨around, outer, rfl, (Prod.mk.inj ht).1, rfl⟩)

end Progress

/-! ### Several tokens -/

namespace Progress

/-- Whether any tokens with these lexemes lead from one state of reading to another. -/
def Leads (see : Text → Option Text) (progress : Progress Text) (lexemes : List Lexeme)
    (progress' : Progress Text) : Prop :=
  ∀ (stop : Token) (tokens rest : List Token), tokens.map Token.lexeme = lexemes →
    progress.run see stop (tokens ++ rest) = progress'.run see stop rest

/-- Whether reading fails among tokens with these lexemes. -/
def Fails (see : Text → Option Text) (progress : Progress Text) (lexemes : List Lexeme) : Prop :=
  ∀ (stop : Token) (tokens rest : List Token), tokens.map Token.lexeme = lexemes →
    ∃ fault, progress.run see stop (tokens ++ rest) = .error fault

variable {see : Text → Option Text} {progress progress' progress'' : Progress Text}
  {lexeme : Lexeme} {lexemes lexemes' : List Lexeme}

/-- One lexeme leads where every token with it leads. -/
theorem Leads.single
    (h : ∀ {token : Token}, token.lexeme = lexeme → progress.step see token = .proceed progress') :
    Leads see progress [lexeme] progress' := by
  intro stop tokens rest ht
  obtain ⟨token, rfl, htoken⟩ := List.map_eq_singleton_iff.1 ht
  rw [List.singleton_append, run, h htoken]

/-- Lexemes lead on from where those before them have led. -/
theorem Leads.append (h : Leads see progress lexemes progress')
    (h' : Leads see progress' lexemes' progress'') :
    Leads see progress (lexemes ++ lexemes') progress'' := by
  intro stop tokens rest ht
  obtain ⟨first, second, rfl, hfirst, hsecond⟩ := List.map_eq_append_iff.1 ht
  rw [List.append_assoc, h stop first _ hfirst, h' stop second rest hsecond]

/-- Reading fails at one lexeme if it fails at every token with it. -/
theorem Fails.single {cause : Cause}
    (h : ∀ {token : Token}, token.lexeme = lexeme → progress.step see token = .fault cause) :
    Fails see progress [lexeme] := by
  intro stop tokens rest ht
  obtain ⟨token, rfl, htoken⟩ := List.map_eq_singleton_iff.1 ht
  refine ⟨⟨cause, token.span.start⟩, ?_⟩
  rw [List.singleton_append, run, h htoken]

/-- Where reading has failed, more lexemes do not help. -/
theorem Fails.append (h : Fails see progress lexemes) (lexemes' : List Lexeme) :
    Fails see progress (lexemes ++ lexemes') := by
  intro stop tokens rest ht
  obtain ⟨first, second, rfl, hfirst, -⟩ := List.map_eq_append_iff.1 ht
  rw [List.append_assoc]
  exact h stop first _ hfirst

/-- Reading fails if it fails from where the lexemes before have led. -/
theorem Leads.fails (h : Leads see progress lexemes progress') (h' : Fails see progress' lexemes') :
    Fails see progress (lexemes ++ lexemes') := by
  intro stop tokens rest ht
  obtain ⟨first, second, rfl, hfirst, hsecond⟩ := List.map_eq_append_iff.1 ht
  rw [List.append_assoc, h stop first _ hfirst]
  exact h' stop second rest hsecond

end Progress

open Progress

variable {see : Text → Option Text}

/-- The lexemes of an expression without negative literals make operands, wherever one is due. -/
theorem leads_lexemes {e : Expr Text} (hsee : ∀ n ∈ e.names, see n = some n)
    (hsign : ∀ v ∈ e.literals, ¬ v < 0) (group : Group Text) (outer : List (Group Text)) :
    ∃ x w, Leads see (operandDue group outer) e.lexemes (operandRead x w outer) := by
  induction e generalizing group outer with
  | literal v =>
    have hv : ¬ v < 0 := hsign v (by simp [literals])
    rw [lexemes, if_neg hv]
    exact ⟨_, _, .single (step_number hv)⟩
  | name n => exact ⟨_, _, .single (step_name (hsee n (by simp [names])))⟩
  | binary op l r p ihl ihr =>
    have hbody : ∀ (group : Group Text) (outer : List (Group Text)), ∃ x w,
        Leads see (operandDue group outer) (l.lexemes ++ op.mark.lexeme :: r.lexemes)
          (operandRead x w outer) := by
      intro group outer
      obtain ⟨x, w, hl⟩ := ihl (fun n hn => hsee n (by simp [names, hn]))
        (fun v hv => hsign v (by simp [literals, hv])) group outer
      obtain ⟨y, w', hr⟩ := ihr (fun n hn => hsee n (by simp [names, hn]))
        (fun v hv => hsign v (by simp [literals, hv])) _ outer
      exact ⟨y, w', hl.append ((Leads.single step_operator).append hr)⟩
    cases p with
    | false => exact hbody group outer
    | true =>
      obtain ⟨x, w, hx⟩ := hbody [] (group :: outer)
      exact ⟨_, _, (Leads.single step_open).append (hx.append (.single step_close))⟩

/-- The sign of a negative literal cannot be read where an operand is due. -/
theorem fails_lexemes {e : Expr Text} (hsee : ∀ n ∈ e.names, see n = some n)
    (hsign : ∃ v ∈ e.literals, v < 0) (group : Group Text) (outer : List (Group Text)) :
    Fails see (operandDue group outer) e.lexemes := by
  induction e generalizing group outer with
  | literal v =>
    obtain ⟨v', hv', hneg⟩ := hsign
    obtain rfl := List.mem_singleton.1 hv'
    rw [lexemes, if_pos hneg]
    exact Fails.append (.single step_minus) _
  | name n =>
    obtain ⟨v, hv, -⟩ := hsign
    cases hv
  | binary op l r p ihl ihr =>
    have hseel : ∀ n ∈ l.names, see n = some n := fun n hn => hsee n (by simp [names, hn])
    have hseer : ∀ n ∈ r.names, see n = some n := fun n hn => hsee n (by simp [names, hn])
    have hbody : ∀ (group : Group Text) (outer : List (Group Text)),
        Fails see (operandDue group outer) (l.lexemes ++ op.mark.lexeme :: r.lexemes) := by
      intro group outer
      by_cases hl : ∃ v ∈ l.literals, v < 0
      · exact (ihl hseel hl group outer).append _
      · -- the left operand is read, so it is the right one that fails
        obtain ⟨x, w, hx⟩ := leads_lexemes hseel (fun v hv hneg => hl ⟨v, hv, hneg⟩) group outer
        have hr : ∃ v ∈ r.literals, v < 0 := by
          obtain ⟨v, hv, hneg⟩ := hsign
          rcases List.mem_append.1 hv with hv | hv
          · exact absurd ⟨v, hv, hneg⟩ hl
          · exact ⟨v, hv, hneg⟩
        exact hx.fails ((Leads.single step_operator).fails (ihr hseer hr _ _))
    cases p with
    | false => exact hbody group outer
    | true => exact (Leads.single step_open).fails ((hbody [] (group :: outer)).append _)

/-! ### What comes out -/

/-- An operand is attached to a product that waits for it. -/
theorem settle_attach {inside : Bool} {bound : Nat} {group : Group Text}
    {waiting : Option (Waiting Text)} (hbound : bound ≤ 4)
    (hgroup : ∀ w ∈ group, w.op.tightness < bound)
    (hwaiting : ∀ w ∈ waiting, w.op.isMultiplicative = true) (e : Expr Text) :
    settle inside bound (waiting.toList ++ group) e = (attach waiting e, group) := by
  cases waiting with
  | none => exact settle_of_looser hgroup e
  | some w =>
    have hw := hwaiting w rfl
    have hjoin : join inside w.op w.left e = binary w.op w.left e false := by
      rw [join, hw, Bool.not_true, Bool.and_false]
    rw [Option.toList_some, List.singleton_append, settle,
      if_pos (by rw [Operator.isMultiplicative_iff.1 hw]; exact hbound), hjoin,
      settle_of_looser hgroup]
    rfl

/-- Whether the lexemes of an expression are read as the expression regrouped, inside parentheses or
outside. What waits around it binds less tightly than the bound, and the expression binds at least
as tightly, unless it is the right operand of a product. -/
def RereadsIn (see : Text → Option Text) (inside : Bool) (e : Expr Text) : Prop :=
  ∀ (outer : List (Group Text)) (bound : Nat) (group : Group Text)
    (waiting : Option (Waiting Text)),
    (!outer.isEmpty) = inside → bound ≤ 4 → bound ≤ e.grip →
    (∀ w ∈ group, w.op.tightness < bound) →
    (∀ w ∈ waiting, w.op.isMultiplicative = true ∧ 4 ≤ e.grip) →
    ∃ x w,
      Leads see (operandDue (waiting.toList ++ group) outer) e.lexemes (operandRead x w outer) ∧
      settle inside bound w x = (regroup waiting e, group)

variable {inside : Bool} {op : Operator} {l r : Expr Text}

/-- A literal without a sign is read back. -/
theorem rereadsIn_literal {v : Int32} (hv : ¬ v < 0) : RereadsIn see inside (literal v) := by
  intro outer bound group waiting _ hbound _ hgroup hwaiting
  refine ⟨_, _, ?_, settle_attach hbound hgroup (fun w hw => (hwaiting w hw).1) _⟩
  rw [lexemes, if_neg hv]
  exact .single (step_number hv)

/-- A name that is visible under itself is read back. -/
theorem rereadsIn_name {n : Text} (hn : see n = some n) : RereadsIn see inside (name n) := by
  intro outer bound group waiting _ hbound _ hgroup hwaiting
  exact ⟨_, _, .single (step_name hn),
    settle_attach hbound hgroup (fun w hw => (hwaiting w hw).1) _⟩

/-- A product takes what waits for it into its left operand, and then waits for its right one. -/
theorem rereadsIn_product (hop : op.isMultiplicative = true) (hl : RereadsIn see inside l)
    (hr : RereadsIn see inside r) (hgripl : 4 ≤ l.grip) (hgripr : 4 ≤ r.grip) :
    RereadsIn see inside (binary op l r false) := by
  intro outer bound group waiting hinside hbound _ hgroup hwaiting
  have hfour := Operator.isMultiplicative_iff.1 hop
  have hlooser : ∀ w ∈ group, w.op.tightness < 4 := fun w hw =>
    Nat.lt_of_lt_of_le (hgroup w hw) hbound
  obtain ⟨x, w, hleft, hsettle⟩ := hl outer 4 group waiting hinside (Nat.le_refl 4) hgripl hlooser
    fun w hw => ⟨(hwaiting w hw).1, hgripl⟩
  obtain ⟨y, w', hright, hsettle'⟩ := hr outer 4 group (some ⟨op, regroup waiting l⟩) hinside
    (Nat.le_refl 4) hgripr hlooser fun w hw => by cases hw; exact ⟨hop, hgripr⟩
  have hsign : Leads see (operandRead x w outer) [op.mark.lexeme]
      (operandDue (⟨op, regroup waiting l⟩ :: group) outer) := by
    refine .single fun ht => ?_
    rw [step_operator ht, hinside, hfour, hsettle]
  refine ⟨y, w', hleft.append (hsign.append hright), ?_⟩
  rw [← settle_settle hbound, hsettle', settle_of_looser hgroup, regroup, if_pos hop]

/-- What is inside parentheses is read by itself. -/
theorem rereadsIn_parenthesized (hop : op.isMultiplicative = false) (hl : RereadsIn see true l)
    (hr : RereadsIn see true r) (hgripl : 4 ≤ l.grip) (hgripr : 4 ≤ r.grip) :
    RereadsIn see inside (binary op l r true) := by
  intro outer bound group waiting _ hbound _ hgroup hwaiting
  have hlt : op.tightness < 4 := op.tightness_lt hop
  have hnone : ∀ w ∈ (none : Option (Waiting Text)), w.op.isMultiplicative = true ∧ 4 ≤ l.grip := by
    simp
  have hnone' : ∀ w ∈ (none : Option (Waiting Text)),
      w.op.isMultiplicative = true ∧ 4 ≤ r.grip := by
    simp
  obtain ⟨x, w, hleft, hsettle⟩ := hl ((waiting.toList ++ group) :: outer) 4 [] none rfl
    (Nat.le_refl 4) hgripl (by simp) hnone
  obtain ⟨y, w', hright, hsettle'⟩ := hr ((waiting.toList ++ group) :: outer) 4
    [⟨op, regroup none l⟩] none rfl (Nat.le_refl 4) hgripr (by simpa using hlt) hnone'
  have hsign : Leads see (operandRead x w ((waiting.toList ++ group) :: outer)) [op.mark.lexeme]
      (operandDue [⟨op, regroup none l⟩] ((waiting.toList ++ group) :: outer)) := by
    refine .single fun ht => ?_
    rw [step_operator ht, ← settle_settle (Nat.le_of_lt hlt)]
    show Step.proceed (operandDue (⟨op, (settle true _ (settle true 4 w x).2
      (settle true 4 w x).1).1⟩ ::
        (settle true _ (settle true 4 w x).2 (settle true 4 w x).1).2) _) = _
    rw [hsettle]
    rfl
  have hinner : settleAll true w' y = binary op (regroup none l) (regroup none r) true := by
    rw [settleAll, ← settle_settle (Nat.zero_le 4), hsettle']
    simp only [settle, Nat.zero_le, if_true, join, hop, Bool.not_false, Bool.and_true]
  have hclose : Leads see (operandRead y w' ((waiting.toList ++ group) :: outer))
      [Mark.closeParen.lexeme]
      (operandRead (binary op (regroup none l) (regroup none r) true) (waiting.toList ++ group)
        outer) := by
    refine .single fun ht => ?_
    rw [step_close ht, hinner]
  refine ⟨_, _, (Leads.single step_open).append
    ((hleft.append (hsign.append hright)).append hclose), ?_⟩
  rw [settle_attach hbound hgroup fun w hw => (hwaiting w hw).1, regroup, if_neg (by simp [hop])]

/-- Outside parentheses the tightness says what belongs together. -/
theorem rereadsIn_bare (hop : op.isMultiplicative = false) (hl : RereadsIn see false l)
    (hr : RereadsIn see false r) (hgripl : op.tightness ≤ l.grip) (hgripr : op.tightness < r.grip) :
    RereadsIn see false (binary op l r false) := by
  intro outer bound group waiting hinside _ hgrip hgroup hwaiting
  have hlt : op.tightness < 4 := op.tightness_lt hop
  have hbound : bound ≤ op.tightness := hgrip
  -- nothing waits that binds more tightly
  obtain rfl : waiting = none := by
    cases waiting with
    | none => rfl
    | some w =>
      have hfour : 4 ≤ op.tightness := (hwaiting w rfl).2
      omega
  obtain ⟨x, w, hleft, hsettle⟩ :=
    hl outer op.tightness group none hinside (Nat.le_of_lt hlt) hgripl
    (fun w hw => Nat.lt_of_lt_of_le (hgroup w hw) hbound) (by simp)
  have hlooser : ∀ v ∈ (⟨op, regroup none l⟩ :: group : Group Text),
      v.op.tightness < op.tightness + 1 := by
    intro v hv
    rcases List.mem_cons.1 hv with rfl | hv
    · exact Nat.lt_succ_self _
    · have := hgroup v hv
      omega
  obtain ⟨y, w', hright, hsettle'⟩ :=
    hr outer (op.tightness + 1) (⟨op, regroup none l⟩ :: group) none
    hinside hlt hgripr hlooser (by simp)
  have hsign : Leads see (operandRead x w outer) [op.mark.lexeme]
      (operandDue (⟨op, regroup none l⟩ :: group) outer) := by
    refine .single fun ht => ?_
    rw [step_operator ht, hinside, hsettle]
  refine ⟨y, w', hleft.append (hsign.append hright), ?_⟩
  rw [← settle_settle (Nat.le_succ_of_le hbound), hsettle', settle, if_pos hbound,
    settle_of_looser hgroup, regroup, if_neg (by simp [hop])]
  rfl

/-- The lexemes of an expression that can be read are read as the expression regrouped. -/
theorem rereadsIn_of_shaped {e : Expr Text} (hshape : e.Shaped inside)
    (hsee : ∀ n ∈ e.names, see n = some n) (hsign : ∀ v ∈ e.literals, ¬ v < 0) :
    RereadsIn see inside e := by
  induction e generalizing inside with
  | literal v => exact rereadsIn_literal (hsign v (by simp [literals]))
  | name n => exact rereadsIn_name (hsee n (by simp [names]))
  | binary op l r p ihl ihr =>
    have hl : ∀ {inside : Bool}, l.Shaped inside → RereadsIn see inside l := fun h =>
      ihl h (fun n hn => hsee n (by simp [names, hn])) fun v hv => hsign v (by simp [literals, hv])
    have hr : ∀ {inside : Bool}, r.Shaped inside → RereadsIn see inside r := fun h =>
      ihr h (fun n hn => hsee n (by simp [names, hn])) fun v hv => hsign v (by simp [literals, hv])
    by_cases hcase : op.isMultiplicative = true ∨ inside = true ∨ p = true
    · rw [Shaped, if_pos hcase] at hshape
      obtain ⟨hp, hshapel, hshaper⟩ := hshape
      cases hop : op.isMultiplicative with
      | true =>
        rw [hop] at hp
        subst hp
        exact rereadsIn_product hop (hl (hshapel.mono _)) (hr (hshaper.mono _))
          (four_le_grip hshapel) (four_le_grip hshaper)
      | false =>
        rw [hop] at hp
        subst hp
        exact rereadsIn_parenthesized hop (hl hshapel) (hr hshaper) (four_le_grip hshapel)
          (four_le_grip hshaper)
    · rw [Shaped, if_neg hcase] at hshape
      obtain ⟨hshapel, hshaper, hgripl, hgripr⟩ := hshape
      simp only [not_or, Bool.not_eq_true] at hcase
      obtain ⟨hop, rfl, rfl⟩ := hcase
      exact rereadsIn_bare hop (hl hshapel) (hr hshaper) hgripl hgripr

/-! ### Whole expressions -/

/-- A line that has the lexemes of an expression is read as the expression regrouped. -/
theorem read_of_lexemes {e : Expr Text} (hshape : e.Shaped false)
    (hsee : ∀ n ∈ e.names, see n = some n) (hsign : ∀ v ∈ e.literals, ¬ v < 0) {line : Line}
    (ht : line.tokens.map Token.lexeme = e.lexemes) :
    read see line = .ok (regroup none e, ⟨[], line.stop⟩) := by
  obtain ⟨x, w, hleads, hsettle⟩ := rereadsIn_of_shaped hshape hsee hsign [] 0 [] none rfl
    (Nat.zero_le _) (Nat.zero_le _) (by simp) (by simp)
  have hrun := hleads line.stop line.tokens [] ht
  simp only [List.append_nil, Option.toList_none] at hrun
  rw [read, start]
  apply hrun.trans
  rw [run, conclude, settleAll, hsettle]

/-- A line that has the lexemes of an expression with a negative literal cannot be read. -/
theorem read_of_negative {e : Expr Text} (hsee : ∀ n ∈ e.names, see n = some n)
    (hsign : ∃ v ∈ e.literals, v < 0) {line : Line}
    (ht : line.tokens.map Token.lexeme = e.lexemes) : ∃ fault, read see line = .error fault := by
  obtain ⟨fault, hrun⟩ := fails_lexemes hsee hsign [] [] line.stop line.tokens [] ht
  rw [List.append_nil] at hrun
  exact ⟨fault, hrun⟩

/-- If an expression begins with a name, then that is all of it, or an operator follows. -/
theorem exists_lexemes_eq_cons (e : Expr Text) :
    ∃ kind text more, e.lexemes = (kind, text) :: more ∧
      (kind = .symbol → more = [] ∨ ∃ op : Operator, ∃ more', more = op.mark.lexeme :: more') := by
  induction e with
  | literal v =>
    by_cases hv : v < 0
    · rw [lexemes, if_pos hv]
      exact ⟨_, _, _, rfl, fun hkind => by cases hkind⟩
    · rw [lexemes, if_neg hv]
      exact ⟨_, _, _, rfl, fun hkind => by cases hkind⟩
  | name n => exact ⟨_, _, _, rfl, fun _ => .inl rfl⟩
  | binary op l r p ihl _ =>
    cases p with
    | true => exact ⟨_, _, _, rfl, fun hkind => by cases hkind⟩
    | false =>
      obtain ⟨kind, text, more, hl, hmore⟩ := ihl
      refine ⟨kind, text, more ++ op.mark.lexeme :: r.lexemes, ?_, fun hkind => .inr ?_⟩
      · simp [lexemes, hl]
      · rcases hmore hkind with rfl | ⟨op', more', rfl⟩
        · exact ⟨op, r.lexemes, rfl⟩
        · exact ⟨op', more' ++ op.mark.lexeme :: r.lexemes, rfl⟩

/-- No expression begins with an operator. -/
theorem read_of_operator {line : Line} {op : Operator} {more : List Lexeme}
    (ht : line.tokens.map Token.lexeme = op.mark.lexeme :: more) :
    ∃ fault, read see line = .error fault := by
  obtain ⟨token, tokens, htokens, htoken, -⟩ := List.map_eq_cons_iff.1 ht
  obtain ⟨hkind, -⟩ := Prod.mk.inj htoken
  have hstep : (operandDue [] []).step see token = .fault .expressionSyntax := by
    cases op <;> simp only [step, stepOperand, hkind, Operator.mark]
  exact ⟨_, by rw [read, start, htokens, run, hstep]⟩

end Expr

/-! ### Statements -/

namespace Line

variable {line : Line} {kind : TokenKind} {text : Text} {more : List Lexeme}

/-- The first token of a line, and the line after it. -/
theorem peek_of_lexemes (ht : line.tokens.map Token.lexeme = (kind, text) :: more) :
    line.peek.kind = kind ∧ line.peek.text = text ∧ line.rest.tokens.map Token.lexeme = more := by
  obtain ⟨tokens, stop⟩ := line
  obtain ⟨token, tokens, rfl, htoken, hmore⟩ := List.map_eq_cons_iff.1 ht
  obtain ⟨hkind, htext⟩ := Prod.mk.inj htoken
  exact ⟨hkind, htext, hmore⟩

/-- Whether a token of some kind comes next is to be seen from the first lexeme of a line. -/
theorem read?_of_lexemes (ht : line.tokens.map Token.lexeme = (kind, text) :: more)
    (wanted : TokenKind) :
    line.read? wanted = if kind = wanted then some (line.peek, line.rest) else none := by
  rw [read?, (peek_of_lexemes ht).1]

end Line

namespace Statement

variable {see : Text → Option Text} {line : Line} {text name : Text} {kind : TokenKind}

/-- A program is read if its name is a symbol. -/
theorem read_program_iff (see : Text → Option Text) (ht : line.tokens.map Token.lexeme =
    [(.directive .program, text), (kind, name)]) :
    match read see line with
    | .ok s => kind = .symbol ∧ s = .program name
    | .error _ => kind ≠ .symbol := by
  obtain ⟨hdirective, -, hrest⟩ := Line.peek_of_lexemes ht
  obtain ⟨-, hname, hend⟩ := Line.peek_of_lexemes hrest
  have hread := Line.read?_of_lexemes hrest .symbol
  simp only [read, hdirective, readProgram, hread]
  by_cases hkind : kind = .symbol
  · have hfinish : line.rest.rest.finish = .ok () := by
      rw [Line.finish, Line.isEmpty, List.map_eq_nil_iff.1 hend]
      rfl
    simp only [if_pos hkind, hfinish, hname]
    exact ⟨hkind, rfl⟩
  · simp only [if_neg hkind]
    exact hkind

/-- What stands after a name that is a symbol is read as the expression of a constant. -/
theorem readConstant_of_lexemes {more : List Lexeme} {site : Nat} {exported : Bool}
    (ht : line.tokens.map Token.lexeme = (.symbol, name) :: more) :
    readConstant see site exported line =
      (Expr.readToEnd see line.rest).map (.define exported name) := by
  have hname : line.read? .symbol = some (line.peek, line.rest) := by
    rw [Line.read?_of_lexemes ht, if_pos rfl]
  rw [readConstant_eq hname, (Line.peek_of_lexemes ht).2.1]

/-- Of a define whose name is a symbol, what comes after the name is read as the expression. -/
theorem read_of_define_lexemes (see : Text → Option Text) {more : List Lexeme}
    (ht : line.tokens.map Token.lexeme = (.directive .define, text) :: (.symbol, name) :: more) :
    read see line = (Expr.readToEnd see line.rest.rest).map (.define false name) ∧
      line.rest.rest.tokens.map Token.lexeme = more := by
  obtain ⟨hdirective, -, hrest⟩ := Line.peek_of_lexemes ht
  obtain ⟨hkind, -, hmore⟩ := Line.peek_of_lexemes hrest
  have hnot : line.rest.peek.kind ≠ .qualifier .exported := by
    rw [hkind]
    decide
  refine ⟨?_, hmore⟩
  simp only [read, hdirective]
  rw [readDefine_eq, if_neg hnot, readConstant_of_lexemes hrest]

/-- A define whose name is a symbol is read, with its expression regrouped. -/
theorem read_define {e : Expr Text} (hshape : e.Shaped false) (hsee : ∀ n ∈ e.names, see n = some n)
    (hsign : ∀ v ∈ e.literals, ¬ v < 0)
    (ht : line.tokens.map Token.lexeme =
      (.directive .define, text) :: (.symbol, name) :: e.lexemes) :
    read see line = .ok (.define false name (e.regroup none)) := by
  obtain ⟨hread, hexpr⟩ := read_of_define_lexemes see ht
  rw [hread, Expr.readToEnd, Expr.read_of_lexemes hshape hsee hsign hexpr]
  rfl

/-- A define with a negative literal is not read. -/
theorem read_define_of_negative {e : Expr Text} (hsee : ∀ n ∈ e.names, see n = some n)
    (hsign : ∃ v ∈ e.literals, v < 0)
    (ht : line.tokens.map Token.lexeme =
      (.directive .define, text) :: (.symbol, name) :: e.lexemes) :
    ∃ fault, read see line = .error fault := by
  obtain ⟨hread, hexpr⟩ := read_of_define_lexemes see ht
  obtain ⟨fault, hfails⟩ := Expr.read_of_negative hsee hsign hexpr
  refine ⟨fault, ?_⟩
  rw [hread, Expr.readToEnd, hfails]
  rfl

/-- A define whose name is no symbol is not read. If the name is the qualifier, then what follows it
is no constant: it is no name, or a name without an expression. -/
theorem read_define_of_keyword {e : Expr Text} (hkind : kind ≠ .symbol)
    (ht : line.tokens.map Token.lexeme = (.directive .define, text) :: (kind, name) :: e.lexemes) :
    ∃ fault, read see line = .error fault := by
  obtain ⟨hdirective, -, hrest⟩ := Line.peek_of_lexemes ht
  obtain ⟨hkind', -, hexpr⟩ := Line.peek_of_lexemes hrest
  simp only [read, hdirective, readDefine_eq]
  by_cases hexported : line.rest.peek.kind = .qualifier .exported
  · rw [if_pos hexported]
    obtain ⟨kind₁, text₁, more, he, hmore⟩ := e.exists_lexemes_eq_cons
    rw [he] at hexpr
    by_cases hsymbol : kind₁ = .symbol
    · subst hsymbol
      obtain ⟨-, -, hafter⟩ := Line.peek_of_lexemes hexpr
      have hfails : ∃ fault, Expr.read see line.rest.rest.rest = .error fault := by
        rcases hmore rfl with rfl | ⟨op, more', rfl⟩
        · rw [Expr.read, List.map_eq_nil_iff.1 hafter]
          exact ⟨_, rfl⟩
        · exact Expr.read_of_operator hafter
      obtain ⟨fault, hread⟩ := hfails
      refine ⟨fault, ?_⟩
      rw [readConstant_of_lexemes hexpr, Expr.readToEnd, hread]
      rfl
    · rw [readConstant, Line.read?_of_lexemes hexpr, if_neg hsymbol]
      exact ⟨_, rfl⟩
  · rw [if_neg hexported, readConstant, Line.read?_of_lexemes hrest, if_neg hkind]
    exact ⟨_, rfl⟩

end Statement

end PioFrontEnd
