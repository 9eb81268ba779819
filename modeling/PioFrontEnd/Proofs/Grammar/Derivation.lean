import PioFrontEnd.Draft.Basic
import PioFrontEnd.Proofs.Grammar.Advance
import PioFrontEnd.Proofs.Grammar.Phrase

/-!
# Reading an expression derives it

The reader holds a stack of operands that wait, and the grammar knows of no stack. They are brought
together in both directions.

* `Phrase.advance_tokens`: wherever an operand is due, the tokens of a phrase lead to a state in
  which the expression of the phrase is on top, once all that binds as tightly as the phrase does has
  been settled.
* `Progress.Spells`: conversely, what has been read is spelled by phrases, one for every operand that
  waits. `Group.Spells.settled` says what settling does to the phrases, and `Progress.Spells.step`
  what a token does.
* `readToEnd_eq_ok_iff`: so a line is read as an expression exactly if its tokens are derived with
  it. `readToEnd_iff_derivation` says this of a draft, and that the derivation is the only one.
-/

namespace PioFrontEnd.Expr

variable {ν : Type} {see : Text → Option ν} {inside : Bool}

open Progress

/-! ### The tokens of a phrase -/

namespace Phrase

variable {level : Nat}

/-- The tokens of a phrase lead from where an operand is due to where its expression is on top, when
all that binds as tightly as the phrase has been settled. What waited before binds less tightly. -/
theorem advance_tokens (p : Phrase level) {e : Expr ν} (htree : p.tree see inside = some e)
    (bound : Nat) (hbound : bound + level = 5) (group : Group ν) (outer : List (Group ν))
    (hinside : (!outer.isEmpty) = inside) (hgroup : ∀ w ∈ group, w.op.tightness < bound) :
    ∃ x waiting, (operandDue group outer).advance see p.tokens =
        some (operandRead x waiting outer) ∧ settle inside bound waiting x = (e, group) := by
  induction p generalizing e inside bound group outer with
  | number token hkind =>
    cases htree
    rw [← Text.Decimal.value_eq_ofNat]
    exact ⟨_, _, advance_cons_of_proceed (step_operandDue_iff.2 (.inl ⟨hkind, rfl⟩)) [],
      settle_of_looser hgroup _⟩
  | symbol token hkind =>
    obtain ⟨n, hn, rfl⟩ := Option.map_eq_some_iff.1 htree
    exact ⟨_, _,
      advance_cons_of_proceed (step_operandDue_iff.2 (.inr (.inl ⟨hkind, n, hn, rfl⟩))) [],
      settle_of_looser hgroup _⟩
  | parentheses opening hopening inner closing hclosing ih =>
    obtain ⟨x, waiting, hadvance, hsettle⟩ :=
      ih htree 0 rfl [] (group :: outer) rfl (by simp)
    have hopen : (operandDue group outer).step see opening =
        .proceed (operandDue [] (group :: outer)) :=
      step_operandDue_iff.2 (.inr (.inr ⟨hopening, rfl⟩))
    have hclose : (operandRead x waiting (group :: outer)).step see closing =
        .proceed (operandRead e group outer) := by
      rw [step_operandRead_iff.2 (.inr ⟨group, outer, rfl, hclosing, rfl⟩), settleAll, hsettle]
    refine ⟨e, group, ?_, settle_of_looser hgroup _⟩
    rw [tokens, advance_cons_of_proceed hopen, advance_concat hadvance, hclose]
    rfl
  | @operand level first ih =>
    obtain ⟨x, waiting, hadvance, hsettle⟩ := ih htree (bound + 1) (by omega) group outer hinside
      fun w hw => Nat.lt_succ_of_lt (hgroup w hw)
    refine ⟨x, waiting, hadvance, ?_⟩
    rw [← settle_settle (Nat.le_succ bound), hsettle, settle_of_looser hgroup]
  | @link level chain op sign hsign hlevel last ihchain ihlast =>
    obtain ⟨left, right, hleft, hright, rfl⟩ := tree_link_eq_some.1 htree
    obtain rfl : bound = op.tightness := by omega
    obtain ⟨x, waiting, hadvance, hsettle⟩ := ihchain hleft _ hbound group outer hinside hgroup
    -- the operator waits with the chain on its left, above what binds less tightly
    have hwaits : ∀ w ∈ (⟨op, left⟩ :: group : Group ν), w.op.tightness < op.tightness + 1 := by
      intro w hw
      rcases List.mem_cons.1 hw with rfl | hw
      · exact Nat.lt_succ_self _
      · exact Nat.lt_succ_of_lt (hgroup w hw)
    obtain ⟨y, waiting', hadvance', hsettle'⟩ :=
      ihlast hright (op.tightness + 1) (by omega) (⟨op, left⟩ :: group) outer hinside hwaits
    refine ⟨y, waiting', ?_, ?_⟩
    · have hop : (operandRead x waiting outer).step see sign =
          .proceed (operandDue (⟨op, left⟩ :: group) outer) := by
        rw [step_operandRead_iff.2 (.inl ⟨op, hsign, rfl⟩), hinside, hsettle]
      rw [tokens_link, advance_append, advance_concat hadvance, hop]
      exact hadvance'
    · rw [← settle_settle (Nat.le_succ op.tightness), hsettle', settle, if_pos (Nat.le_refl _),
        settle_of_looser hgroup]

end Phrase

/-! ### What has been read is spelled by phrases -/

/-- Whether tokens spell what waits in a group. Every left operand is a chain on the level of its
operator, and the operators bind ever less tightly. -/
inductive Group.Spells (see : Text → Option ν) (inside : Bool) : Group ν → List Token → Prop where
  /-- Nothing waits. -/
  | nil : Spells see inside [] []
  /-- A chain and its sign come last. -/
  | waiting {group : Group ν} {tokens : List Token} (h : Spells see inside group tokens)
    {op : Operator} {left : Expr ν} (hlooser : ∀ w ∈ group, w.op.tightness < op.tightness)
    {level : Nat} (hlevel : op.tightness + level = 4) (chain : Phrase (level + 1))
    (hchain : chain.tree see inside = some left) (sign : Token)
    (hsign : sign.kind = .mark op.mark) :
    Spells see inside (⟨op, left⟩ :: group) (tokens ++ (chain.tokens ++ [sign]))

/-- What settling does to the phrases: those that bind tightly enough become one phrase with the
operand, on the level that goes with the bound. The others go on waiting. -/
theorem Group.Spells.settled {group : Group ν} {tokens : List Token}
    (h : Group.Spells see inside group tokens) {level : Nat} (p : Phrase level) {e : Expr ν}
    (htree : p.tree see inside = some e) (bound level' : Nat) (hbound : bound + level' = 5)
    (hlevel : level ≤ level') (hfits : ∀ w ∈ group.head?, w.op.tightness + level ≤ 4) :
    ∃ (tokens' : List Token) (q : Phrase level'),
      Group.Spells see inside (settle inside bound group e).2 tokens' ∧
      (∀ w ∈ (settle inside bound group e).2, w.op.tightness < bound) ∧
      q.tree see inside = some (settle inside bound group e).1 ∧
      tokens' ++ q.tokens = tokens ++ p.tokens := by
  induction h generalizing level e with
  | nil =>
    obtain ⟨q, htokens, hsame⟩ := p.exists_looser hlevel
    exact ⟨[], q, .nil, by simp [settle], (hsame see inside).trans htree, by rw [htokens]⟩
  | @waiting group tokens h op left hlooser level₀ hlevel₀ chain hchain sign hsign ih =>
    by_cases htight : bound ≤ op.tightness
    · -- the operator gets its right operand, and the two make a longer chain
      have hfit : op.tightness + level ≤ 4 := hfits _ rfl
      have hoperand : level ≤ level₀ := by omega
      obtain ⟨last, htokens, hsame⟩ := p.exists_looser hoperand
      have hlink : (Phrase.link chain op sign hsign hlevel₀ last).tree see inside =
          some (join inside op left e) :=
        Phrase.tree_link_eq_some.2 ⟨left, e, hchain, (hsame see inside).trans htree, rfl⟩
      obtain ⟨tokens', q, hspells, hloose, hq, heq⟩ :=
        ih _ hlink (by omega) fun w hw => by
          have := hlooser w (List.mem_of_mem_head? hw)
          omega
      simp only [settle, if_pos htight]
      refine ⟨tokens', q, hspells, hloose, hq, heq.trans ?_⟩
      rw [Phrase.tokens_link, htokens]
      simp
    · obtain ⟨q, htokens, hsame⟩ := p.exists_looser hlevel
      simp only [settle, if_neg htight]
      refine ⟨_, q, .waiting h hlooser hlevel₀ chain hchain sign hsign, ?_,
        (hsame see inside).trans htree, by rw [htokens]⟩
      intro w hw
      rcases List.mem_cons.1 hw with rfl | hw
      · exact Nat.lt_of_not_le htight
      · exact Nat.lt_trans (hlooser w hw) (Nat.lt_of_not_le htight)

/-- Whether tokens spell what waits outside all open parentheses, and these parentheses. -/
inductive Group.AllSpell (see : Text → Option ν) : List (Group ν) → List Token → Prop where
  /-- No parenthesis is open. -/
  | nil : AllSpell see [] []
  /-- The innermost parenthesis comes last. -/
  | opening {outer : List (Group ν)} {before : List Token} (h : AllSpell see outer before)
    {group : Group ν} {tokens : List Token} (hgroup : Spells see (!outer.isEmpty) group tokens)
    (opening : Token) (hopening : opening.kind = .mark .openParen) :
    AllSpell see (group :: outer) (before ++ tokens ++ [opening])

/-- Whether tokens spell a state of reading. An operand that has just been completed is a primary. -/
def Progress.Spells (see : Text → Option ν) : Progress ν → List Token → Prop
  | operandDue group outer, read =>
    ∃ before tokens, Group.AllSpell see outer before ∧
      Group.Spells see (!outer.isEmpty) group tokens ∧ read = before ++ tokens
  | operandRead e group outer, read =>
    ∃ (before tokens : List Token) (p : Phrase 0), Group.AllSpell see outer before ∧
      Group.Spells see (!outer.isEmpty) group tokens ∧ p.tree see (!outer.isEmpty) = some e ∧
      read = before ++ tokens ++ p.tokens

/-- Settling before an operator leaves a chain of the level of the operator. -/
theorem Group.Spells.concat_operator {group : Group ν} {tokens : List Token}
    (h : Group.Spells see inside group tokens) {p : Phrase 0} {e : Expr ν}
    (htree : p.tree see inside = some e) {sign : Token} {op : Operator}
    (hsign : sign.kind = .mark op.mark) :
    Group.Spells see inside
      (⟨op, (settle inside op.tightness group e).1⟩ :: (settle inside op.tightness group e).2)
      (tokens ++ p.tokens ++ [sign]) := by
  have htightness := op.tightness_le
  obtain ⟨tokens', chain, hspells, hlooser, hchain, heq⟩ := h.settled p htree
    op.tightness (4 - op.tightness + 1) (by omega) (Nat.zero_le _) fun w _ => w.op.tightness_le
  have hwaiting := Group.Spells.waiting hspells hlooser (by omega) chain hchain sign hsign
  rwa [← List.append_assoc, heq] at hwaiting

/-- Settling all leaves a whole expression. -/
theorem Group.Spells.settledAll {group : Group ν} {tokens : List Token}
    (h : Group.Spells see inside group tokens) {p : Phrase 0} {e : Expr ν}
    (htree : p.tree see inside = some e) :
    ∃ q : Phrase 5, q.tree see inside = some (settleAll inside group e) ∧
      q.tokens = tokens ++ p.tokens := by
  obtain ⟨tokens', q, hspells, hlooser, hq, heq⟩ := h.settled p htree 0 5 rfl (Nat.zero_le _)
    fun w _ => w.op.tightness_le
  -- nothing binds less tightly than all operators
  have hnone : (settle inside 0 group e).2 = [] :=
    List.eq_nil_iff_forall_not_mem.2 fun w hw => Nat.not_lt_zero _ (hlooser w hw)
  rw [hnone] at hspells
  cases hspells
  exact ⟨q, hq, heq⟩

/-- A token that belongs to the expression is spelled too. -/
theorem Progress.Spells.step {progress progress' : Progress ν} {read : List Token} {token : Token}
    (h : progress.Spells see read) (hstep : progress.step see token = .proceed progress') :
    progress'.Spells see (read ++ [token]) := by
  cases progress with
  | operandDue group outer =>
    obtain ⟨before, tokens, hbefore, hgroup, rfl⟩ := h
    rcases step_operandDue_iff.1 hstep with ⟨hkind, rfl⟩ | ⟨hkind, n, hn, rfl⟩ | ⟨hopening, rfl⟩
    · exact ⟨before, tokens, .number token hkind, hbefore, hgroup,
        by rw [Phrase.tree, Text.Decimal.value_eq_ofNat], rfl⟩
    · exact ⟨before, tokens, .symbol token hkind, hbefore, hgroup, by simp [Phrase.tree, hn], rfl⟩
    · exact ⟨_, [], .opening hbefore hgroup token hopening, .nil, by simp⟩
  | operandRead e group outer =>
    obtain ⟨before, tokens, p, hbefore, hgroup, hp, rfl⟩ := h
    rcases step_operandRead_iff.1 hstep with
      ⟨op, hsign, rfl⟩ | ⟨around, outer, rfl, hclosing, rfl⟩
    · exact ⟨before, _, hbefore, hgroup.concat_operator hp hsign, by simp⟩
    · -- the parenthesis becomes an operand of what waits around it
      cases hbefore with
      | opening houter haround opening hopening =>
        obtain ⟨inner, hinner, htokens⟩ := hgroup.settledAll hp
        exact ⟨_, _, .parentheses opening hopening inner token hclosing, houter, haround, hinner,
          by simp [Phrase.tokens, htokens]⟩

/-- All that has been read since the beginning is spelled. -/
theorem Progress.Spells.advance {progress progress' : Progress ν} {read tokens : List Token}
    (h : progress.Spells see read) (hadvance : progress.advance see tokens = some progress') :
    progress'.Spells see (read ++ tokens) :=
  advance_invariant Progress.Spells.step h hadvance

/-! ### Whole lines -/

/-- A line is read as an expression exactly if its tokens are derived with that expression. -/
theorem readToEnd_eq_ok_iff {line : Line} {e : Expr ν} : readToEnd see line = .ok e ↔
    ∃ p : Phrase 5, p.tokens = line.tokens ∧ p.tree see false = some e := by
  rw [readToEnd_eq_runToEnd, runToEnd_eq_ok_iff]
  constructor
  · rintro ⟨progress, hadvance, hconclude⟩
    have hstart : Progress.start.Spells see [] := ⟨[], [], .nil, .nil, rfl⟩
    have hspells := hstart.advance hadvance
    cases progress with
    | operandDue group outer => cases hconclude
    | operandRead x group outer =>
      cases outer with
      | cons around outer => cases hconclude
      | nil =>
        cases hconclude
        obtain ⟨_, tokens, p, hnone, hgroup, hp, hread⟩ := hspells
        cases hnone
        obtain ⟨q, hq, htokens⟩ := hgroup.settledAll hp
        exact ⟨q, htokens.trans hread.symm, hq⟩
  · rintro ⟨p, htokens, htree⟩
    obtain ⟨x, waiting, hadvance, hsettle⟩ := p.advance_tokens htree 0 rfl [] [] rfl (by simp)
    rw [htokens] at hadvance
    exact ⟨_, hadvance, by rw [conclude, settleAll, hsettle]⟩

/-- Where names are seen as themselves, an expression is read exactly if it is read when all are seen,
and all of its own names are. -/
theorem readToEnd_eq_ok_iff_seen {see : Text → Option Text}
    (hself : ∀ {name seen : Text}, see name = some seen → seen = name) {line : Line}
    {e : Expr Text} : readToEnd see line = .ok e ↔
      readToEnd some line = .ok e ∧ ∀ n ∈ e.names, see n = some n := by
  simp only [readToEnd_eq_ok_iff, Phrase.tree_eq_some_iff hself]
  constructor
  · rintro ⟨p, htokens, htree, hnames⟩
    exact ⟨⟨p, htokens, htree⟩, hnames⟩
  · rintro ⟨⟨p, htokens, htree⟩, hnames⟩
    exact ⟨p, htokens, htree, hnames⟩

/-- A name can be seen if it has been entered and its symbol is visible. -/
theorem exists_see_iff {d : Draft} {name : Text} : (∃ s, d.see name = some s) ↔
    ∃ s, d.file.names.symbol? name = some s ∧ d.scopes.isVisible s = true := by
  simp [Draft.see, Option.filter_eq_some_iff]

/-- **Reading an expression derives it.** An expression takes up a line exactly if it is the one that
the tokens of the line derive, all symbols among them being visible, and there is no other
derivation of them. -/
theorem readToEnd_iff_derivation (d : Draft) (line : Line) (e : Expr Symbol) :
    (readToEnd d.see line = .ok e ↔
      ∃ p : Phrase 5, p.tokens = line.tokens ∧
        (∀ t ∈ line.tokens, t.kind = .symbol →
          ∃ s, d.file.names.symbol? t.text = some s ∧ d.scopes.isVisible s = true) ∧
        p.tree d.see false = some e) ∧
    ∀ p q : Phrase 5, p.tokens = line.tokens → q.tokens = line.tokens → p = q := by
  refine ⟨?_, fun p q hp hq => Phrase.eq_of_tokens_eq (hp.trans hq.symm)⟩
  rw [readToEnd_eq_ok_iff]
  refine exists_congr fun p => and_congr_right fun htokens => ?_
  have hsome : (p.tree d.see false).isSome ↔ _ := p.isSome_tree_iff
  rw [htokens] at hsome
  simp only [← exists_see_iff]
  exact ⟨fun htree => ⟨hsome.1 (by rw [htree]; rfl), htree⟩, And.right⟩

end PioFrontEnd.Expr
