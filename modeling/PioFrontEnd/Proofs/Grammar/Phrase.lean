import PioFrontEnd.Expr.Reading

/-!
# The grammar of expressions

Expressions have five levels of operators: `|`, then `^`, then `&`, then `+` and `-`, then `*` and
`/`. On each level stands a chain of operands, joined by operators of the level, and the operands
are chains of the next tighter level. The operands of a chain of products are the primaries: a
number, a symbol, or an expression in parentheses.

A `Phrase` is a derivation from this grammar. It knows the tokens that are derived
(`Phrase.tokens`) and the expression that they stand for (`Phrase.tree`): every chain is nested to
the left, and what stands inside parentheses is flagged unless it is a product or a quotient. The
flag is no matter of the node itself but of the parentheses around it, so it is handed down.

* `Phrase.isSome_tree_iff`: a derivation has an expression exactly if its symbols can be seen.
* `Phrase.tree_eq_some_iff`: what is seen has no other part in the expression.
* `Phrase.eq_of_append_tokens`, `Phrase.eq_of_tokens_eq`: the grammar is unambiguous. The last
  operand of a chain is found from the right: it goes back to the last operator that binds less
  tightly than the operand does.
-/

namespace PioFrontEnd.Expr

variable {ν : Type}

/-- A derivation from a level of the grammar. On level 0 stand the primaries. On level `k + 1` stand
the chains with operands of level `k`; their operators have tightness `4 - k`. So level 5 is that of
whole expressions. -/
inductive Phrase : Nat → Type where
  /-- A number is a primary. -/
  | number (token : Token) (hkind : token.kind = .number) : Phrase 0
  /-- A symbol is a primary. -/
  | symbol (token : Token) (hkind : token.kind = .symbol) : Phrase 0
  /-- An expression in parentheses is a primary. -/
  | parentheses (opening : Token) (hopening : opening.kind = .mark .openParen) (inner : Phrase 5)
    (closing : Token) (hclosing : closing.kind = .mark .closeParen) : Phrase 0
  /-- A single operand is a chain. -/
  | operand {level : Nat} (first : Phrase level) : Phrase (level + 1)
  /-- A chain goes on with an operator of its level and one more operand. -/
  | link {level : Nat} (chain : Phrase (level + 1)) (op : Operator) (sign : Token)
    (hsign : sign.kind = .mark op.mark) (hlevel : op.tightness + level = 4)
    (last : Phrase level) : Phrase (level + 1)

namespace Phrase

variable {level : Nat}

/-- The tokens that are derived. -/
def tokens {level : Nat} : Phrase level → List Token
  | number token _ | symbol token _ => [token]
  | parentheses opening _ inner closing _ => opening :: (inner.tokens ++ [closing])
  | operand first => first.tokens
  | link chain _ sign _ _ last => chain.tokens ++ sign :: last.tokens

/-- The expression that is derived, if all its symbols can be seen. It is told whether it stands
inside parentheses. A number counts modulo `2 ^ 32`. -/
def tree (see : Text → Option ν) {level : Nat} (inside : Bool) : Phrase level → Option (Expr ν)
  | number token _ => some (.literal (Int32.ofNat (Nat.ofDigitChars 10 token.text 0)))
  | symbol token _ => (see token.text).map .name
  | parentheses _ _ inner _ _ => inner.tree see true
  | operand first => first.tree see inside
  | link chain op _ _ _ last => do
    let left ← chain.tree see inside
    let right ← last.tree see inside
    return .binary op left right (inside && !op.isMultiplicative)

/-- A derivation has an expression exactly if its symbols can be seen. -/
theorem isSome_tree_iff {see : Text → Option ν} (p : Phrase level) {inside : Bool} :
    (p.tree see inside).isSome ↔
      ∀ t ∈ p.tokens, t.kind = .symbol → ∃ n, see t.text = some n := by
  induction p generalizing inside with
  | number token hkind => simp [tree, tokens, hkind]
  | symbol token hkind => simp [tree, tokens, hkind, Option.isSome_iff_exists]
  | parentheses opening hopening inner closing hclosing ih =>
    simp [tree, tokens, ih, hopening, hclosing, or_imp, forall_and]
  | operand first ih => exact ih
  | link chain op sign hsign hlevel last ihchain ihlast =>
    have hboth : ((link chain op sign hsign hlevel last).tree see inside).isSome ↔
        (chain.tree see inside).isSome ∧ (last.tree see inside).isSome := by
      rw [tree]
      cases chain.tree see inside <;> cases last.tree see inside <;> simp
    rw [hboth, ihchain, ihlast]
    simp [tokens, hsign, forall_and, or_imp]

/-- A link puts its sign and its last operand behind the chain. -/
theorem tokens_link (chain : Phrase (level + 1)) (op : Operator) (sign : Token)
    (hsign : sign.kind = .mark op.mark) (hlevel : op.tightness + level = 4) (last : Phrase level) :
    (link chain op sign hsign hlevel last).tokens = chain.tokens ++ [sign] ++ last.tokens := by
  simp [tokens]

/-- The parts of a link and what they stand for. -/
theorem tree_link_eq_some {see : Text → Option ν} {inside : Bool} {chain : Phrase (level + 1)}
    {op : Operator} {sign : Token} {hsign : sign.kind = .mark op.mark}
    {hlevel : op.tightness + level = 4} {last : Phrase level} {e : Expr ν} :
    (link chain op sign hsign hlevel last).tree see inside = some e ↔
      ∃ left right, chain.tree see inside = some left ∧ last.tree see inside = some right ∧
        e = join inside op left right := by
  simp only [tree, join, Option.bind_eq_bind, Option.bind_eq_some_iff, Option.pure_def,
    Option.some.injEq]
  constructor
  · rintro ⟨left, hleft, right, hright, rfl⟩
    exact ⟨left, right, hleft, hright, rfl⟩
  · rintro ⟨left, right, hleft, hright, rfl⟩
    exact ⟨left, hleft, right, hright, rfl⟩

/-- Where names are seen as themselves, the expression is what it is if all are seen, and all of its
own names are. -/
theorem tree_eq_some_iff {see : Text → Option Text}
    (hself : ∀ {name seen : Text}, see name = some seen → seen = name) (p : Phrase level)
    {inside : Bool} {e : Expr Text} : p.tree see inside = some e ↔
      p.tree some inside = some e ∧ ∀ n ∈ e.names, see n = some n := by
  induction p generalizing inside e with
  | number token hkind =>
    refine ⟨fun h => ⟨h, ?_⟩, And.left⟩
    cases h
    exact fun n hn => nomatch hn
  | symbol token hkind =>
    simp only [tree, Option.map_eq_some_iff, Option.some.injEq, exists_eq_left']
    constructor
    · rintro ⟨n, hn, rfl⟩
      obtain rfl := hself hn
      exact ⟨rfl, fun m hm => List.mem_singleton.1 hm ▸ hn⟩
    · rintro ⟨rfl, hnames⟩
      exact ⟨_, hnames _ List.mem_cons_self, rfl⟩
  | parentheses opening hopening inner closing hclosing ih => exact ih
  | operand first ih => exact ih
  | link chain op sign hsign hlevel last ihchain ihlast =>
    simp only [tree_link_eq_some, ihchain, ihlast]
    constructor
    · rintro ⟨left, right, ⟨hleft, hnames⟩, ⟨hright, hnames'⟩, rfl⟩
      exact ⟨⟨left, right, hleft, hright, rfl⟩,
        fun n hn => (List.mem_append.1 hn).elim (hnames n) (hnames' n)⟩
    · rintro ⟨⟨left, right, hleft, hright, rfl⟩, hnames⟩
      exact ⟨left, right, ⟨hleft, fun n hn => hnames n (List.mem_append_left _ hn)⟩,
        ⟨hright, fun n hn => hnames n (List.mem_append_right _ hn)⟩, rfl⟩

/-- A phrase stands on every looser level too. -/
theorem exists_looser (p : Phrase level) {level' : Nat} (h : level ≤ level') :
    ∃ q : Phrase level', q.tokens = p.tokens ∧
      ∀ (see : Text → Option ν) (inside : Bool), q.tree see inside = p.tree see inside := by
  induction h with
  | refl => exact ⟨p, rfl, fun _ _ => rfl⟩
  | step _ ih =>
    obtain ⟨q, htokens, htree⟩ := ih
    exact ⟨operand q, htokens, htree⟩

/-! ### The grammar is unambiguous -/

/-- Whether an operator that stands last binds its right operand less tightly than any operator in a
phrase of this level binds. -/
def Follows (before : List Token) (level : Nat) : Prop :=
  ∀ t ∈ before.getLast?, ∀ op : Operator, t.kind = .mark op.mark → op.tightness + level < 5

/-- Where a phrase of one level may follow, one of the next tighter level may follow, too. -/
theorem Follows.tighter {before : List Token} (h : Follows before (level + 1)) :
    Follows before level := fun t ht op hop => by
  have := h t ht op hop
  omega

/-- An operand may follow an operator of the level above. -/
theorem follows_concat {before : List Token} {sign : Token} {op : Operator}
    (hsign : sign.kind = .mark op.mark) (hlevel : op.tightness + level = 4) :
    Follows (before ++ [sign]) level := by
  intro t ht op' hop'
  obtain rfl : sign = t := by simpa using ht
  obtain rfl := Operator.mark_injective (TokenKind.mark.inj (hsign.symm.trans hop'))
  omega

/-- A chain may not. -/
theorem not_follows_concat {before : List Token} {sign : Token} {op : Operator}
    (hsign : sign.kind = .mark op.mark) (hlevel : op.tightness + level = 4) :
    ¬ Follows (before ++ [sign]) (level + 1) := by
  intro h
  have := h sign (by simp) op hsign
  omega

/-- Anything may follow an opening parenthesis. -/
theorem follows_opening {before : List Token} {opening : Token}
    (hopening : opening.kind = .mark .openParen) : Follows (before ++ [opening]) level := by
  intro t ht op hop
  obtain rfl : opening = t := by simpa using ht
  exact absurd (TokenKind.mark.inj (hop.symm.trans hopening)) op.mark_ne_openParen

/-- No phrase of one token is the same as an expression in parentheses. -/
theorem ne_parentheses {before before' inner : List Token} {token opening closing : Token}
    (hkind : token.kind ≠ .mark .closeParen) (hclosing : closing.kind = .mark .closeParen) :
    before ++ [token] ≠ before' ++ opening :: (inner ++ [closing]) := by
  intro h
  rw [← List.cons_append, ← List.append_assoc] at h
  obtain ⟨-, htoken⟩ := List.append_inj' h rfl
  rw [List.singleton_inj.1 htoken] at hkind
  exact hkind hclosing

/-- What stands before a phrase and the phrase itself are determined by the tokens of both, as long
as no operator that stands before it takes a part of it for its operand. -/
theorem eq_of_append_tokens (p q : Phrase level) {before before' : List Token}
    (hbefore : Follows before level) (hbefore' : Follows before' level)
    (h : before ++ p.tokens = before' ++ q.tokens) : before = before' ∧ p = q := by
  induction p generalizing before before' with
  | number token hkind =>
    cases q with
    | number token' hkind' =>
      obtain ⟨rfl, rfl⟩ : before = before' ∧ token = token' := by simpa [tokens] using h
      exact ⟨rfl, rfl⟩
    | symbol token' hkind' =>
      obtain ⟨-, rfl⟩ : before = before' ∧ token = token' := by simpa [tokens] using h
      cases hkind.symm.trans hkind'
    | parentheses opening _ inner closing hclosing =>
      exact absurd h (ne_parentheses (by simp [hkind]) hclosing)
  | symbol token hkind =>
    cases q with
    | number token' hkind' =>
      obtain ⟨-, rfl⟩ : before = before' ∧ token = token' := by simpa [tokens] using h
      cases hkind.symm.trans hkind'
    | symbol token' hkind' =>
      obtain ⟨rfl, rfl⟩ : before = before' ∧ token = token' := by simpa [tokens] using h
      exact ⟨rfl, rfl⟩
    | parentheses opening _ inner closing hclosing =>
      exact absurd h (ne_parentheses (by simp [hkind]) hclosing)
  | parentheses opening hopening inner closing hclosing ih =>
    cases q with
    | number token hkind => exact absurd h.symm (ne_parentheses (by simp [hkind]) hclosing)
    | symbol token hkind => exact absurd h.symm (ne_parentheses (by simp [hkind]) hclosing)
    | parentheses opening' hopening' inner' closing' hclosing' =>
      -- the parentheses stand at both ends, and what is inside follows the opening one
      have hends : before ++ [opening] ++ inner.tokens ++ [closing] =
          before' ++ [opening'] ++ inner'.tokens ++ [closing'] := by
        simpa [tokens] using h
      obtain ⟨hinner, hclose⟩ := List.append_inj' hends rfl
      obtain rfl := List.singleton_inj.1 hclose
      obtain ⟨hopen, rfl⟩ := ih inner' (follows_opening hopening) (follows_opening hopening') hinner
      obtain ⟨rfl, rfl⟩ : before = before' ∧ opening = opening' := by simpa using hopen
      exact ⟨rfl, rfl⟩
  | operand first ih =>
    cases q with
    | operand first' =>
      obtain ⟨rfl, rfl⟩ := ih first' hbefore.tighter hbefore'.tighter h
      exact ⟨rfl, rfl⟩
    | link chain op sign hsign hlevel last =>
      -- the sign would stand before the single operand
      rw [tokens_link, ← List.append_assoc, ← List.append_assoc] at h
      obtain ⟨rfl, -⟩ := ih last hbefore.tighter (follows_concat hsign hlevel) h
      exact absurd hbefore (not_follows_concat hsign hlevel)
  | link chain op sign hsign hlevel last ihchain ihlast =>
    cases q with
    | operand first =>
      rw [tokens_link, ← List.append_assoc, ← List.append_assoc] at h
      obtain ⟨rfl, -⟩ := ihlast first (follows_concat hsign hlevel) hbefore'.tighter h
      exact absurd hbefore' (not_follows_concat hsign hlevel)
    | link chain' op' sign' hsign' hlevel' last' =>
      -- the last operands are the same, then the signs, then what is left of the chains
      simp only [tokens_link, ← List.append_assoc] at h
      obtain ⟨hbody, rfl⟩ :=
        ihlast last' (follows_concat hsign hlevel) (follows_concat hsign' hlevel') h
      obtain ⟨hchains, hsigns⟩ := List.append_inj' hbody rfl
      obtain rfl := List.singleton_inj.1 hsigns
      obtain ⟨rfl, rfl⟩ := ihchain chain' hbefore hbefore' hchains
      obtain rfl := Operator.mark_injective (TokenKind.mark.inj (hsign.symm.trans hsign'))
      exact ⟨rfl, rfl⟩

/-- There is only one derivation of the same tokens on a level. -/
theorem eq_of_tokens_eq {p q : Phrase level} (h : p.tokens = q.tokens) : p = q := by
  have hnothing : Follows [] level := fun t ht => by cases ht
  exact (eq_of_append_tokens p q hnothing hnothing (congrArg _ h)).2

end Phrase

end PioFrontEnd.Expr
