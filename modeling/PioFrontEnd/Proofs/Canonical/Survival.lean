import PioFrontEnd.Proofs.Canonical.Lines
import PioFrontEnd.Proofs.NameTable

/-!
# Which expressions survive printing

The canonical form of any expression can be read, as long as its names are spelled as names are and
can be seen, and no literal has a sign. But what is read need not be what was printed: parentheses
are printed where an expression is flagged for them, and the reader flags by what stands inside
parentheses. Four conditions on the nodes of an expression, which mention neither the printer nor
the reader, say when the two agree.

* `shaped_false_iff`: the first three conditions (`Readable`) say that the expression can come out of
  the reader.
* `straight_iff`: the fourth says that products and quotients are grouped from the left.
* `survives_print_iff`: an expression is read back from its canonical form exactly if all four hold,
  and the reader returns nothing that violates one of the first three.
-/

namespace PioFrontEnd.Expr

variable {ν : Type}

/-! ### Conditions on nodes -/

/-- An expression and all expressions within it. -/
def subexpressions : Expr ν → List (Expr ν)
  | literal v => [literal v]
  | name n => [name n]
  | binary op l r p => binary op l r p :: (l.subexpressions ++ r.subexpressions)

/-- The expressions within an expression, without itself. -/
def inner : Expr ν → List (Expr ν)
  | literal _ | name _ => []
  | binary _ l r _ => l.subexpressions ++ r.subexpressions

/-- Whether an expression is flagged for parentheses. -/
def isFlagged : Expr ν → Bool
  | binary _ _ _ p => p
  | _ => false

/-- Whether parentheses are flagged where the reader would flag them, and the operators that are not
in parentheses are nested as their tightness says. -/
structure Readable (e : Expr ν) : Prop where
  /-- No product or quotient is flagged. -/
  products_bare : ∀ x ∈ e.subexpressions, x.isMultiplicative = true → x.isFlagged = false
  /-- Within what is flagged, and within products and quotients, all other binary expressions are
  flagged. -/
  inner_flagged : ∀ x ∈ e.subexpressions, x.isFlagged = true ∨ x.isMultiplicative = true →
    ∀ y ∈ x.inner, y.isBinary = true → y.isMultiplicative = false → y.isFlagged = true
  /-- What is neither flagged nor a product or quotient has no operand without a flag that binds too
  loosely: no left operand on a looser level, and no right one on a looser level or its own. -/
  operands_fit : ∀ op l r, binary op l r false ∈ e.subexpressions → op.isMultiplicative = false →
    (∀ op' l' r', l = binary op' l' r' false → ¬ op'.tightness < op.tightness) ∧
    (∀ op' l' r', r = binary op' l' r' false → ¬ op'.tightness ≤ op.tightness)

/-- No product or quotient is the right operand of one. -/
def ProductsFromLeft (e : Expr ν) : Prop :=
  ∀ op l r p, binary op l r p ∈ e.subexpressions → op.isMultiplicative = true →
    r.isMultiplicative = false

variable {op : Operator} {l r e x : Expr ν} {p : Bool}

/-- The subexpressions of an operation are itself and those of its operands. -/
theorem mem_subexpressions_binary : x ∈ (binary op l r p).subexpressions ↔
    x = binary op l r p ∨ x ∈ l.subexpressions ∨ x ∈ r.subexpressions := by
  simp [subexpressions]

/-- Every expression is one of its subexpressions. -/
theorem mem_subexpressions_self (e : Expr ν) : e ∈ e.subexpressions := by
  cases e <;> exact List.mem_cons_self

/-- What is within a part is within the whole. -/
theorem mem_subexpressions_of_mem_inner {y : Expr ν} (hx : x ∈ e.subexpressions)
    (hy : y ∈ x.inner) : y ∈ e.subexpressions := by
  induction e with
  | literal v =>
    obtain rfl := List.mem_singleton.1 hx
    cases hy
  | name n =>
    obtain rfl := List.mem_singleton.1 hx
    cases hy
  | binary op l r p ihl ihr =>
    rw [mem_subexpressions_binary] at hx ⊢
    rcases hx with rfl | hx | hx
    · exact .inr (List.mem_append.1 hy)
    · exact .inr (.inl (ihl hx))
    · exact .inr (.inr (ihr hx))

/-- Products and quotients are operations. -/
theorem isBinary_of_isMultiplicative (h : e.isMultiplicative = true) : e.isBinary = true := by
  cases e <;> first | rfl | cases h

/-- What binds at least so tightly, unless it is flagged. -/
theorem le_grip_iff {n : Nat} (hn : n ≤ 5) :
    n ≤ e.grip ↔ ∀ op l r, e = binary op l r false → n ≤ op.tightness := by
  cases e with
  | literal v => simp [grip, hn]
  | name n => simp [grip, hn]
  | binary op l r p => cases p <;> simp [grip, hn]

/-- Operands fit a node exactly if they hold together as tightly as it needs. -/
theorem grips_iff : op.tightness ≤ l.grip ∧ op.tightness < r.grip ↔
    (∀ op' l' r', l = binary op' l' r' false → ¬ op'.tightness < op.tightness) ∧
    (∀ op' l' r', r = binary op' l' r' false → ¬ op'.tightness ≤ op.tightness) := by
  have hop := op.tightness_le
  rw [← Nat.succ_le_iff, le_grip_iff (by omega), le_grip_iff (by omega)]
  simp only [Nat.not_lt, Nat.not_le, Nat.succ_le_iff]

/-! ### The first three conditions -/

/-- Inside parentheses all but products and quotients is flagged. -/
theorem shaped_true_iff : e.Shaped true ↔
    ∀ x ∈ e.subexpressions, x.isBinary = true → x.isFlagged = !x.isMultiplicative := by
  induction e with
  | literal v => simp [Shaped, subexpressions, isBinary]
  | name n => simp [Shaped, subexpressions, isBinary]
  | binary op l r p ihl ihr =>
    rw [Shaped, if_pos (.inr (.inl rfl)), ihl, ihr]
    simp [mem_subexpressions_binary, or_imp, forall_and, isBinary, isFlagged, isMultiplicative]

/-- What can be read inside parentheses is readable. -/
theorem Shaped.readable (h : e.Shaped true) : e.Readable := by
  rw [shaped_true_iff] at h
  refine ⟨fun x hx hmult => ?_, fun x hx _ y hy hbinary hmult => ?_, fun op l r hx hop => ?_⟩
  · rw [h x hx (isBinary_of_isMultiplicative hmult), hmult]
    rfl
  · rw [h y (mem_subexpressions_of_mem_inner hx hy) hbinary, hmult]
    rfl
  · have hflag : false = !op.isMultiplicative := h _ hx rfl
    rw [hop] at hflag
    cases hflag

/-- Within parentheses, or within a product, all but products and quotients is flagged. -/
theorem Readable.isFlagged_of_mem_inner (h : e.Readable)
    (he : e.isFlagged = true ∨ e.isMultiplicative = true) (hx : x ∈ e.inner)
    (hbinary : x.isBinary = true) : x.isFlagged = !x.isMultiplicative := by
  have hself := mem_subexpressions_self e
  cases hmult : x.isMultiplicative with
  | true => exact h.products_bare x (mem_subexpressions_of_mem_inner hself hx) hmult
  | false => exact h.inner_flagged e hself he x hx hbinary hmult

/-- The parts of an expression are readable if it is. -/
theorem Readable.of_subexpressions_subset {e' : Expr ν} (h : e.Readable)
    (hsub : ∀ x ∈ e'.subexpressions, x ∈ e.subexpressions) : e'.Readable :=
  ⟨fun x hx => h.products_bare x (hsub x hx), fun x hx => h.inner_flagged x (hsub x hx),
    fun op l r hx => h.operands_fit op l r (hsub _ hx)⟩

/-- Outside parentheses an expression is readable if its operands are and fit. -/
theorem Readable.bare (hop : op.isMultiplicative = false) (hl : l.Readable) (hr : r.Readable)
    (hgrips : op.tightness ≤ l.grip ∧ op.tightness < r.grip) : (binary op l r false).Readable where
  products_bare x hx hmult := by
    rcases mem_subexpressions_binary.1 hx with rfl | hx | hx
    · rfl
    · exact hl.products_bare x hx hmult
    · exact hr.products_bare x hx hmult
  inner_flagged x hx hinside := by
    rcases mem_subexpressions_binary.1 hx with rfl | hx | hx
    · rcases hinside with hflag | hmult
      · cases hflag
      · cases hop.symm.trans hmult
    · exact hl.inner_flagged x hx hinside
    · exact hr.inner_flagged x hx hinside
  operands_fit op' l' r' hx hop' := by
    rcases mem_subexpressions_binary.1 hx with hself | hx | hx
    · cases hself
      exact grips_iff.1 hgrips
    · exact hl.operands_fit op' l' r' hx hop'
    · exact hr.operands_fit op' l' r' hx hop'

/-- An expression can come out of the reader exactly if it is readable. -/
theorem shaped_false_iff : e.Shaped false ↔ e.Readable := by
  induction e with
  | literal v => exact ⟨fun _ => Shaped.readable trivial, fun _ => trivial⟩
  | name n => exact ⟨fun _ => Shaped.readable trivial, fun _ => trivial⟩
  | binary op l r p ihl ihr =>
    by_cases hcase : op.isMultiplicative = true ∨ false = true ∨ p = true
    · -- the operands stand inside parentheses, or beside a product
      have hinside : (binary op l r p).Shaped false ↔ (binary op l r p).Shaped true := by
        rw [Shaped, Shaped, if_pos hcase, if_pos (.inr (.inl rfl))]
      rw [hinside]
      refine ⟨Shaped.readable, fun h => shaped_true_iff.2 fun x hx hbinary => ?_⟩
      have hnode : op.isMultiplicative = true ∨ p = true := by simpa using hcase
      rcases mem_subexpressions_binary.1 hx with rfl | hx
      · cases hop : op.isMultiplicative with
        | true => simpa [isMultiplicative, hop] using h.products_bare _ hx hop
        | false => simpa [isFlagged, isMultiplicative, hop] using hnode
      · exact h.isFlagged_of_mem_inner hnode.symm (List.mem_append.2 hx) hbinary
    · rw [Shaped, if_neg hcase, ihl, ihr]
      simp only [Bool.false_eq_true, false_or, not_or, Bool.not_eq_true] at hcase
      obtain ⟨hop, rfl⟩ := hcase
      constructor
      · rintro ⟨hl, hr, hgrips⟩
        exact .bare hop hl hr hgrips
      · intro h
        refine ⟨?_, ?_, ?_⟩
        · exact h.of_subexpressions_subset fun x hx => mem_subexpressions_binary.2 (.inr (.inl hx))
        · exact h.of_subexpressions_subset fun x hx => mem_subexpressions_binary.2 (.inr (.inr hx))
        · exact grips_iff.2 (h.operands_fit op l r (mem_subexpressions_self _) hop)

/-! ### The fourth condition -/

/-- Products and quotients are grouped from the left exactly if none is the right operand of one. -/
theorem straight_iff : e.Straight ↔ e.ProductsFromLeft := by
  induction e with
  | literal v => simp [Straight, ProductsFromLeft, subexpressions]
  | name n => simp [Straight, ProductsFromLeft, subexpressions]
  | binary op l r p ihl ihr =>
    rw [Straight, ihl, ihr]
    unfold ProductsFromLeft
    constructor
    · rintro ⟨hl, hr, hright⟩ op' l' r' p' hx hop
      rcases mem_subexpressions_binary.1 hx with hself | hx | hx
      · cases hself
        exact Bool.eq_false_iff.2 fun hmult => hright ⟨hop, hmult⟩
      · exact hl op' l' r' p' hx hop
      · exact hr op' l' r' p' hx hop
    · intro h
      refine ⟨fun op' l' r' p' hx => h op' l' r' p' (mem_subexpressions_binary.2 (.inr (.inl hx))),
        fun op' l' r' p' hx => h op' l' r' p' (mem_subexpressions_binary.2 (.inr (.inr hx))), ?_⟩
      rintro ⟨hop, hmult⟩
      rw [h op l r p (mem_subexpressions_self _) hop] at hmult
      cases hmult

/-! ### Reading what was printed -/

/-- Names can be changed before or after an expression is attached to what waits. -/
theorem attach_map {μ : Type} (f : ν → μ) (waiting : Option (Waiting ν)) (e : Expr ν) :
    attach (waiting.map (Waiting.map f)) (e.map f) = (attach waiting e).map f := by
  cases waiting <;> rfl

/-- Names have no part in the grouping of products. -/
theorem regroup_map {μ : Type} (f : ν → μ) (waiting : Option (Waiting ν)) (e : Expr ν) :
    regroup (waiting.map (Waiting.map f)) (e.map f) = (regroup waiting e).map f := by
  induction e generalizing waiting with
  | literal v => exact attach_map f waiting (literal v)
  | name n => exact attach_map f waiting (name n)
  | binary op l r p ihl ihr =>
    by_cases hop : op.isMultiplicative = true
    · rw [map, regroup, if_pos hop, regroup, if_pos hop, ihl]
      exact ihr (some ⟨op, regroup waiting l⟩)
    · have hl := ihl none
      have hr := ihr none
      rw [Option.map_none] at hl hr
      rw [map, regroup, if_neg hop, regroup, if_neg hop, hl, hr]
      exact attach_map f waiting (binary op (regroup none l) (regroup none r) p)

/-- A line with the lexemes of an expression is read to its end, whatever the expression is. -/
theorem exists_read_of_lexemes {e : Expr Text} {see : Text → Option Text}
    (hsee : ∀ n ∈ e.names, see n = some n) (hsign : ∀ v ∈ e.literals, ¬ v < 0) {line : Line}
    (ht : line.tokens.map Token.lexeme = e.lexemes) :
    ∃ e', read see line = .ok (e', ⟨[], line.stop⟩) := by
  obtain ⟨x, waiting, hleads⟩ := leads_lexemes hsee hsign [] []
  have hrun := hleads line.stop line.tokens [] ht
  rw [List.append_nil] at hrun
  exact ⟨settleAll false waiting x, hrun⟩

variable {d : Draft} {e : Expr Symbol}

/-- Symbols are read back from their names, and then the rest is a matter of grouping. -/
theorem read_of_symbol_lexemes
    (hsee : ∀ s ∈ e.names, d.see (d.file.names.resolve s) = some s)
    (hsign : ∀ v ∈ e.literals, ¬ v < 0) {line : Line}
    (ht : line.tokens.map Token.lexeme = (e.map d.file.names.resolve).lexemes) :
    ∃ e', read d.see line = .ok (e', ⟨[], line.stop⟩) ∧
      (e.Shaped false → e' = regroup none e) := by
  let f : Symbol → Text := d.file.names.resolve
  let g : Text → Symbol := fun name => (d.see name).getD ⟨0⟩
  let see : Text → Option Text := fun name => (d.see name).map f
  have hnames : ∀ n ∈ (e.map f).names, see n = some n := by
    intro n hn
    rw [names_map] at hn
    obtain ⟨s, hs, rfl⟩ := List.mem_map.1 hn
    simp only [see, f, hsee s hs, Option.map_some]
  -- what is seen by name is what is seen by symbol
  have hseen : d.see = fun name => (see name).map g := by
    funext name
    cases hname : d.see name with
    | none => simp only [see, hname, Option.map_none]
    | some s =>
      have hresolve : f s = name := NameTable.resolve_of_symbol? (Option.filter_eq_some_iff.1 hname).1
      simp only [see, g, hname, Option.map_some, hresolve, Option.getD_some]
  have hback : (e.map f).map g = e := map_map_eq_self f fun s hs => by
    simp only [g, f, hsee s hs, Option.getD_some]
  have hsign' : ∀ v ∈ (e.map f).literals, ¬ v < 0 := by rwa [literals_map]
  obtain ⟨x, hx⟩ := exists_read_of_lexemes hnames hsign' ht
  have hread : read d.see line = .ok (x.map g, ⟨[], line.stop⟩) := by
    rw [hseen, read_map, hx]
    rfl
  refine ⟨_, hread, fun hshape => ?_⟩
  rw [read_of_lexemes ((shaped_map f).2 hshape) hnames hsign' ht] at hx
  cases hx
  have hmap := regroup_map g none (e.map f)
  rw [hback] at hmap
  exact hmap.symm

/-- **What survives printing.** The canonical form of an expression over visible names is one line
that is read to its end, and what is read is the expression itself exactly if it is readable and its
products and quotients are grouped from the left. Whatever is read is readable. The names
of the table are distinct, as they are in every table into which names have been entered. -/
theorem survives_print_iff (d : Draft) :
    (d.file.names.names.Nodup → ∀ e : Expr Symbol, (∀ v ∈ e.literals, 0 ≤ v) →
      (∀ s ∈ e.names, d.scopes.isVisible s = true ∧ IsName (d.file.names.resolve s) ∧
        ¬ IsKeyword (d.file.names.resolve s)) →
      ∃ line e', (TokenStream.ofText (e.map d.file.names.resolve).print).lines = [.ok line] ∧
        readToEnd d.see line = .ok e' ∧ (e' = e ↔ e.Readable ∧ e.ProductsFromLeft)) ∧
    ∀ line e rest, read d.see line = .ok (e, rest) → e.Readable := by
  refine ⟨fun hdistinct e hliterals hnames => ?_, fun line e rest h =>
    shaped_false_iff.1 (shaped_of_read h)⟩
  have hsign : ∀ v ∈ e.literals, ¬ v < 0 := fun v hv => Int32.not_lt.2 (hliterals v hv)
  have hsee : ∀ s ∈ e.names, d.see (d.file.names.resolve s) = some s := by
    intro s hs
    obtain ⟨hvisible, hname, -⟩ := hnames s hs
    have hhas : d.file.names.Has s := NameTable.has_of_resolve_ne_nil fun hnil => by
      rw [hnil] at hname
      exact hname
    rw [Draft.see, NameTable.symbol?_resolve hdistinct hhas, Option.filter_some, if_pos hvisible]
  have hspelled : ∀ n ∈ (e.map d.file.names.resolve).names, IsName n ∧ ¬ IsKeyword n := by
    intro n hn
    rw [names_map] at hn
    obtain ⟨s, hs, rfl⟩ := List.mem_map.1 hn
    exact (hnames s hs).2
  have hend : Delimited [] := fun c hc => by cases hc
  have hyields := yields_expr hspelled hend
  rw [List.append_nil] at hyields
  obtain ⟨kind, text, more, hcons, -⟩ := exists_lexemes_eq_cons (e.map d.file.names.resolve)
  obtain ⟨line, hlines, ht⟩ := TokenStream.lines_of_yields (TokenStream.fresh_ofText _) hyields
    (by rw [hcons]; simp)
  obtain ⟨e', hread, hgrouped⟩ := read_of_symbol_lexemes hsee hsign ht
  refine ⟨line, e', hlines, ?_, ?_⟩
  · rw [readToEnd, hread]
    rfl
  · rw [← shaped_false_iff, ← straight_iff]
    constructor
    · rintro rfl
      have hshape := shaped_of_read hread
      exact ⟨hshape, (regroup_eq_self_iff hshape).1 (hgrouped hshape).symm⟩
    · rintro ⟨hshape, hstraight⟩
      rw [hgrouped hshape]
      exact regroup_of_straight hshape hstraight

/-- A sum that is flagged survives below a product. Without the flag it is torn apart. -/
theorem survives_print_iff_flagged :
    let d : Draft := ⟨{ names := ⟨["x".toList]⟩ }, { shared := [(⟨0⟩, 0)] }⟩
    let e (flag : Bool) : Expr Symbol :=
      .binary .mul (.binary .add (.name ⟨0⟩) (.literal 1) flag) (.literal 2) false
    (∃ line, (TokenStream.ofText "(x + 1) * 2".toList).lines = [.ok line] ∧
      readToEnd d.see line = .ok (e true)) ∧
    ∃ line e', (TokenStream.ofText "x + 1 * 2".toList).lines = [.ok line] ∧
      readToEnd d.see line = .ok e' ∧ e' ≠ e false := by
  intro d e
  have hdistinct : d.file.names.names.Nodup := by decide
  have hliterals : ∀ flag, ∀ v ∈ (e flag).literals, 0 ≤ v := by
    intro flag v hv
    obtain rfl | rfl : v = 1 ∨ v = 2 := by simpa [e, literals] using hv
    · decide
    · decide
  have hnames : ∀ flag, ∀ s ∈ (e flag).names, d.scopes.isVisible s = true ∧
      IsName (d.file.names.resolve s) ∧ ¬ IsKeyword (d.file.names.resolve s) := by
    intro flag s hs
    obtain rfl : s = ⟨0⟩ := by simpa [e, names] using hs
    exact ⟨rfl, ⟨by decide, fun c hc => by cases hc⟩, by decide⟩
  constructor
  · obtain ⟨line, e', hlines, hread, hiff⟩ :=
      (survives_print_iff d).1 hdistinct (e true) (hliterals true) (hnames true)
    have hshape : (e true).Shaped false := by simp [e, Shaped, Operator.isMultiplicative]
    have hkept : e' = e true := hiff.2 ⟨shaped_false_iff.1 hshape, straight_iff.1 (by decide)⟩
    exact ⟨line, hlines, hkept ▸ hread⟩
  · obtain ⟨line, e', hlines, hread, hiff⟩ :=
      (survives_print_iff d).1 hdistinct (e false) (hliterals false) (hnames false)
    refine ⟨line, e', hlines, hread, fun hkept => ?_⟩
    have hbad := (hiff.1 hkept).1.inner_flagged (e false) (by decide) (by decide)
      (.binary .add (.name ⟨0⟩) (.literal 1) false) (by decide) rfl rfl
    cases hbad

end PioFrontEnd.Expr
