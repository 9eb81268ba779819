import PioFrontEnd.Proofs.ByName.Lines
import PioFrontEnd.Proofs.Exact.Script
import PioFrontEnd.Proofs.Grammar.Derivation
import PioFrontEnd.Proofs.SelfContained

/-!
# Constants without quotients are exact

Compilation wraps everywhere: at every digit of a numeral, at every operator, and whenever the value
of one define is used in another. For all operators but the quotient this amounts to wrapping once,
at the end. So if no quotient has a part in a define, neither in its own expression nor in those of
the defines that it refers to, however far away, then its value is the word of the number that the
same source comes to on unbounded integers.

Listing and reckoning grow by the same lines. They are kept side by side (`Tally`), every define
with the number that was reckoned for it, and the one invariant is that the two agree where no
quotient has a part (`Tally.Keeps`). A define that is added refers only to what stands in the tally
already, and what an earlier define refers to does not change.

* `Expr.Phrase.unbounded_of_tree`: a phrase comes to a number of which the word is the value of its
  tree.
* `Tally.Keeps.takeLine`: what is taken of one line keeps the tally.
* `compile_exact_of_divisionFree`: the values of compiled files.
-/

namespace PioFrontEnd

/-! ### Expressions without quotients -/

/-- Whether an expression contains no quotient. -/
def Expr.DivisionFree {ν : Type} : Expr ν → Prop
  | .literal _ | .name _ => True
  | .binary op l r _ => op ≠ .div ∧ l.DivisionFree ∧ r.DivisionFree

instance Expr.decidableDivisionFree {ν : Type} : (e : Expr ν) → Decidable e.DivisionFree
  | .literal _ | .name _ => .isTrue trivial
  | .binary op l r _ =>
    have := decidableDivisionFree l
    have := decidableDivisionFree r
    inferInstanceAs (Decidable (op ≠ .div ∧ _ ∧ _))

/-- Whether the define at a place and all defines that it refers to, directly or through others,
have expressions without quotients. -/
def Listing.DivisionFreeFrom {ν : Type} (l : Listing ν) (place : Place) : Prop :=
  ∀ q define, Relation.ReflTransGen l.Refers place q → l.at? q = some define →
    define.expr.DivisionFree

/-- A phrase without quotients comes to a number, and the value of its tree is the word of that
number, if the values of its names are the words of theirs. -/
theorem Expr.Phrase.unbounded_of_tree {see : Text → Option Text}
    (hsee : ∀ t n, see t = some n → n = t)
    {look : Text → Option Int} {meaning : Text → Except Cause Int32} {level : Nat}
    (p : Phrase level) {inside : Bool} {e : Expr Text} (htree : p.tree see inside = some e)
    (hfree : e.DivisionFree)
    (hnames : ∀ n ∈ e.names, ∃ z, look n = some z ∧ meaning n = .ok (Int32.ofInt z)) :
    ∃ z, p.unbounded look = some z ∧ e.valueUnder meaning = .ok (Int32.ofInt z) := by
  induction p generalizing inside e with
  | number token hkind =>
    cases htree
    refine ⟨_, rfl, ?_⟩
    rw [Int32.ofInt_eq_ofNat]
    rfl
  | symbol token hkind =>
    obtain ⟨n, hn, rfl⟩ := Option.map_eq_some_iff.1 htree
    obtain rfl := hsee _ _ hn
    exact hnames _ (List.mem_singleton_self _)
  | parentheses opening hopening inner closing hclosing ih => exact ih htree hfree hnames
  | operand first ih => exact ih htree hfree hnames
  | link chain op sign hsign hlevel last ihchain ihlast =>
    obtain ⟨left, right, hleft, hright, rfl⟩ := tree_link_eq_some.1 htree
    obtain ⟨hop, hfreeleft, hfreeright⟩ := hfree
    obtain ⟨a, ha, hvaluea⟩ :=
      ihchain hleft hfreeleft fun n hn => hnames n (List.mem_append_left _ hn)
    obtain ⟨b, hb, hvalueb⟩ :=
      ihlast hright hfreeright fun n hn => hnames n (List.mem_append_right _ hn)
    obtain ⟨z, hz, happly⟩ := Operator.apply_ofInt hop a b
    refine ⟨z, ?_, ?_⟩
    · simp only [unbounded, ha, hb, Option.bind_eq_bind, Option.bind_some, hz]
    · simp only [join, valueUnder, hvaluea, hvalueb, happly]

/-! ### References in a listing that grows -/

namespace Listing

variable {ν : Type} {l l' : Listing ν}

/-- What a define refers to stays, when a listing grows. -/
theorem Refers.of_grown (hkeep : ∀ {p d}, l.at? p = some d → l'.at? p = some d) {p q : Place}
    (h : l.Refers p q) : l'.Refers p q := by
  obtain ⟨define, hat, ⟨n, hn, hname⟩, hseen⟩ := h
  obtain ⟨target, htarget, rfl⟩ := Option.map_eq_some_iff.1 hname
  refine ⟨define, hkeep hat, ⟨_, hn, ?_⟩, hseen⟩
  rw [nameAt, hkeep htarget, Option.map_some]

/-- If quotients have no part in a define in the end, they had none before. -/
theorem DivisionFreeFrom.of_grown (hkeep : ∀ {p d}, l.at? p = some d → l'.at? p = some d)
    {place : Place} (h : l'.DivisionFreeFrom place) : l.DivisionFreeFrom place := by
  intro q define hreach hat
  exact h q define (hreach.lift id fun _ _ => Refers.of_grown hkeep) (hkeep hat)

/-- Where defines without quotients refer to defines without quotients only, no quotient has a part
in them. -/
theorem DivisionFreeFrom.of_closed
    (hclosed : ∀ d ∈ l.allDefines, d.expr.DivisionFree → ∀ d' ∈ l.allDefines,
      d'.name ∈ d.expr.names → d'.expr.DivisionFree) {place : Place}
    (hplace : ∀ d, l.at? place = some d → d.expr.DivisionFree) : l.DivisionFreeFrom place := by
  intro q d hreach
  induction hreach generalizing d with
  | refl => exact hplace d
  | tail _ hrefers ih =>
    intro hat
    obtain ⟨d₀, hat₀, ⟨n, hn, hname⟩, -⟩ := hrefers
    rw [nameAt, hat] at hname
    cases hname
    exact hclosed d₀ (mem_allDefines_of_at? hat₀) (ih d₀ hat₀) d (mem_allDefines_of_at? hat) hn

end Listing

/-! ### Lines as they are spelled -/

namespace Statement

variable {see : Text → Option Text} {line : Line} {s : Statement Text}

/-- A constant that is read is spelled by a name and a phrase. -/
theorem spelled_of_readConstant {site : Nat} {exported : Bool} (hended : line.Ended)
    (h : readConstant see site exported line = .ok s) :
    ∃ (name : Token) (phrase : Expr.Phrase 5) (expr : Expr Text), name.kind = .symbol ∧
      line.tokens = name :: phrase.tokens ∧ phrase.tree see false = some expr ∧
      s = .define exported name.text expr := by
  obtain ⟨hname, expr, left, hread, hfinish, rfl⟩ := readConstant_eq_ok.1 h
  have hexpr : Expr.readToEnd see line.rest = .ok expr :=
    bind_eq_ok.2 ⟨(expr, left), hread, bind_eq_ok.2 ⟨(), hfinish, rfl⟩⟩
  obtain ⟨phrase, hphrase, htree⟩ := Expr.readToEnd_eq_ok_iff.1 hexpr
  refine ⟨line.peek, phrase, expr, hname, ?_, htree, rfl⟩
  rw [hphrase]
  exact hended.tokens_eq_cons hname (by simp) (by simp)

/-- What is read of a line is what the line spells in a script. -/
theorem spelled_of_read (hended : line.Ended) (h : read see line = .ok s) :
    (∃ name, (Written.program name).Spells line.tokens ∧ s = .program name) ∨
      ∃ name phrase exported expr, (Written.constant name phrase).Spells line.tokens ∧
        phrase.tree see false = some expr ∧ s = .define exported name expr := by
  unfold read at h
  dsimp only at h
  split at h
  · rename_i hkind
    obtain ⟨hname, hfinish, rfl⟩ := readProgram_eq_ok.1 h
    refine .inl ⟨_, ⟨line.peek, line.rest.peek, hkind, hname, rfl, ?_⟩, rfl⟩
    rw [hended.tokens_eq_cons hkind (by simp) (by simp),
      hended.rest.tokens_eq_cons hname (by simp) (by simp),
      Line.tokens_of_finish hfinish]
  · rename_i hkind
    have hfront := hended.tokens_eq_cons hkind (by simp) (by simp)
    rw [readDefine_eq] at h
    split at h
    · rename_i hqualifier
      have hsecond :=
        hended.rest.tokens_eq_cons hqualifier (by simp) (by simp)
      obtain ⟨name, phrase, expr, hname, htokens, htree, rfl⟩ :=
        spelled_of_readConstant hended.rest.rest h
      rw [hfront, hsecond, htokens]
      exact .inr ⟨name.text, phrase, true, expr, ⟨line.peek, name, some line.rest.peek, hkind,
        by simpa using hqualifier, hname, rfl, rfl⟩, htree, rfl⟩
    · obtain ⟨name, phrase, expr, hname, htokens, htree, rfl⟩ :=
        spelled_of_readConstant hended.rest h
      rw [hfront, htokens]
      exact .inr ⟨name.text, phrase, false, expr,
        ⟨line.peek, name, none, hkind, by simp, hname, rfl, rfl⟩, htree, rfl⟩
  · cases h

end Statement

/-! ### Tallies -/

/-- The defines of a source, each with the number that was reckoned for it. -/
abbrev Tally := Scoped (Define Text × Option Int)

/-- Whether a tally has the defines of a listing and the numbers of a reckoning, and these agree
where no quotient has a part. -/
structure Tally.Keeps (t : Tally) (l : Listing Text) (r : Reckoning) : Prop where
  /-- The tally has the defines of the listing. -/
  listing : l.entries = t.map Prod.fst
  /-- It has the numbers of the reckoning. -/
  reckoning : r = t.map fun entry => (entry.1.name, entry.2)
  /-- Where no quotient has a part there is a number, and the value is the word of it. -/
  agree : ∀ {place d x}, t.at? place = some (d, x) → l.DivisionFreeFrom place →
    ∃ z, x = some z ∧ d.value = some (Int32.ofInt z)

namespace Tally.Keeps

variable {t : Tally} {l l' : Listing Text} {r : Reckoning}

/-- Nothing is there at first. -/
theorem empty : Keeps {} {} {} where
  listing := rfl
  reckoning := rfl
  agree h := by
    rw [Scoped.at?_empty] at h
    cases h

/-- What stands in the listing stands in the tally. -/
theorem at?_eq (h : t.Keeps l r) (place : Place) : l.at? place = (t.at? place).map Prod.fst := by
  rw [← Listing.at?_entries, h.listing, Scoped.at?_map]

/-- What is found by its name in the listing stands in sight, and has this name and the number of it
in the reckoning. -/
theorem exists_at?_of_find? (h : t.Keeps l r) {name : Text} {d : Define Text}
    (hfind : l.find? name = some d) :
    ∃ place, t.at? place = some (d, r.look name) ∧ place.SeenFrom t.current := by
  have hdefine : l.find? name = (t.visible.find? (·.1.name = name)).map Prod.fst := by
    rw [Listing.find?, ← Listing.visible_entries, h.listing, Scoped.visible_map, List.find?_map]
    rfl
  have hlook : r.look name = (t.visible.find? (·.1.name = name)).bind Prod.snd := by
    rw [Reckoning.look, h.reckoning, Scoped.visible_map, List.find?_map, Option.bind_map]
    rfl
  rw [hdefine] at hfind
  obtain ⟨entry, hentry, rfl⟩ := Option.map_eq_some_iff.1 hfind
  rw [hlook, hentry, Option.bind_some]
  exact Scoped.exists_at?_of_mem_visible (List.mem_of_find?_eq_some hentry)

/-- Where no quotient has a part in a define that is seen, the value of its name is the word of the
number of its name. -/
theorem exists_number (h : t.Keeps l r) {name : Text} (hsome : (l.find? name).isSome = true) :
    ∃ place, l.nameAt place = some name ∧ place.SeenFrom t.current ∧
      (l.DivisionFreeFrom place →
        ∃ z, r.look name = some z ∧ l.valueOf name = .ok (Int32.ofInt z)) := by
  obtain ⟨d, hfind⟩ := Option.isSome_iff_exists.1 hsome
  obtain ⟨place, hat, hseen⟩ := h.exists_at?_of_find? hfind
  refine ⟨place, ?_, hseen, fun hfree => ?_⟩
  · rw [Listing.nameAt, h.at?_eq, hat]
    exact congrArg some (name_of_find? hfind)
  · obtain ⟨z, hz, hvalue⟩ := h.agree hat hfree
    refine ⟨z, hz, ?_⟩
    rw [Listing.valueOf, hfind, Option.bind_some, hvalue]

/-- A program begins with nothing. -/
theorem addProgram (h : t.Keeps l r) (name : Text) :
    Tally.Keeps t.addProgram (l.addProgram name) r.addProgram where
  listing := by rw [Listing.entries_addProgram, h.listing, Scoped.addProgram_map]
  reckoning := by rw [h.reckoning, Scoped.addProgram_map]
  agree {place d x} hat hfree := by
    rw [Scoped.at?_addProgram] at hat
    refine h.agree hat (hfree.of_grown fun {p d'} hp => ?_)
    rw [Listing.at?_addProgram, hp]

/-- A new define is found at the next place of the tally, and no other define moves. -/
theorem at?_append (h : t.Keeps l r) (d : Define Text) (place : Place) :
    (l.append d).at? place = if place = t.next then some d else l.at? place := by
  have hentries : (l.append d).entries = (t.append (d, none)).map Prod.fst := by
    rw [Listing.entries_append, h.listing, Scoped.append_map]
  rw [← Listing.at?_entries, hentries, Scoped.at?_map, Scoped.at?_append, h.at?_eq]
  split <;> rfl

/-- A define that is put at the end stands at the next place. -/
theorem at?_append_next (h : t.Keeps l r) (d : Define Text) :
    (l.append d).at? t.next = some d := by
  rw [h.at?_append, if_pos rfl]

/-- What is found already stays where it is. -/
theorem at?_append_of_some (h : t.Keeps l r) (d : Define Text) {place : Place} {d' : Define Text}
    (hat : l.at? place = some d') : (l.append d).at? place = some d' := by
  have hplace : place ≠ t.next := by
    rintro rfl
    rw [h.at?_eq, Scoped.at?_next] at hat
    cases hat
  rw [h.at?_append, if_neg hplace, hat]

/-- If no quotient has a part in a new define, the names in its expression have numbers, of which
their values are the words: what they stand for is in the tally already. -/
theorem exists_numbers (h : t.Keeps l r) {d : Define Text}
    (hseen : ∀ n ∈ d.expr.names, (l.find? n).isSome = true)
    (hfree : (l.append d).DivisionFreeFrom t.next) :
    ∀ n ∈ d.expr.names, ∃ z, r.look n = some z ∧ l.valueOf n = .ok (Int32.ofInt z) := by
  intro n hn
  obtain ⟨q, hname, hsight, hnumber⟩ := h.exists_number (hseen n hn)
  have hrefers : (l.append d).Refers t.next q := by
    obtain ⟨target, htarget, rfl⟩ := Option.map_eq_some_iff.1 hname
    refine ⟨d, h.at?_append_next d, ⟨_, hn, ?_⟩, hsight⟩
    rw [Listing.nameAt, h.at?_append_of_some d htarget, Option.map_some]
  apply hnumber
  apply Listing.DivisionFreeFrom.of_grown (h.at?_append_of_some d)
  intro p d' hreach
  exact hfree p d' (.head hrefers hreach)

/-- A define is added with the number of its phrase. -/
theorem append (h : t.Keeps l r) {d : Define Text} {phrase : Expr.Phrase 5} {v : Int32}
    (htree : phrase.tree l.see false = some d.expr)
    (hseen : ∀ n ∈ d.expr.names, (l.find? n).isSome = true)
    (hvalue : d.expr.valueUnder l.valueOf = .ok v) (hv : d.value = some v) :
    Tally.Keeps (t.append (d, phrase.unbounded r.look)) (l.append d)
      (r.append (d.name, phrase.unbounded r.look)) where
  listing := by rw [Listing.entries_append, h.listing, Scoped.append_map]
  reckoning := by rw [h.reckoning, Scoped.append_map]
  agree {place d' x} hat hfree := by
    rw [Scoped.at?_append] at hat
    split at hat
    · rename_i hplace
      cases hat
      subst hplace
      have hown : d.expr.DivisionFree := hfree _ d .refl (h.at?_append_next d)
      obtain ⟨z, hz, hword⟩ := Expr.Phrase.unbounded_of_tree (fun _ _ => Listing.eq_of_see) phrase
        htree hown (h.exists_numbers hseen hfree)
      cases hvalue.symm.trans hword
      exact ⟨z, hz, hv⟩
    · exact h.agree hat (hfree.of_grown (h.at?_append_of_some d))

/-- A line that is taken keeps a tally. -/
theorem takeLine (h : t.Keeps l r) {line : Line} (hended : line.Ended)
    (htake : l.takeLine line = .ok l') :
    ∃ (t' : Tally) (written : Written), written.Spells line.tokens ∧
      t'.Keeps l' (r.take written) := by
  obtain ⟨statement, hread, hobey⟩ := Listing.takeLine_eq_ok.1 htake
  rcases Statement.spelled_of_read hended hread with
    ⟨name, hspells, rfl⟩ | ⟨name, phrase, exported, expr, hspells, htree, rfl⟩
  · obtain ⟨-, rfl⟩ := Listing.beginProgram_eq_ok.1 hobey
    exact ⟨_, _, hspells, h.addProgram name⟩
  · obtain ⟨v, hvalue, -, rfl⟩ := Listing.defineConstant_eq_ok.1 hobey
    have hseen : ∀ n ∈ expr.names, (l.find? n).isSome = true := by
      intro n hn
      obtain ⟨name', hsee⟩ := Statement.exists_see_of_read hread n hn
      exact Listing.isSome_find?_of_see hsee
    exact ⟨_, _, hspells, h.append htree hseen hvalue rfl⟩

/-- Lines that are taken keep a tally. -/
theorem takeLines {lines : List (Except Fault Line)} (h : t.Keeps l r)
    (hended : ∀ line, .ok line ∈ lines → line.Ended) (htake : l.takeLines lines = .ok l') :
    ∃ (t' : Tally) (script : List Written),
      List.Forall₂ (fun item written => ∃ line, item = .ok line ∧ written.Spells line.tokens)
        lines script ∧ t'.Keeps l' (script.foldl Reckoning.take r) := by
  induction lines generalizing t l r with
  | nil =>
    cases htake
    exact ⟨t, [], .nil, h⟩
  | cons item lines ih =>
    rcases item with fault | line
    · cases htake
    · obtain ⟨l₁, hline, hlines⟩ := Listing.takeLines_cons_eq_ok.1 htake
      obtain ⟨t₁, written, hspells, h₁⟩ := h.takeLine (hended line List.mem_cons_self) hline
      obtain ⟨t', script, hscript, ht'⟩ :=
        ih h₁ (fun line hmem => hended line (List.mem_cons_of_mem _ hmem)) hlines
      exact ⟨t', written :: script, .cons ⟨line, rfl, hspells⟩ hscript, ht'⟩

end Tally.Keeps

/-! ### Compiled files -/

/-- **Constants without quotients are exact.** A compiled source says one script. Wherever no
quotient has a part in a define of its file, the script comes to a number for it on unbounded
integers, and its value is the one word that is congruent to this number modulo `2 ^ 32`. -/
theorem compile_exact_of_divisionFree {source : Text} {f : File} (h : compile source = .ok f) :
    ∃ script, Writes source script ∧ (∀ script', Writes source script' → script' = script) ∧
      ∀ place define, f.named.at? place = some define → f.named.DivisionFreeFrom place →
        ∃ z w, (reckon script).at? place = some (define.name, some z) ∧ define.value = some w ∧
          ∀ w' : Int32, w'.toInt ≡ z [ZMOD 2 ^ 32] ↔ w' = w := by
  obtain ⟨t, script, hwrites, ht⟩ :=
    Tally.Keeps.empty.takeLines (fun _ => TokenStream.ended_of_mem_lines) (compile_eq_ok_iff.1 h).1
  refine ⟨script, hwrites, fun script' hwrites' => hwrites'.unique hwrites, ?_⟩
  intro place define hat hfree
  rw [ht.at?_eq] at hat
  obtain ⟨⟨d, x⟩, hentry, rfl⟩ := Option.map_eq_some_iff.1 hat
  obtain ⟨z, rfl, hvalue⟩ := ht.agree hentry hfree
  refine ⟨z, Int32.ofInt z, ?_, hvalue, fun w' => ?_⟩
  · rw [reckon, ht.reckoning, Scoped.at?_map, hentry, Option.map_some]
  · rw [← Int32.ofInt_eq_iff_modEq, eq_comm]

/-- A numeral that is too long for a word, in a source where another define has a quotient. The
operands of `|` are a negative word and a word, but on unbounded integers both are positive. -/
theorem compile_exact_of_long_numeral :
    let source : Text :=
      ".define a 00004294967297\n.program p\n.define b a/2\n.define c a-3|a*65535".toList
    let a : Define Symbol := { name := ⟨0⟩, expr := .literal 1, value := some 1 }
    let b : Define Symbol :=
      { name := ⟨2⟩, expr := .binary .div (.name ⟨0⟩) (.literal 2) false, value := some 0 }
    let c : Define Symbol :=
      { name := ⟨3⟩, value := some (-1)
        expr := .binary .or (.binary .sub (.name ⟨0⟩) (.literal 3) false)
          (.binary .mul (.name ⟨0⟩) (.literal 65535) false) false }
    let f : File :=
      { names := ⟨[['a'], ['p'], ['b'], ['c']]⟩
        listing := { defines := [a], programs := [{ name := ⟨1⟩, defines := [b, c] }] } }
    compile source = .ok f ∧ f.named.DivisionFreeFrom ⟨some 0, 1⟩ ∧
      ∃ script z, Writes source script ∧
        (reckon script).at? ⟨some 0, 1⟩ = some (['c'], some z) ∧
        ∀ w : Int32, w.toInt ≡ z [ZMOD 2 ^ 32] ↔ w = -1 := by
  intro source a b c f
  have hcompile : compile source = .ok f := toOption_eq_some.1 (by decide +kernel)
  have hat : f.named.at? ⟨some 0, 1⟩ = some (c.map f.names.resolve) := rfl
  have hfree : f.named.DivisionFreeFrom ⟨some 0, 1⟩ := by
    refine Listing.DivisionFreeFrom.of_closed (by decide +kernel) fun d hd => ?_
    cases hat.symm.trans hd
    decide +kernel
  obtain ⟨script, hwrites, -, hexact⟩ := compile_exact_of_divisionFree hcompile
  obtain ⟨z, w, hz, hw, hunique⟩ := hexact _ _ hat hfree
  cases hw
  exact ⟨hcompile, hfree, script, z, hwrites, hz, hunique⟩

end PioFrontEnd
