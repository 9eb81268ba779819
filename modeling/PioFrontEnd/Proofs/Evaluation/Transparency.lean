import PioFrontEnd.Proofs.Draft.Refusal
import PioFrontEnd.Proofs.Evaluation.Uncached

/-!
# The cache is transparent

An evaluation stores the values of the defines that it had to evaluate, and it keeps them when it
fails further on. Nobody can tell. All that it stores is what the defines come to without a cache in
the draft that it began with (`Draft.Fills`), and in a draft that was filled in this way every
expression comes to the same as before.

* `Fills.comesTo_iff`: what was stored does not change what an expression comes to.
* `ComesToWithin.evaluateBy_eq`: from any draft that was filled on the way, evaluation yields what the
  expression comes to and fills further.
* `evaluate_transparent`: so evaluation answers what evaluation without a cache does, whatever was
  evaluated before, and says what it leaves behind.
-/

namespace PioFrontEnd.Draft

variable {d d' d₁ : Draft} {e : Expr Symbol} {n : Symbol} {place : Place}
  {define define' : Define Symbol} {depth depth' : Nat} {result : Except Cause Int32} {v : Int32}

/-! ### Drafts that were filled -/

/-- The second draft is the first one, in which some defines without a value have got one: the value
that their expression comes to in the first draft. -/
structure Fills (d d' : Draft) : Prop where
  /-- Nothing has changed but that values were gained. -/
  gains : d.Gains d'
  /-- A value that was gained is what the expression comes to. -/
  own : ∀ {place define define' v}, d.file.listing.at? place = some define → define.value = none →
    d'.file.listing.at? place = some define' → define'.value = some v →
    d.ComesTo define.expr (.ok v)

/-- A draft is itself before any value is gained. -/
theorem Fills.refl (d : Draft) : d.Fills d := ⟨.refl d, fun hat hvalue hat' hvalue' => by
  cases hat.symm.trans hat'
  cases hvalue.symm.trans hvalue'⟩

/-- Nothing but its value tells a define from what it was. -/
theorem Gains.exists_at? (h : d.Gains d') (hat : d.file.listing.at? place = some define) :
    ∃ value, d'.file.listing.at? place = some { define with value := value } := by
  have hsame := congrArg (·.at? place) h.agrees.listing
  simp only [Listing.withoutValues, Listing.at?_mapDefines, hat, Option.map_some] at hsame
  obtain ⟨⟨name, exported, expr, value⟩, hat', hdefine⟩ := Option.map_eq_some_iff.1 hsame
  cases define
  cases hdefine
  exact ⟨value, hat'⟩

/-- What a define was differs from what it is in its value only, which it had not got or has kept. -/
theorem Gains.exists_at?_before (h : d.Gains d') (hat' : d'.file.listing.at? place = some define) :
    ∃ value, d.file.listing.at? place = some { define with value := value } ∧
      (value = none ∨ value = define.value) := by
  cases hat : d.file.listing.at? place with
  | none =>
    rw [(h.agrees.at?_eq_none_iff place).2 hat] at hat'
    cases hat'
  | some before =>
    obtain ⟨value, hsame⟩ := h.exists_at? hat
    cases hat'.symm.trans hsame
    refine ⟨before.value, rfl, ?_⟩
    cases hvalue : before.value with
    | none => exact .inl rfl
    | some v =>
      have hkept := h.kept hat (by simp [hvalue])
      have hsame := congrArg Define.value (Option.some.inj (hkept.symm.trans hat'))
      exact .inr (hvalue.symm.trans hsame)

namespace Fills

/-- A define without a value stands where it stood, perhaps with its own value. -/
theorem at?_of_pending (h : d.Fills d') (hat : d.file.listing.at? place = some define)
    (hvalue : define.value = none) : d'.file.listing.at? place = some define ∨
      ∃ v, d'.file.listing.at? place = some { define with value := some v } ∧
        d.ComesTo define.expr (.ok v) := by
  obtain ⟨value, hat'⟩ := h.gains.exists_at? hat
  cases value with
  | none =>
    rw [← hvalue] at hat'
    exact .inl hat'
  | some v => exact .inr ⟨v, hat', h.own hat hvalue hat' rfl⟩

/-- What stands somewhere without a value stood there before. -/
theorem at?_of_at?_pending (h : d.Fills d') (hat' : d'.file.listing.at? place = some define)
    (hvalue : define.value = none) : d.file.listing.at? place = some define := by
  obtain ⟨value, hat, rfl | rfl⟩ := h.gains.exists_at?_before hat'
  · rwa [← hvalue] at hat
  · exact hat

/-- One more define gets its own value. -/
theorem store (h : d.Fills d₁) (hat : d.file.listing.at? place = some define)
    (hvalue : define.value = none) (hown : d.ComesTo define.expr (.ok v)) :
    d.Fills (d₁.setValue v place) where
  gains := Gains.keptByStores d v (.refl d) hat hvalue h.gains
  own {other define₀ define' w} hat₀ hvalue₀ hat' hvalue' := by
    obtain ⟨define₁, hat₁, rfl | ⟨rfl, rfl⟩⟩ := Listing.at?_of_at?_setValue hat'
    · exact h.own hat₀ hvalue₀ hat₁ hvalue'
    · cases hat.symm.trans hat₀
      cases hvalue'
      exact hown

/-- A name that stands for nothing stands for nothing when values have been gained. -/
theorem find?_eq_none (h : d.Fills d') : d'.find? n = none ↔ d.find? n = none := by
  simp only [find?, Option.bind_eq_bind, Option.bind_eq_none_iff, h.gains.agrees.scopes,
    Option.pure_def, reduceCtorEq, imp_false, ← Option.eq_none_iff_forall_ne_some,
    h.gains.agrees.at?_eq_none_iff]

/-- A name stands for the same place. -/
theorem find?_of_at? (h : d.Fills d') (hfind : d.find? n = some (place, define))
    (hat' : d'.file.listing.at? place = some define') : d'.find? n = some (place, define') :=
  find?_eq_some.2 ⟨h.gains.agrees.scopes ▸ (find?_eq_some.1 hfind).1, hat'⟩

/-- What is visible without a value was visible without one. -/
theorem pending_of_pending (h : d.Fills d') (hp : d'.Pending n place define) :
    d.Pending n place define :=
  ⟨h.gains.agrees.scopes ▸ hp.1, h.at?_of_at?_pending hp.2.1 hp.2.2, hp.2.2⟩

end Fills

/-! ### What was stored makes no difference -/

/-- What an expression comes to in a draft that was filled, it came to before. -/
theorem Fills.comesTo_of_filled (h : d.Fills d') (hresult : d'.ComesToWithin depth e result) :
    d.ComesTo e result := by
  induction hresult with
  | literal v => exact ⟨0, .literal v⟩
  | unknown hfind =>
    rw [h.gains.agrees.names]
    exact ⟨0, .unknown (h.find?_eq_none.1 hfind)⟩
  | @known _ n place define' v hfind hvalue =>
    obtain ⟨hlookup, hat'⟩ := find?_eq_some.1 hfind
    rw [h.gains.agrees.scopes] at hlookup
    obtain ⟨value, hat, rfl | rfl⟩ := h.gains.exists_at?_before hat'
    · exact (h.own hat rfl hat' hvalue).deferred (find?_eq_some.2 ⟨hlookup, hat⟩) rfl
    · exact ⟨0, .known (find?_eq_some.2 ⟨hlookup, hat⟩) hvalue⟩
  | @deferred _ n place define result hfind hvalue _ ih =>
    have hbefore := h.pending_of_pending (pending_iff.2 ⟨hfind, hvalue⟩)
    exact ih.deferred (pending_iff.1 hbefore).1 hvalue
  | leftFails _ ihl => exact ihl.leftFails
  | rightFails _ _ ihl ihr => exact ihl.rightFails ihr
  | applied _ _ ihl ihr => exact ihl.applied ihr

/-- What an expression comes to, it comes to in a draft that was filled. -/
theorem Fills.comesTo_filled (h : d.Fills d') (hresult : d.ComesToWithin depth e result) :
    d'.ComesTo e result := by
  induction hresult with
  | literal v => exact ⟨0, .literal v⟩
  | unknown hfind =>
    rw [← h.gains.agrees.names]
    exact ⟨0, .unknown (h.find?_eq_none.2 hfind)⟩
  | known hfind hvalue =>
    have hat' := h.gains.kept (find?_eq_some.1 hfind).2 (by simp [hvalue])
    exact ⟨0, .known (h.find?_of_at? hfind hat') hvalue⟩
  | deferred hfind hvalue hresult ih =>
    rcases h.at?_of_pending (find?_eq_some.1 hfind).2 hvalue with hat' | ⟨v, hat', hown⟩
    · exact ih.deferred (h.find?_of_at? hfind hat') hvalue
    · -- its own value has been stored in the meantime
      rw [ComesTo.unique ⟨_, hresult⟩ hown]
      exact ⟨0, .known (h.find?_of_at? hfind hat') rfl⟩
  | leftFails _ ihl => exact ihl.leftFails
  | rightFails _ _ ihl ihr => exact ihl.rightFails ihr
  | applied _ _ ihl ihr => exact ihl.applied ihr

/-- What was stored does not change what an expression comes to. -/
theorem Fills.comesTo_iff (h : d.Fills d') : d'.ComesTo e result ↔ d.ComesTo e result :=
  ⟨fun ⟨_, hresult⟩ => h.comesTo_of_filled hresult, fun ⟨_, hresult⟩ => h.comesTo_filled hresult⟩

/-- Evaluation still comes to an end when values have been gained. -/
theorem Terminates.of_fills (h : d.Terminates) (hfills : d.Fills d') : d'.Terminates :=
  fun hp =>
    let ⟨result, hresult⟩ := h (hfills.pending_of_pending hp)
    ⟨result, hfills.comesTo_iff.2 hresult⟩

/-! ### Evaluating on the way -/

/-- A name that stands for nothing is unknown at every depth. -/
theorem lookUp_of_none (hfind : d.find? n = none) (depth : Nat) :
    lookUp depth n d = d.unknown n := by
  cases depth <;> simp only [lookUp, lookUpBy, hfind]

/-- A value that is known is read at every depth, and nothing changes. -/
theorem lookUp_of_value (hfind : d.find? n = some (place, define)) (hvalue : define.value = some v)
    (depth : Nat) : lookUp depth n d = (.ok v, d) := by
  cases depth <;> simp only [lookUp, lookUpBy, hfind, hvalue]

/-- A define without a value is evaluated, and a value is stored. -/
theorem lookUp_of_pending (hfind : d.find? n = some (place, define)) (hvalue : define.value = none)
    (heval : evaluateBy (lookUp depth) define.expr d = (result, d')) :
    lookUp (depth + 1) n d =
      (result, match result with | .ok v => d'.setValue v place | .error _ => d') := by
  simp only [lookUp, lookUpBy, hfind, hvalue, heval]
  cases result <;> rfl

/-- From any draft that was filled on the way, an evaluation to sufficient depth yields what the
expression comes to, and fills further. -/
theorem ComesToWithin.evaluateBy_eq (h : d.ComesToWithin depth e result) (hdepth : depth ≤ depth')
    (hfills : d.Fills d₁) :
    ∃ d₂, evaluateBy (lookUp depth') e d₁ = (result, d₂) ∧ d.Fills d₂ := by
  induction h generalizing depth' d₁ with
  | literal v => exact ⟨d₁, rfl, hfills⟩
  | unknown hfind =>
    refine ⟨d₁, (lookUp_of_none (hfills.find?_eq_none.2 hfind) depth').trans ?_, hfills⟩
    rw [Draft.unknown, hfills.gains.agrees.names]
  | known hfind hvalue =>
    have hat' := hfills.gains.kept (find?_eq_some.1 hfind).2 (by simp [hvalue])
    exact ⟨d₁, lookUp_of_value (hfills.find?_of_at? hfind hat') hvalue depth', hfills⟩
  | @deferred depth n place define result hfind hvalue hresult ih =>
    have hat := (find?_eq_some.1 hfind).2
    obtain ⟨depth', rfl⟩ := Nat.exists_eq_add_of_lt hdepth
    rcases hfills.at?_of_pending hat hvalue with hat' | ⟨v, hat', hown⟩
    · obtain ⟨d₂, heval, hfills₂⟩ := ih (Nat.le_add_right depth depth') hfills
      refine ⟨_, lookUp_of_pending (hfills.find?_of_at? hfind hat') hvalue heval, ?_⟩
      cases result with
      | error cause => exact hfills₂
      | ok v => exact hfills₂.store hat hvalue ⟨_, hresult⟩
    · -- its own value has been stored in the meantime
      rw [ComesTo.unique ⟨_, hresult⟩ hown]
      exact ⟨d₁, lookUp_of_value (hfills.find?_of_at? hfind hat') rfl _, hfills⟩
  | leftFails _ ihl =>
    obtain ⟨d₂, hl, hfills₂⟩ := ihl hdepth hfills
    exact ⟨d₂, by simp only [evaluateBy, hl], hfills₂⟩
  | rightFails _ _ ihl ihr =>
    obtain ⟨d₂, hl, hfills₂⟩ := ihl hdepth hfills
    obtain ⟨d₃, hr, hfills₃⟩ := ihr hdepth hfills₂
    exact ⟨d₃, by simp only [evaluateBy, hl, hr], hfills₃⟩
  | @applied _ op _ _ _ a b _ _ ihl ihr =>
    obtain ⟨d₂, hl, hfills₂⟩ := ihl hdepth hfills
    obtain ⟨d₃, hr, hfills₃⟩ := ihr hdepth hfills₂
    refine ⟨d₃, ?_, hfills₃⟩
    simp only [evaluateBy, hl, hr]
    cases op.apply a b <;> rfl

/-- An evaluation yields what the expression comes to, and fills the draft. -/
theorem ComesTo.evaluate_eq (h : d.ComesTo e result) :
    ∃ d', d.evaluate e = (result, d') ∧ d.Fills d' :=
  h.within_pending.evaluateBy_eq (Nat.le_refl _) (.refl d)

/-! ### One evaluation after another -/

/-- The draft after several evaluations, of which some may have failed. -/
def evaluateAll (d : Draft) (es : List (Expr Symbol)) : Draft :=
  es.foldl (fun d e => (d.evaluate e).2) d

/-- An evaluation leaves the draft, in which some defines have got the value of their expression. -/
theorem Terminates.fills_evaluate (h : d.Terminates) (e : Expr Symbol) :
    d.Fills (d.evaluate e).2 := by
  obtain ⟨result, hresult⟩ := h.exists_comesTo e
  obtain ⟨d', heval, hfills⟩ := hresult.evaluate_eq
  rw [heval]
  exact hfills

/-- Several evaluations change nothing about what expressions come to. -/
theorem Terminates.evaluateAll (h : d.Terminates) (es : List (Expr Symbol)) :
    (d.evaluateAll es).Terminates ∧
      ∀ e result, (d.evaluateAll es).ComesTo e result ↔ d.ComesTo e result := by
  induction es generalizing d with
  | nil => exact ⟨h, fun _ _ => Iff.rfl⟩
  | cons first es ih =>
    have hfills := h.fills_evaluate first
    obtain ⟨hends, hsame⟩ := ih (h.of_fills hfills)
    exact ⟨hends, fun e result => (hsame e result).trans hfills.comesTo_iff⟩

/-- **The cache is transparent.** In a draft in which no define without a value leads on without end,
an evaluation answers what evaluation without a cache does, also if it fails. Afterwards some
defines without a value have got what their own expression comes to; those whose expression fails
have not, and nothing else has changed. Every expression comes to the same as before, so no answer
depends on what was evaluated before it. -/
theorem evaluate_transparent (d : Draft) (hends : d.Terminates) (e : Expr Symbol) :
    ∃ result, (∀ other, d.ComesTo e other ↔ other = result) ∧
      (∀ site, (d.evaluate e).1.mapError (Fault.mk · site) = result.mapError (Fault.mk · site)) ∧
      d.Fills (d.evaluate e).2 ∧
      (∀ place define cause, d.file.listing.at? place = some define → define.value = none →
        d.ComesTo define.expr (.error cause) →
        (d.evaluate e).2.file.listing.at? place = some define) ∧
      (∀ e' result', (d.evaluate e).2.ComesTo e' result' ↔ d.ComesTo e' result') ∧
      ∀ before site, ((d.evaluateAll before).evaluate e).1.mapError (Fault.mk · site) =
        result.mapError (Fault.mk · site) := by
  obtain ⟨result, hresult⟩ := hends.exists_comesTo e
  obtain ⟨d', heval, hfills⟩ := hresult.evaluate_eq
  rw [heval]
  refine ⟨result, fun other => ⟨fun hother => hother.unique hresult, fun heq => heq ▸ hresult⟩,
    fun _ => rfl, hfills, fun place define cause hat hvalue hfails => ?_,
    fun _ _ => hfills.comesTo_iff, fun before site => ?_⟩
  · rcases hfills.at?_of_pending hat hvalue with hsame | ⟨v, -, hown⟩
    · exact hsame
    · cases hfails.unique hown
  · obtain ⟨_, heval', -⟩ := (((hends.evaluateAll before).2 e result).2 hresult).evaluate_eq
    rw [heval']

/-- The define `c` needs `b`, which needs `a`, and then divides by zero. What was found on the way is
kept, and is no other than what `b` comes to by itself. -/
theorem evaluate_transparent_after_failure :
    let a : Define Symbol := { name := ⟨0⟩, expr := .literal 6, value := none }
    let b : Define Symbol :=
      { name := ⟨1⟩, expr := .binary .mul (.name ⟨0⟩) (.literal 7) false, value := none }
    let c : Define Symbol :=
      { name := ⟨2⟩, expr := .binary .div (.name ⟨1⟩) (.literal 0) false, value := none }
    let d : Draft := {
      file := { names := ⟨["a".toList, "b".toList, "c".toList]⟩, listing := { defines := [a, b, c] } }
      scopes := { shared := [(⟨0⟩, 0), (⟨1⟩, 1), (⟨2⟩, 2)] } }
    d.Terminates ∧ d.ComesTo b.expr (.ok 42) ∧
      (d.evaluate (.name ⟨2⟩)).1.mapError (Fault.mk · 9) = .error ⟨.divisionByZero, 9⟩ ∧
      (d.evaluate (.name ⟨2⟩)).2.file.listing.defines =
        [{ a with value := some 6 }, { b with value := some 42 }, c] ∧
      ((d.evaluateAll [.name ⟨2⟩]).evaluate (.name ⟨1⟩)).1.mapError (Fault.mk · 9) = .ok 42 := by
  intro a b c d
  have hfinda : d.find? ⟨0⟩ = some (⟨none, 0⟩, a) := rfl
  have hfindb : d.find? ⟨1⟩ = some (⟨none, 1⟩, b) := rfl
  have hfindc : d.find? ⟨2⟩ = some (⟨none, 2⟩, c) := rfl
  have ha : d.ComesTo a.expr (.ok 6) := ⟨0, .literal 6⟩
  have hb : d.ComesTo b.expr (.ok 42) :=
    (ha.deferred hfinda rfl).applied ⟨0, .literal 7⟩
  have hc : d.ComesTo c.expr (.error .divisionByZero) :=
    (hb.deferred hfindb rfl).applied ⟨0, .literal 0⟩
  have hends : d.Terminates := by
    rintro n ⟨program, index⟩ define ⟨-, hat, -⟩
    cases program with
    | none =>
      have hmem : define ∈ [a, b, c] := List.mem_of_getElem? hat
      rcases List.mem_cons.1 hmem with rfl | hmem
      · exact ⟨_, ha⟩
      rcases List.mem_cons.1 hmem with rfl | hmem
      · exact ⟨_, hb⟩
      · cases List.mem_singleton.1 hmem
        exact ⟨_, hc⟩
    | some p => cases hat
  obtain ⟨failed, hfailed, hanswer, -⟩ := evaluate_transparent d hends (.name ⟨2⟩)
  obtain ⟨found, hfound, -, -, -, -, hrepeated⟩ := evaluate_transparent d hends (.name ⟨1⟩)
  cases (hfailed _).1 (hc.deferred hfindc rfl)
  cases (hfound _).1 (hb.deferred hfindb rfl)
  exact ⟨hends, hb, hanswer 9, rfl, hrepeated _ 9⟩

end PioFrontEnd.Draft
