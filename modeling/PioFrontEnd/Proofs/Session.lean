import PioFrontEnd.Compilation
import PioFrontEnd.Proofs.Draft.Twins

/-!
# Lazy evaluation agrees with eager evaluation

A compilation can be used piece by piece: lines are obeyed or skipped, names are entered, programs
are opened, defines are added with or without a value, and expressions are evaluated, in any order
(`Action`). A define without a value is evaluated when it is first needed, in the scope that is
current then.

A `Session` is a compilation together with the meaning that every define got when it was added: its
value if it came with one, otherwise what its expression came to under the meanings of the defines
that its names stood for at that moment (`Draft.record`). No later action changes such a meaning.

* `answer_eq_valueUnder_meanings`: if every define that is added without a value has only visible
  names in its expression, then every evaluation at any later time answers what the meanings say,
  and the values that have been stored are meanings. The answers are those of the same session
  without its evaluations, so none depends on what was evaluated before.
-/

namespace PioFrontEnd

/-- What can be done with a compilation. -/
inductive Action where
  /-- Obeys lines up to the end or the first fault. -/
  | run
  /-- Draws a line and drops it. -/
  | nextLine
  /-- Enters a name. -/
  | intern (name : Text)
  /-- Opens a program. -/
  | openProgram (name : Symbol)
  /-- Adds a define as it is. -/
  | add (define : Define Symbol)
  /-- Evaluates an expression. -/
  | evaluate (e : Expr Symbol)

/-- Whether an action is an evaluation. -/
def Action.isEvaluation : Action → Bool
  | evaluate _ => true
  | _ => false

/-- The compilation after an action. What is refused changes nothing. -/
def Compilation.perform (c : Compilation) : Action → Compilation
  | .run => c.run.2
  | .nextLine => { c with stream := c.stream.nextLine.2 }
  | .intern name => { c with draft := (c.draft.intern name).2 }
  | .openProgram name => { c with draft := (c.draft.openProgram name).getD c.draft }
  | .add define => { c with draft := (c.draft.addDefine define).getD c.draft }
  | .evaluate e => { c with draft := (c.draft.evaluate e).2 }

/-- The meanings after a draft has changed. A define that is new means its value, or else what its
expression came to before it was there; all others mean what they meant. -/
def Draft.record (before : Draft) (meanings : Meanings) (after : Draft) : Meanings :=
  fun place =>
    match before.file.listing.at? place, after.file.listing.at? place with
    | none, some define =>
      match define.value with
      | some v => .ok v
      | none => define.expr.valueUnder (before.meaningOf meanings)
    | _, _ => meanings place

/-- A compilation and the meanings of its defines. -/
structure Session where
  /-- The compilation. -/
  compilation : Compilation
  /-- What every define meant when it was added. -/
  meanings : Meanings

namespace Session

/-- The session of a source of which nothing has been obeyed. There is nothing to mean anything. -/
def ofText (source : Text) : Session := ⟨.ofText source, fun _ => .error .divisionByZero⟩

/-- The draft of a session. -/
def draft (s : Session) : Draft := s.compilation.draft

/-- The session after an action. -/
def perform (s : Session) (a : Action) : Session :=
  ⟨s.compilation.perform a, s.draft.record s.meanings (s.compilation.perform a).draft⟩

/-- The session after several actions. -/
def performAll (s : Session) (actions : List Action) : Session := actions.foldl perform s

/-- A define may be added without a value only if all names in it are visible. -/
def Allows (s : Session) : Action → Prop
  | .add define => (s.draft.addDefine define).isSome → define.value = none →
    ∀ n ∈ define.expr.names, s.draft.scopes.isVisible n = true
  | _ => True

/-- Each of several actions is allowed when its turn comes. -/
def AllowsAll : Session → List Action → Prop
  | _, [] => True
  | s, a :: actions => s.Allows a ∧ (s.perform a).AllowsAll actions

/-- What a symbol means in the current scope. -/
def meaningOf (s : Session) : Symbol → Except Cause Int32 := s.draft.meaningOf s.meanings

/-- What an evaluation answers that is asked for at some offset. -/
def answer (s : Session) (e : Expr Symbol) (site : Nat) : Except Fault Int32 :=
  (s.draft.evaluate e).1.mapError (⟨·, site⟩)

end Session

/-! ### Recording meanings -/

namespace Draft

variable {d e d' e' : Draft} {meanings meanings' : Meanings}

/-- Only the meanings of what is there matter. -/
theorem Sound.congr (h : d.Sound meanings)
    (hm : ∀ {place define}, d.file.listing.at? place = some define →
      meanings' place = meanings place) : d.Sound meanings' :=
  h.extend h.consistent (fun hat => ⟨hat, hm hat⟩) fun hat hnone => by
    rw [hnone] at hat
    cases hat

/-- If nothing new is there, nothing is recorded. -/
theorem record_eq_self (h : ∀ place, d.file.listing.at? place = none →
    d'.file.listing.at? place = none) : d.record meanings d' = meanings := by
  funext place
  unfold record
  split
  · rename_i define hnone hat
    rw [h place hnone] at hat
    cases hat
  · rfl

/-- Where nothing is afterwards, nothing is recorded. -/
theorem record_of_at?_eq_none {place : Place} (h : d'.file.listing.at? place = none) :
    d.record meanings d' place = meanings place := by
  unfold record
  cases d.file.listing.at? place <;> simp [h]

/-- An advance records the meanings that it leads to. -/
theorem Advances.record_eq (h : d.Advances meanings d' meanings') (hs : d'.Sound meanings')
    {place : Place} {define : Define Symbol} (hat : d'.file.listing.at? place = some define) :
    d.record meanings d' place = meanings' place := by
  unfold record
  cases hbefore : d.file.listing.at? place with
  | none =>
    obtain ⟨v, hv⟩ := Option.ne_none_iff_exists'.1 (h.added hbefore hat)
    simp only [hat, hv]
    exact (hs.known hat hv).symm
  | some define₀ => exact (h.kept hbefore).2.symm

/-- Twins that have made a stride have recorded the same meanings and are twins for these. -/
theorem Stride.record (h : Stride meanings d e meanings' d' e') :
    e.record meanings e' = d.record meanings d' ∧ Twins (d.record meanings d') d' e' := by
  have hsame : e.record meanings e' = d.record meanings d' := by
    funext place
    cases hat : d'.file.listing.at? place with
    | none =>
      have hat' := (h.twins.agrees.at?_eq_none_iff place).1 hat
      rw [record_of_at?_eq_none hat, record_of_at?_eq_none hat']
    | some define =>
      cases hat' : e'.file.listing.at? place with
      | none =>
        rw [← h.twins.agrees.at?_eq_none_iff, hat] at hat'
        cases hat'
      | some define' =>
        rw [h.left.record_eq h.twins.left hat, h.right.record_eq h.twins.right hat']
  refine ⟨hsame, h.twins.left.congr fun hat => h.left.record_eq h.twins.left hat, ?_,
    h.twins.agrees⟩
  rw [← hsame]
  exact h.twins.right.congr fun hat => h.right.record_eq h.twins.right hat

/-- An added define is recorded with its meaning. -/
theorem record_addDefine (hc : d.Consistent) {define : Define Symbol}
    (ha : d.addDefine define = some d') :
    d.record meanings d' = d.meaningsWith meanings define := by
  funext place
  simp only [record, meaningsWith, hc.at?_addDefine ha]
  by_cases hplace : place = d.file.listing.nextPlace d.scopes.current
  · subst hplace
    cases hvalue : define.value <;> simp only [Listing.at?_nextPlace, hvalue, if_true]
  · simp only [if_neg hplace]
    cases d.file.listing.at? place <;> rfl

/-- A define that can be added to one of the twins can be added to the other one. It is recorded
with the same meaning, and they are twins for that. -/
theorem Twins.record_addDefine (h : Twins meanings d e) {define : Define Symbol}
    (hvisible : define.value = none → ∀ n ∈ define.expr.names, d.scopes.isVisible n = true)
    (ha : d.addDefine define = some d') :
    ∃ e', e.addDefine define = some e' ∧ e.record meanings e' = d.record meanings d' ∧
      Twins (d.record meanings d') d' e' := by
  obtain ⟨e', hae, htwins⟩ := h.addDefine hvisible ha
  have hd : d.record meanings d' = d.meaningsWith meanings define :=
    Draft.record_addDefine h.left.consistent ha
  have he : e.record meanings e' = d.meaningsWith meanings define := by
    rw [h.agrees.meaningsWith_eq]
    exact Draft.record_addDefine h.right.consistent hae
  refine ⟨e', hae, he.trans hd.symm, ?_⟩
  rw [hd]
  exact htwins

/-- In a sound draft a meaning that is no value is a division by zero. -/
theorem Sound.eq_divisionByZero (h : d.Sound meanings) {place : Place} {define : Define Symbol}
    {cause : Cause} (hat : d.file.listing.at? place = some define)
    (hm : meanings place = .error cause) : cause = .divisionByZero := by
  -- the cause comes from a define before this one, and so on down
  induction hn : d.pendingBefore place using Nat.strongRecOn generalizing place define with
  | ind n ih =>
    cases hvalue : define.value with
    | some v =>
      rw [h.known hat hvalue] at hm
      cases hm
    | none =>
      rw [h.pending hat hvalue] at hm
      rcases Expr.cause_of_valueUnder hm with hzero | ⟨name, hname, hmeaning⟩
      · exact hzero
      · obtain ⟨q, hq, hbefore⟩ := h.names hat hvalue name hname
        simp only [meaningIn, hq] at hmeaning
        obtain ⟨hnameAt, -⟩ := h.consistent.lookupIn_eq_some_iff.1 hq
        obtain ⟨define', hat', -⟩ := Option.map_eq_some_iff.1 hnameAt
        have hpending : define'.value = none := by
          cases hvalue' : define'.value with
          | none => rfl
          | some v =>
            rw [h.known hat' hvalue'] at hmeaning
            cases hmeaning
        have hlt := pendingBefore_lt hat' hpending hbefore
        rw [hn] at hlt
        exact ih _ hlt hat' hmeaning rfl

/-- In a sound draft an expression has a value unless a divisor is zero or a name is not visible. -/
theorem Sound.cause_of_valueUnder (h : d.Sound meanings) {e : Expr Symbol} {cause : Cause}
    (hvalue : e.valueUnder (d.meaningOf meanings) = .error cause) :
    cause = .divisionByZero ∨ ∃ n ∈ e.names, d.scopes.isVisible n = false ∧
      cause = .unknownIdentifier (d.file.names.resolve n) := by
  rcases Expr.cause_of_valueUnder hvalue with hzero | ⟨n, hn, hmeaning⟩
  · exact .inl hzero
  · cases hlookup : d.scopes.lookup n with
    | none =>
      simp only [meaningOf, hlookup] at hmeaning
      cases hmeaning
      exact .inr ⟨n, hn, by rw [Scopes.isVisible, hlookup]; rfl, rfl⟩
    | some place =>
      simp only [meaningOf, hlookup] at hmeaning
      obtain ⟨define, hat, -⟩ := h.consistent.exists_at? hlookup
      exact .inl (h.eq_divisionByZero hat hmeaning)

end Draft

/-! ### Twin sessions -/

/-- Twins obey the same lines alike. -/
theorem Compilation.run_twins {c c' : Compilation} {meanings : Meanings}
    (hstream : c'.stream = c.stream) (h : Draft.Twins meanings c.draft c'.draft) :
    c'.run.2.stream = c.run.2.stream ∧
      ∃ meanings',
        Draft.Stride meanings c.draft c'.draft meanings' c.run.2.draft c'.run.2.draft := by
  fun_induction Compilation.run c generalizing c' meanings with
  | case1 c stream hnext =>
    rw [Compilation.run_of_none (hstream ▸ hnext)]
    exact ⟨rfl, meanings, .refl h⟩
  | case2 c fault stream hnext =>
    rw [Compilation.run_of_fault (hstream ▸ hnext)]
    exact ⟨rfl, meanings, .refl h⟩
  | case3 c line stream hnext fault draft htake =>
    obtain ⟨hsame, meanings', hstride⟩ := h.takeLine line
    rw [htake] at hsame hstride
    have htake' : c'.draft.takeLine line = (.error fault, (c'.draft.takeLine line).2) :=
      Prod.ext hsame.symm rfl
    rw [Compilation.run_of_refused (hstream ▸ hnext) htake']
    exact ⟨rfl, meanings', hstride⟩
  | case4 c line stream hnext draft htake ih =>
    obtain ⟨hsame, meanings', hstride⟩ := h.takeLine line
    rw [htake] at hsame hstride
    have htake' : c'.draft.takeLine line = (.ok (), (c'.draft.takeLine line).2) :=
      Prod.ext hsame.symm rfl
    rw [Compilation.run_of_taken (hstream ▸ hnext) htake']
    have hstream' : (⟨stream, (c'.draft.takeLine line).2⟩ : Compilation).stream = stream := rfl
    obtain ⟨hrest, meanings'', hstride'⟩ := ih hstream' hstride.twins
    exact ⟨hrest, meanings'', hstride.trans hstride'⟩

namespace Session

/-- The sessions are at the same point of the source, and their drafts are twins. -/
structure Twins (s t : Session) : Prop where
  /-- The same text is left. -/
  stream : s.compilation.stream = t.compilation.stream
  /-- The same meanings have been recorded. -/
  meanings : s.meanings = t.meanings
  /-- The drafts differ in values at most. -/
  drafts : Draft.Twins s.meanings s.draft t.draft

/-- The session of a source is a twin of itself. -/
theorem twins_ofText (source : Text) : Twins (ofText source) (ofText source) :=
  ⟨rfl, rfl, .empty _, .empty _, ⟨rfl, rfl, rfl⟩⟩

namespace Twins

variable {s t : Session}

/-- If the drafts become twins for the meanings that are recorded, the sessions are twins again. -/
theorem of_record {c c' : Compilation} (h : Twins s t) (hstream : c.stream = c'.stream)
    (hsame : t.draft.record s.meanings c'.draft = s.draft.record s.meanings c.draft)
    (htwins : Draft.Twins (s.draft.record s.meanings c.draft) c.draft c'.draft) :
    Twins ⟨c, s.draft.record s.meanings c.draft⟩ ⟨c', t.draft.record t.meanings c'.draft⟩ := by
  refine ⟨hstream, ?_, htwins⟩
  rw [← h.meanings]
  exact hsame.symm

/-- If the drafts make a stride, the sessions are twins again. -/
theorem of_stride {c c' : Compilation} {meanings' : Meanings} (h : Twins s t)
    (hstream : c.stream = c'.stream)
    (hstride : Draft.Stride s.meanings s.draft t.draft meanings' c.draft c'.draft) :
    Twins ⟨c, s.draft.record s.meanings c.draft⟩ ⟨c', t.draft.record t.meanings c'.draft⟩ :=
  h.of_record hstream hstride.record.1 hstride.record.2

/-- Twins remain twins when the same is done with both. -/
theorem perform (h : Twins s t) {a : Action} (ha : s.Allows a) :
    Twins (s.perform a) (t.perform a) := by
  have hself : Draft.Stride s.meanings s.draft t.draft s.meanings s.draft t.draft :=
    .refl h.drafts
  cases a with
  | run =>
    obtain ⟨hstream, meanings', hstride⟩ := Compilation.run_twins h.stream.symm h.drafts
    exact h.of_stride hstream.symm hstride
  | nextLine =>
    refine h.of_stride ?_ hself
    simp only [Compilation.perform, h.stream]
  | intern name => exact h.of_stride h.stream (h.drafts.intern name).2
  | evaluate e => exact h.of_stride h.stream (h.drafts.evaluate e).2.2.1
  | openProgram name =>
    have hstride : Draft.Stride s.meanings s.draft t.draft s.meanings
        ((s.draft.openProgram name).getD s.draft) ((t.draft.openProgram name).getD t.draft) := by
      cases ho : s.draft.openProgram name with
      | none =>
        rw [h.drafts.openProgram_eq_none ho]
        exact hself
      | some d' =>
        obtain ⟨e', ho', hstride⟩ := h.drafts.openProgram ho
        rw [ho']
        exact hstride
    exact h.of_stride h.stream hstride
  | add define =>
    cases hadd : s.draft.addDefine define with
    | none =>
      have hadd' := h.drafts.addDefine_eq_none hadd
      have hstride : Draft.Stride s.meanings s.draft t.draft s.meanings
          ((s.draft.addDefine define).getD s.draft) ((t.draft.addDefine define).getD t.draft) := by
        rw [hadd, hadd']
        exact hself
      exact h.of_stride h.stream hstride
    | some d' =>
      -- a define without a value is new, so this is no stride
      obtain ⟨e', hadd', hsame, htwins⟩ := h.drafts.record_addDefine (ha (by simp [hadd])) hadd
      have hs : (s.compilation.perform (.add define)).draft = d' := by
        show (s.draft.addDefine define).getD s.draft = d'
        rw [hadd, Option.getD_some]
      have ht : (t.compilation.perform (.add define)).draft = e' := by
        show (t.draft.addDefine define).getD t.draft = e'
        rw [hadd', Option.getD_some]
      refine h.of_record h.stream ?_ ?_
      · rw [hs, ht, hsame]
      · rw [hs, ht]
        exact htwins

/-- Twins remain twins when something is evaluated in one of them. -/
theorem perform_evaluate (h : Twins s t) (e : Expr Symbol) : Twins (s.perform (.evaluate e)) t := by
  obtain ⟨-, -, hstride, htwins⟩ := h.drafts.evaluate e
  have hsame : s.draft.record s.meanings (s.draft.evaluate e).2 = s.meanings :=
    Draft.record_eq_self fun place hnone => by
      rw [h.drafts.agrees.at?_eq_none_iff] at hnone
      exact (htwins.agrees.at?_eq_none_iff place).2 hnone
  refine ⟨h.stream, hsame.trans h.meanings, ?_⟩
  show Draft.Twins (s.draft.record s.meanings (s.draft.evaluate e).2) (s.draft.evaluate e).2 t.draft
  rw [hsame]
  exact htwins

/-- Twins remain twins when all evaluations are left out in one of them. -/
theorem performAll_filter {actions : List Action} (h : Twins s t) (ha : s.AllowsAll actions) :
    Twins (s.performAll actions) (t.performAll (actions.filter (!·.isEvaluation))) := by
  induction actions generalizing s t with
  | nil => exact h
  | cons a actions ih =>
    obtain ⟨hfirst, hrest⟩ := ha
    cases a with
    | evaluate e => exact ih (h.perform_evaluate e) hrest
    | run => exact ih (h.perform hfirst) hrest
    | nextLine => exact ih (h.perform hfirst) hrest
    | intern name => exact ih (h.perform hfirst) hrest
    | openProgram name => exact ih (h.perform hfirst) hrest
    | add define => exact ih (h.perform hfirst) hrest

/-- Twins answer alike, and as the meanings say. -/
theorem answer_eq (h : Twins s t) (e : Expr Symbol) (site : Nat) :
    s.answer e site = (e.valueUnder s.meaningOf).mapError (⟨·, site⟩) ∧
      t.answer e site = (e.valueUnder s.meaningOf).mapError (⟨·, site⟩) := by
  obtain ⟨hs, ht, -⟩ := h.drafts.evaluate e
  exact ⟨by rw [answer, hs, meaningOf], by rw [answer, ht, meaningOf]⟩

end Twins

end Session

/-! ### The theorem -/

/-- Whatever is done in whatever order, as long as no define is added whose value is still to be
found and in whose expression a name is not visible: an evaluation answers what the expression comes
to under the meanings that the visible defines got when they were added. It fails only with a
division by zero or with a name of this very expression that is not visible, at its own offset. What
has been stored as a value is a meaning. If no evaluation had been asked for before, the answer
would be the same. -/
theorem answer_eq_valueUnder_meanings {source : Text} {actions : List Action}
    (h : (Session.ofText source).AllowsAll actions) :
    let s := (Session.ofText source).performAll actions
    (∀ e site, s.answer e site = (e.valueUnder s.meaningOf).mapError (⟨·, site⟩)) ∧
    (∀ e site fault, s.answer e site = .error fault → fault.offset = site ∧
      (fault.cause = .divisionByZero ∨ ∃ n ∈ e.names, s.draft.scopes.isVisible n = false ∧
        fault.cause = .unknownIdentifier (s.draft.file.names.resolve n))) ∧
    (∀ place define v, s.draft.file.listing.at? place = some define → define.value = some v →
      s.meanings place = .ok v) ∧
    ∀ e site, ((Session.ofText source).performAll
      (actions.filter (!·.isEvaluation))).answer e site = s.answer e site := by
  intro s
  have htwins := (Session.twins_ofText source).performAll_filter h
  have hsound : s.draft.Sound s.meanings := htwins.drafts.left
  refine ⟨fun e site => (htwins.answer_eq e site).1, fun e site fault hfault => ?_,
    fun place define v hat hv => hsound.known hat hv, fun e site => ?_⟩
  · rw [(htwins.answer_eq e site).1] at hfault
    cases hvalue : e.valueUnder s.meaningOf with
    | ok v =>
      rw [hvalue] at hfault
      cases hfault
    | error cause =>
      rw [hvalue] at hfault
      cases hfault
      exact ⟨rfl, hsound.cause_of_valueUnder hvalue⟩
  · rw [(htwins.answer_eq e site).1, (htwins.answer_eq e site).2]

/-- A define without a value is evaluated from a program that has been opened since, after another
evaluation has failed. -/
theorem answer_of_deferred_define :
    let six : Define Symbol := { name := ⟨0⟩, expr := .literal 6, value := none }
    let seven : Define Symbol :=
      { name := ⟨1⟩, expr := .binary .add (.name ⟨0⟩) (.literal 1) false, value := none }
    let actions := [.intern ['a'], .intern ['b'], .intern ['p'], .add six, .add seven,
      .openProgram ⟨2⟩, .evaluate (.binary .div (.name ⟨1⟩) (.literal 0) false)]
    let s := (Session.ofText []).performAll actions
    (Session.ofText []).AllowsAll actions ∧
      s.answer (.name ⟨1⟩) 9 = .ok 7 ∧ s.meanings ⟨none, 1⟩ = .ok 7 := by
  intro six seven actions s
  have hallowed : (Session.ofText []).AllowsAll actions :=
    ⟨trivial, trivial, trivial, fun _ _ => by decide, fun _ _ => by decide, trivial, trivial,
     trivial⟩
  obtain ⟨hanswer, -, hknown, -⟩ := answer_eq_valueUnder_meanings hallowed
  refine ⟨hallowed, (hanswer _ _).trans rfl, hknown _ { seven with value := some 7 } _ rfl rfl⟩

end PioFrontEnd
