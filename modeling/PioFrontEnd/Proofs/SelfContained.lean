import Mathlib.Logic.Relation
import PioFrontEnd.Proofs.ByName.Simulation
import PioFrontEnd.Proofs.Draft.Invariants
import PioFrontEnd.Proofs.Draft.Meanings

/-!
# A compiled file is self-contained

The define that a name in an expression stands for is looked for twice: when the expression is read,
and when it is evaluated. A file that comes out says nothing of either, since it has symbols and
values, but no scopes. Still it can be taken as it stands: each name stands for a define before the
one that uses it, whose value is there, and from these values every expression comes to the value
that is stored with it (`File.SelfContained`).

For this to hold, later lines must not change what an earlier name stands for. They do not, since a
place keeps its define and a name that is visible cannot be declared again, so what a look-up from
some program has found once it finds for ever. `Draft.Settled` is the invariant; it looks names up
in the scopes, and `Consistent.at?_lookupIn` says that a search in the listing finds the same.

* `Draft.Settled.takeLine`: every line keeps a draft settled, also one that is refused.
* `Draft.Settled.readsKnown`: in a settled draft an evaluation reads values that are there and does
  nothing else, so only a division by zero can stop it.
* `compile_selfContained`: what follows for the files that come out, and for the evaluations on the
  way.
-/

namespace PioFrontEnd

/-! ### Files that are self-contained -/

/-- Whether the define at the first place uses a name of the define at the second place, which it
can see. -/
def Listing.Refers {ν : Type} (l : Listing ν) (p q : Place) : Prop :=
  ∃ define, l.at? p = some define ∧ (∃ n ∈ define.expr.names, l.nameAt q = some n) ∧
    q.SeenFrom p.program

/-- The value of the define with a name that can be seen from a program, or from none. -/
def File.valueFrom (f : File) (scope : Option Nat) (name : Symbol) : Except Cause Int32 :=
  match ((f.listing.visibleFrom scope).find? (·.name = name)).bind Define.value with
  | some v => .ok v
  | none => .error (.unknownIdentifier (f.names.resolve name))

/-- Whether every define of a file stands on defines before it, and has the value that they give
it. -/
structure File.SelfContained (f : File) : Prop where
  /-- Every name in an expression is the name of a define before. -/
  names : ∀ {place define}, f.listing.at? place = some define → ∀ n ∈ define.expr.names,
    ∃ q, f.listing.nameAt q = some n ∧ q.Before place
  /-- No define refers to itself or to one after it. -/
  ordered : ∀ {p q}, f.listing.Refers p q → q.Before p
  /-- Every define has a value, which its expression comes to from the values of the others. -/
  valued : ∀ {place define}, f.listing.at? place = some define → ∃ v, define.value = some v ∧
    define.expr.valueUnder (f.valueFrom place.program) = .ok v

/-- What stands before a place that stands before another one stands before that. -/
theorem Place.Before.trans {p q r : Place} (hpq : p.Before q) (hqr : q.Before r) : p.Before r := by
  rcases hpq with ⟨hp, hq⟩ | ⟨hsame, hlt⟩
  · rcases hqr with ⟨hq', -⟩ | ⟨hsame', -⟩
    · exact absurd hq' hq
    · exact .inl ⟨hp, hsame' ▸ hq⟩
  · rcases hqr with ⟨hq, hr⟩ | ⟨hsame', hlt'⟩
    · exact .inl ⟨hsame.trans hq, hr⟩
    · exact .inr ⟨hsame.trans hsame', Nat.lt_trans hlt hlt'⟩

/-- No place stands before itself. -/
theorem Place.Before.irrefl {p : Place} (h : p.Before p) : False := by
  rcases h with ⟨hnone, hsome⟩ | ⟨-, hlt⟩
  · exact hsome hnone
  · exact Nat.lt_irrefl _ hlt

/-- Along references, however many, every define that is reached stands before. -/
theorem File.SelfContained.before_of_transGen {f : File} (h : f.SelfContained) {p q : Place}
    (hreach : Relation.TransGen f.listing.Refers p q) : q.Before p := by
  induction hreach with
  | single hrefers => exact h.ordered hrefers
  | tail _ hrefers ih => exact (h.ordered hrefers).trans ih

namespace Draft

/-! ### Evaluations that only read -/

/-- Whether the evaluation of an expression reads values that are known and does nothing else. -/
structure ReadsKnown (d : Draft) (e : Expr Symbol) : Prop where
  /-- Every name has a define, and that has a value. -/
  known : ∀ n ∈ e.names, ∃ place define v, d.find? n = some (place, define) ∧ define.value = some v
  /-- Nothing is stored. -/
  unchanged : (d.evaluate e).2 = d
  /-- It does not matter what would be done with a name that has no define or no value. -/
  anyLookUp : ∀ look : Symbol → Draft → Evaluated,
    (∀ n place define v, d.find? n = some (place, define) → define.value = some v →
      look n d = (.ok v, d)) → evaluateBy look e d = d.evaluate e
  /-- Only a division by zero can stop it. -/
  cause : ∀ cause, (d.evaluate e).1 = .error cause → cause = .divisionByZero

/-! ### Settled drafts -/

variable {d d' : Draft}

/-- The names in a statement that has been read are visible. -/
theorem isVisible_of_read {line : Line} {statement : Statement Symbol}
    (hread : Statement.read d.see line = .ok statement) :
    ∀ n ∈ statement.names, d.scopes.isVisible n = true := by
  intro n hn
  obtain ⟨name, hsee⟩ := Statement.exists_see_of_read hread n hn
  exact (Option.filter_eq_some_iff.1 hsee).2

/-- The value of a name is that of the define which is looked up. -/
theorem Consistent.valueFrom_eq (h : d.Consistent) {scope : Option Nat} {name : Symbol}
    {place : Place} {define : Define Symbol} {v : Int32}
    (hlookup : d.scopes.lookupIn scope name = some place)
    (hat : d.file.listing.at? place = some define) (hv : define.value = some v) :
    d.file.valueFrom scope name = .ok v := by
  rw [File.valueFrom, ← h.at?_lookupIn, hlookup, Option.bind_some, hat]
  simp only [Option.bind_some, hv]

/-- Every define has its value, which its expression comes to from the values of defines before
it. -/
structure Settled (d : Draft) : Prop where
  /-- Scopes and listing agree. -/
  consistent : d.Consistent
  /-- The names in an expression stand for places before that of the define. -/
  names : ∀ {place define}, d.file.listing.at? place = some define →
    d.NamesBefore place define.expr
  /-- Every define has a value, which its expression comes to. -/
  valued : ∀ {place define}, d.file.listing.at? place = some define → ∃ v, define.value = some v ∧
    define.expr.valueUnder (d.file.valueFrom place.program) = .ok v

namespace Settled

/-- Nothing is defined at first. -/
theorem empty : Settled {} where
  consistent := consistent_empty
  names h := by simp at h
  valued h := by simp at h

/-- A draft that has grown is settled if the new defines stand on what was there before. -/
theorem extend (h : d.Settled) (hc : d'.Consistent)
    (hold : ∀ {place define}, d.file.listing.at? place = some define →
      d'.file.listing.at? place = some define)
    (hnew : ∀ {place define}, d'.file.listing.at? place = some define →
      d.file.listing.at? place = none → d.NamesBefore place define.expr ∧
        ∃ v, define.value = some v ∧
          define.expr.valueUnder (d.file.valueFrom place.program) = .ok v) :
    d'.Settled := by
  have hlookup : ∀ {scope name q}, d.scopes.lookupIn scope name = some q →
      d'.scopes.lookupIn scope name = some q :=
    lookupIn_of_grown h.consistent hc hold
  -- every define, old or new, stands on what the old draft could see
  have hall : ∀ {place define}, d'.file.listing.at? place = some define →
      d.NamesBefore place define.expr ∧ ∃ v, define.value = some v ∧
        define.expr.valueUnder (d.file.valueFrom place.program) = .ok v := by
    intro place define hat
    cases hbefore : d.file.listing.at? place with
    | none => exact hnew hat hbefore
    | some define₀ =>
      cases hat.symm.trans (hold hbefore)
      exact ⟨h.names hbefore, h.valued hbefore⟩
  refine ⟨hc, fun hat n hn => ?_, fun {place define} hat => ?_⟩
  · obtain ⟨q, hq, hbefore⟩ := (hall hat).1 n hn
    exact ⟨q, hlookup hq, hbefore⟩
  · obtain ⟨hnames, v, hv, hvalue⟩ := hall hat
    refine ⟨v, hv, ?_⟩
    rw [← hvalue]
    refine Expr.valueUnder_congr fun n hn => ?_
    obtain ⟨q, hq, -⟩ := hnames n hn
    obtain ⟨hname, -⟩ := h.consistent.lookupIn_eq_some_iff.1 hq
    obtain ⟨target, htarget, -⟩ := Option.map_eq_some_iff.1 hname
    obtain ⟨w, hw, -⟩ := h.valued htarget
    rw [h.consistent.valueFrom_eq hq htarget hw, hc.valueFrom_eq (hlookup hq) (hold htarget) hw]

/-- In a settled draft everything visible has a value. -/
theorem exists_value (h : d.Settled) {name : Symbol} (hvisible : d.scopes.isVisible name = true) :
    ∃ place define v, d.find? name = some (place, define) ∧ define.value = some v ∧
      d.file.valueFrom d.scopes.current name = .ok v := by
  obtain ⟨place, hlookup⟩ := Option.isSome_iff_exists.1 hvisible
  obtain ⟨define, hat, -⟩ := h.consistent.exists_at? hlookup
  obtain ⟨v, hv, -⟩ := h.valued hat
  refine ⟨place, define, v, find?_eq_some.2 ⟨hlookup, hat⟩, hv, ?_⟩
  exact h.consistent.valueFrom_eq hlookup hat hv

variable {e : Expr Symbol}

/-- In a settled draft an expression is evaluated from the values in the file, if all names in it
are visible. -/
theorem evaluate_eq (h : d.Settled) (hvisible : ∀ n ∈ e.names, d.scopes.isVisible n = true) :
    d.evaluate e = (e.valueUnder (d.file.valueFrom d.scopes.current), d) :=
  evaluate_eq_of_known fun n hn => h.exists_value (hvisible n hn)

/-- In a settled draft an evaluation only reads, if all names in the expression are visible. -/
theorem readsKnown (h : d.Settled) (hvisible : ∀ n ∈ e.names, d.scopes.isVisible n = true) :
    d.ReadsKnown e where
  known n hn := by
    obtain ⟨place, define, v, hfind, hv, -⟩ := h.exists_value (hvisible n hn)
    exact ⟨place, define, v, hfind, hv⟩
  unchanged := by rw [h.evaluate_eq hvisible]
  anyLookUp look hlook := by
    have hmeaning : ∀ n ∈ e.names, ∀ d₁, d = d₁ →
        ∃ d₂, look n d₁ = (d.file.valueFrom d.scopes.current n, d₂) ∧ d₁ = d₂ := by
      rintro n hn _ rfl
      obtain ⟨place, define, v, hfind, hv, hvalue⟩ := h.exists_value (hvisible n hn)
      exact ⟨d, by rw [hlook n place define v hfind hv, hvalue], rfl⟩
    obtain ⟨d₁, hby, rfl⟩ := evaluateBy_eq_of_lookUp Eq (fun _ => rfl) Eq.trans hmeaning
    rw [hby, h.evaluate_eq hvisible]
  cause cause hcause := by
    rw [h.evaluate_eq hvisible] at hcause
    rcases Expr.cause_of_valueUnder hcause with hzero | ⟨n, hn, herror⟩
    · exact hzero
    · obtain ⟨place, define, v, -, -, hvalue⟩ := h.exists_value (hvisible n hn)
      rw [hvalue] at herror
      cases herror

/-! ### Every line keeps a draft settled -/

/-- Where nothing is defined a draft stays settled. -/
theorem of_at?_eq (h : d.Settled) (hc : d'.Consistent)
    (hat : ∀ place, d'.file.listing.at? place = d.file.listing.at? place) : d'.Settled :=
  h.extend hc (fun hold => (hat _).trans hold) fun hnew hnone => by
    rw [hat, hnone] at hnew
    cases hnew

/-- Entering a name leaves a draft settled. -/
theorem intern (h : d.Settled) (name : Text) : (d.intern name).2.Settled :=
  h.of_at?_eq (h.consistent.intern name) fun _ => rfl

/-- Opening a program leaves a draft settled. -/
theorem openProgram (h : d.Settled) {name : Symbol} (ho : d.openProgram name = some d') :
    d'.Settled := by
  refine h.of_at?_eq (h.consistent.openProgram ho) fun place => ?_
  obtain ⟨scopes, -, rfl⟩ := openProgram_eq_some ho
  exact Listing.at?_addProgram _ _ _

/-- A define may be added with the value that its expression has in the draft. -/
theorem addDefine (h : d.Settled) {define : Define Symbol} {v : Int32}
    (hvisible : ∀ n ∈ define.expr.names, d.scopes.isVisible n = true) (hv : define.value = some v)
    (hvalue : define.expr.valueUnder (d.file.valueFrom d.scopes.current) = .ok v)
    (ha : d.addDefine define = some d') : d'.Settled := by
  have hat := h.consistent.at?_addDefine ha
  refine h.extend (h.consistent.addDefine ha) (fun {place define₀} hold => ?_)
    fun {place define₀} hnew hnone => ?_
  · rw [hat, if_neg (Listing.ne_nextPlace hold _), hold]
  · rw [hat] at hnew
    split at hnew
    · rename_i hplace
      cases hnew
      subst hplace
      exact ⟨h.consistent.namesBefore_nextPlace hvisible, v, hv, hvalue⟩
    · rw [hnone] at hnew
      cases hnew

/-- A program that begins, or cannot, leaves a draft settled. -/
theorem beginProgram (h : d.Settled) (name : Text) : (d.beginProgram name).2.Settled :=
  of_beginProgram (fun name h => h.intern name) (fun h ho => h.openProgram ho) h name

/-- A define that is added, or cannot be, leaves a draft settled, if all names in its expression are
visible. -/
theorem defineConstant (h : d.Settled) (exported : Bool) (name : Text)
    (hvisible : ∀ n ∈ e.names, d.scopes.isVisible n = true) :
    (d.defineConstant exported name e).2.Settled := by
  have heval := h.evaluate_eq hvisible
  have hentered := h.intern name
  refine of_defineConstant (by rwa [heval]) (by rwa [heval]) fun {v d'} hvalue ha => ?_
  rw [heval] at hvalue ha
  refine hentered.addDefine hvisible rfl ?_ ha
  rw [← hvalue]
  -- a name that is entered does not change what the others stand for
  refine Expr.valueUnder_congr fun n hn => ?_
  obtain ⟨place, define, w, hfind, hw, hold⟩ := h.exists_value (hvisible n hn)
  obtain ⟨place', define', w', hfind', hw', hnew⟩ := hentered.exists_value (hvisible n hn)
  cases hfind.symm.trans hfind'
  cases hw.symm.trans hw'
  exact hnew.trans hold.symm

/-- A line keeps a draft settled, whether it is taken or refused. -/
theorem takeLine (h : d.Settled) (line : Line) : (d.takeLine line).2.Settled := by
  refine of_takeLine h fun statement hread => ?_
  have hvisible := isVisible_of_read hread
  rcases statement with name | ⟨exported, name, e⟩
  · exact h.beginProgram name
  · exact h.defineConstant exported name hvisible

/-- The file of a settled draft is self-contained. -/
theorem selfContained (h : d.Settled) : d.file.SelfContained where
  names hat n hn := by
    obtain ⟨q, hq, hbefore⟩ := h.names hat n hn
    exact ⟨q, (h.consistent.lookupIn_eq_some_iff.1 hq).1, hbefore⟩
  ordered {p q} hrefers := by
    obtain ⟨define, hat, ⟨n, hn, hname⟩, hseen⟩ := hrefers
    obtain ⟨q', hq', hbefore⟩ := h.names hat n hn
    -- only one define of that name can be seen from there
    cases hq'.symm.trans (h.consistent.lookupIn_eq_some_iff.2 ⟨hname, hseen⟩)
    exact hbefore
  valued := h.valued

end Settled

end Draft

/-! ### Runs -/

/-- What a line has evaluated, in which draft. -/
def Draft.evaluated (d : Draft) (line : Line) : List (Draft × Expr Symbol) :=
  match Statement.read d.see line with
  | .ok (.define _ _ e) => [(d, e)]
  | _ => []

/-- What a line has evaluated could be read off a settled draft. -/
theorem Draft.Settled.readsKnown_of_mem_evaluated {d : Draft} (h : d.Settled) {line : Line} :
    ∀ evaluation ∈ d.evaluated line, evaluation.1.ReadsKnown evaluation.2 := by
  intro evaluation hmem
  unfold Draft.evaluated at hmem
  split at hmem
  · rename_i exported name e hread
    rw [List.mem_singleton] at hmem
    subst hmem
    exact h.readsKnown (isVisible_of_read hread)
  · cases hmem

namespace Compilation

/-- The expressions that a run evaluates, each with the draft in which it is evaluated. -/
def evaluations (c : Compilation) : List (Draft × Expr Symbol) :=
  match _h : c.stream.nextLine with
  | (none, _) => []
  | (some (.error _), _) => []
  | (some (.ok line), stream) =>
    match c.draft.takeLine line with
    | (.error _, _) => c.draft.evaluated line
    | (.ok (), draft) => c.draft.evaluated line ++ evaluations ⟨stream, draft⟩
termination_by c.stream.remaining
decreasing_by exact TokenStream.remaining_lt_of_nextLine _h

variable {c : Compilation}

/-- A run from a settled draft evaluates nothing but what can be read off. -/
theorem readsKnown_of_mem_evaluations (h : c.draft.Settled) :
    ∀ evaluation ∈ c.evaluations, evaluation.1.ReadsKnown evaluation.2 := by
  fun_induction evaluations c with
  | case1 c stream hnext => exact fun _ hmem => absurd hmem List.not_mem_nil
  | case2 c fault stream hnext => exact fun _ hmem => absurd hmem List.not_mem_nil
  | case3 c line stream hnext fault draft htake => exact h.readsKnown_of_mem_evaluated
  | case4 c line stream hnext draft htake ih =>
    have hline := h.takeLine line
    rw [htake] at hline
    exact List.forall_mem_append.2 ⟨h.readsKnown_of_mem_evaluated, ih hline⟩

end Compilation

/-! ### Compiled files -/

/-- Every file that comes out is self-contained, and no define in it can be reached from itself.
During a compilation, whether it succeeds or not, every evaluation reads values that are known and
nothing else. -/
theorem compile_selfContained (source : Text) :
    (∀ f, compile source = .ok f →
      f.SelfContained ∧ ∀ place, ¬ Relation.TransGen f.listing.Refers place place) ∧
    ∀ evaluation ∈ (Compilation.ofText source).evaluations,
      evaluation.1.ReadsKnown evaluation.2 := by
  have hempty : (Compilation.ofText source).draft.Settled := .empty
  refine ⟨fun f h => ?_, Compilation.readsKnown_of_mem_evaluations hempty⟩
  have hsettled := Compilation.of_run (fun line h => h.takeLine line) hempty
  unfold compile at h
  split at h
  · rename_i c hrun
    cases h
    rw [hrun] at hsettled
    have hself := hsettled.selfContained
    exact ⟨hself, fun place hreach => (hself.before_of_transGen hreach).irrefl⟩
  · cases h

/-- A define of a program uses a shared one of which the value was found before. -/
theorem compile_selfContained_of_local_define :
    let source : Text := ".define a 7\n.program p\n.define b a/2\n.define c (b-a)*b".toList
    let a : Define Symbol := { name := ⟨0⟩, expr := .literal 7, value := some 7 }
    let b : Define Symbol :=
      { name := ⟨2⟩, expr := .binary .div (.name ⟨0⟩) (.literal 2) false, value := some 3 }
    let c : Define Symbol :=
      { name := ⟨3⟩, value := some (-12)
        expr := .binary .mul (.binary .sub (.name ⟨2⟩) (.name ⟨0⟩) true) (.name ⟨2⟩) false }
    let f : File :=
      { names := ⟨[['a'], ['p'], ['b'], ['c']]⟩
        listing := { defines := [a], programs := [{ name := ⟨1⟩, defines := [b, c] }] } }
    compile source = .ok f ∧ c.expr.valueUnder (f.valueFrom (some 0)) = .ok (-12) ∧
      (∃ q, f.listing.nameAt q = some ⟨2⟩ ∧ q.Before ⟨some 0, 1⟩) ∧
      ¬ Relation.TransGen f.listing.Refers ⟨some 0, 1⟩ ⟨some 0, 1⟩ ∧
      (Compilation.ofText source).evaluations.map Prod.snd = [a.expr, b.expr, c.expr] ∧
      ∀ evaluation ∈ (Compilation.ofText source).evaluations,
        evaluation.1.ReadsKnown evaluation.2 := by
  intro source a b c f
  have hcompile : compile source = .ok f := toOption_eq_some.1 (by decide +kernel)
  obtain ⟨hfiles, hreads⟩ := compile_selfContained source
  obtain ⟨hself, hacyclic⟩ := hfiles f hcompile
  have hat : f.listing.at? ⟨some 0, 1⟩ = some c := rfl
  obtain ⟨v, hv, hvalue⟩ := hself.valued hat
  cases hv
  exact ⟨hcompile, hvalue, hself.names hat ⟨2⟩ (by decide), hacyclic _, by decide +kernel, hreads⟩

end PioFrontEnd
