import PioFrontEnd.Compilation
import PioFrontEnd.Proofs.Evaluation.Caching

/-!
# What is kept while a source is compiled

A draft changes in few ways: a name is entered, a program is opened, a define is added, or a value
is stored. Everything else is made of these, and stops early where something is wrong. So to see
that something holds of every draft on the way it is enough to look at the single changes, and the
lemmas here carry it over to whatever is made of them, whether that succeeds or not.

* `Draft.of_evaluate`: what a stored value keeps is kept by an evaluation.
* `Draft.of_beginProgram`, `Draft.of_defineConstant`: what the changes keep that a statement is made
  of is kept by the statement.
* `Draft.of_takeLine`: what its statement keeps is kept by a line.
* `Compilation.of_run`: what every line keeps is kept by a run.
-/

namespace PioFrontEnd

namespace Draft

variable {d : Draft} {holds : Draft → Prop}

/-! ### Evaluation stores values and does nothing else -/

/-- What a look-up keeps is kept when an expression is evaluated with it. -/
theorem of_evaluateBy {lookUp : Symbol → Draft → Evaluated}
    (hlookUp : ∀ n d, holds d → holds (lookUp n d).2) (e : Expr Symbol) (h : holds d) :
    holds (evaluateBy lookUp e d).2 := by
  induction e generalizing d with
  | literal v => exact h
  | name n => exact hlookUp n d h
  | binary op l r parens ihl ihr =>
    have hleft := ihl h
    rw [evaluateBy]
    rcases hl : evaluateBy lookUp l d with ⟨cause | a, d₁⟩
    · rw [hl] at hleft
      exact hleft
    · rw [hl] at hleft
      have hright := ihr hleft
      dsimp only at hright ⊢
      rcases hr : evaluateBy lookUp r d₁ with ⟨cause | b, d₂⟩
      · rw [hr] at hright
        exact hright
      · rw [hr] at hright
        dsimp only
        split <;> exact hright

/-- Whether something is kept when a value is stored at a place that had none when it was looked
up. -/
def KeptByStores (holds : Draft → Prop) : Prop :=
  ∀ {d d' : Draft} {place : Place} {define : Define Symbol} (v : Int32), holds d →
    d.file.listing.at? place = some define → define.value = none → holds d' →
      holds (d'.setValue v place)

/-- What a stored value and the evaluation of a define keep is kept when a name is looked up. -/
theorem of_lookUpBy {evaluateNew : Symbol → Expr Symbol → Draft → Evaluated}
    (hset : KeptByStores holds)
    (hnew : ∀ n e d, holds d → holds (evaluateNew n e d).2) (n : Symbol) (h : holds d) :
    holds (lookUpBy evaluateNew n d).2 := by
  unfold lookUpBy
  split
  · exact h
  · rename_i place define hfind
    split
    · exact h
    · rename_i hvalue
      have hafter := hnew n define.expr d h
      split
      · rename_i v d' heval
        rw [heval] at hafter
        exact hset v h (find?_eq_some.1 hfind).2 hvalue hafter
      · rename_i cause d' heval
        rw [heval] at hafter
        exact hafter

/-- What a stored value keeps is kept by an evaluation. -/
theorem of_evaluate (hset : KeptByStores holds) (e : Expr Symbol) (h : holds d) :
    holds (d.evaluate e).2 := by
  have hlookUp : ∀ depth n d, holds d → holds (lookUp depth n d).2 := by
    intro depth
    induction depth with
    | zero => exact fun n d h => of_lookUpBy hset (fun n e d h => h) n h
    | succ depth ih => exact fun n d h => of_lookUpBy hset (fun n e d h => of_evaluateBy ih e h) n h
  exact of_evaluateBy (hlookUp _) e h

/-! ### Statements and lines -/

/-- What is kept when a name is entered and when a program is opened is kept when one begins. -/
theorem of_beginProgram (hintern : ∀ {d} name, holds d → holds (d.intern name).2)
    (hopen : ∀ {d d' : Draft} {name}, holds d → d.openProgram name = some d' → holds d')
    (h : holds d) (name : Text) : holds (d.beginProgram name).2 := by
  have hentered := hintern name h
  unfold beginProgram
  dsimp only
  split
  · rename_i d' ho
    exact hopen hentered ho
  · exact hentered

/-- A define leaves the draft after the evaluation of its expression, the one in which its name has
been entered as well, or the one to which it has been added. -/
theorem of_defineConstant {exported : Bool} {name : Text} {e : Expr Symbol}
    (hevaluated : holds (d.evaluate e).2) (hentered : holds ((d.evaluate e).2.intern name).2)
    (hadded : ∀ {v d'}, (d.evaluate e).1 = .ok v →
      ((d.evaluate e).2.intern name).2.addDefine
        ⟨((d.evaluate e).2.intern name).1, exported, e, some v⟩ = some d' → holds d') :
    holds (d.defineConstant exported name e).2 := by
  unfold defineConstant
  rcases hd : d.evaluate e with ⟨cause | v, d₁⟩
  · rw [hd] at hevaluated
    exact hevaluated
  · rw [hd] at hentered hadded
    dsimp only
    split
    · rename_i d' ha
      exact hadded rfl ha
    · exact hentered

/-- What its statement keeps is kept by a line, whether it is taken or refused. -/
theorem of_takeLine {line : Line} (h : holds d)
    (hobey : ∀ statement, Statement.read d.see line = .ok statement →
      holds (d.obey statement).2) : holds (d.takeLine line).2 := by
  unfold takeLine
  split
  · exact h
  · rename_i statement hread
    have hkept := hobey statement hread
    split <;> rename_i hd <;> rw [hd] at hkept <;> exact hkept

end Draft

/-! ### Runs -/

/-- What every line keeps is kept by a run. -/
theorem Compilation.of_run {c : Compilation} {holds : Draft → Prop}
    (hline : ∀ {d} line, holds d → holds (d.takeLine line).2) (h : holds c.draft) :
    holds c.run.2.draft := by
  fun_induction run c with
  | case1 c stream hnext => exact h
  | case2 c fault stream hnext => exact h
  | case3 c line stream hnext fault draft htake =>
    have hkept := hline line h
    rw [htake] at hkept
    exact hkept
  | case4 c line stream hnext draft htake ih =>
    have hkept := hline line h
    rw [htake] at hkept
    exact ih hkept

end PioFrontEnd
