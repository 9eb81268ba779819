import PioFrontEnd.Listing.Basic

/-!
# Listings that grow, and listings that are changed

What is added to a listing comes to its end: a program after all others, a define after those of the
last program (`Listing.append`), or after the shared ones as long as there is no program.

A change of single defines (`Listing.mapDefines`) or of names (`Listing.map`) can be made before or
after a listing grows.

* `Listing.visible`: the defines that can be seen at the end.
* `Listing.append_cases`: the two places where a define can be put at the end.
* `Listing.declared`: the names of programs and defines, in order.
* `Listing.withoutValues`: the listing as it is before anything is evaluated.
* `Listing.map_congr`: only the names in a listing matter to a change of names.
-/

namespace PioFrontEnd

/-! ### Listings that grow at their end -/

namespace Listing

variable {ν μ : Type}

/-- The defines that can be seen at the end of a listing, the shared ones first. -/
def visible (l : Listing ν) : List (Define ν) :=
  l.defines ++ (l.programs.getLast?.map Program.defines).getD []

/-- The defines that can be seen from a program, or from none, the shared ones first. -/
def visibleFrom (l : Listing ν) : Option Nat → List (Define ν)
  | none => l.defines
  | some p => l.defines ++ l.definesIn (some p)

/-- Puts a define at the end of the last program, or of the shared ones if there is no program. -/
def append (l : Listing ν) (d : Define ν) : Listing ν :=
  match l.programs.getLast? with
  | none => { l with defines := l.defines ++ [d] }
  | some p => { l with programs := l.programs.dropLast ++ [{ p with defines := p.defines ++ [d] }] }

/-- The names of the programs and defines, in the order of their lines. -/
def declared (l : Listing ν) : List ν :=
  l.defines.map Define.name ++ l.programs.flatMap fun p => p.name :: p.defines.map Define.name

/-- All names in a listing: of the programs, of the defines, and in their expressions. -/
def mentioned (l : Listing ν) : List ν :=
  (l.allDefines.flatMap fun d => d.name :: d.expr.names) ++ l.programs.map Program.name

/-- With other names the same defines are visible. -/
@[simp] theorem visible_map (f : ν → μ) (l : Listing ν) :
    (l.map f).visible = l.visible.map (·.map f) := by
  simp only [visible, map, List.getLast?_map, List.map_append]
  cases l.programs.getLast? <;> simp [Program.map]

/-- Names can be changed before or after a define is put at the end. -/
theorem append_map (f : ν → μ) (l : Listing ν) (d : Define ν) :
    (l.append d).map f = (l.map f).append (d.map f) := by
  simp only [append, map, List.getLast?_map]
  cases l.programs.getLast? with
  | none => simp
  | some p => simp [Program.map, List.map_dropLast]

/-- Names can be changed before or after a program is added. -/
theorem addProgram_map (f : ν → μ) (l : Listing ν) (name : ν) :
    (l.addProgram name).map f = (l.map f).addProgram (f name) := by
  simp [addProgram, map, Program.map]

/-- Without a program, a define is put at the end of the shared ones. -/
theorem append_of_nil (shared : List (Define ν)) (d : Define ν) :
    (⟨shared, []⟩ : Listing ν).append d = ⟨shared ++ [d], []⟩ := rfl

/-- A define is put at the end of those of the last program. -/
theorem append_of_concat (shared : List (Define ν)) (earlier : List (Program ν)) (p : Program ν)
    (d : Define ν) : (⟨shared, earlier ++ [p]⟩ : Listing ν).append d =
      ⟨shared, earlier ++ [{ p with defines := p.defines ++ [d] }]⟩ := by
  simp [append]

/-- A define that is put at the end comes after the shared ones if there is no program, and after
those of the last program otherwise. -/
theorem append_cases (l : Listing ν) (d : Define ν) :
    (l.programs = [] ∧ l.append d = { l with defines := l.defines ++ [d] }) ∨
      ∃ earlier p, l.programs = earlier ++ [p] ∧
        l.append d =
          { l with programs := earlier ++ [{ p with defines := p.defines ++ [d] }] } := by
  obtain ⟨shared, programs⟩ := l
  rcases List.eq_nil_or_concat programs with rfl | ⟨earlier, p, hprograms⟩
  · exact .inl ⟨rfl, append_of_nil shared d⟩
  · rw [List.concat_eq_append] at hprograms
    subst hprograms
    exact .inr ⟨earlier, p, rfl, append_of_concat shared earlier p d⟩

/-- A define that is put at the end is declared after all others. -/
theorem declared_append (l : Listing ν) (d : Define ν) :
    (l.append d).declared = l.declared ++ [d.name] := by
  rcases l.append_cases d with ⟨hprograms, happend⟩ | ⟨earlier, p, hprograms, happend⟩
  · simp [happend, declared, hprograms]
  · simp [happend, declared, hprograms]

/-- A define that is put at the end is visible after all others. -/
theorem visible_append (l : Listing ν) (d : Define ν) :
    (l.append d).visible = l.visible ++ [d] := by
  rcases l.append_cases d with ⟨hprograms, happend⟩ | ⟨earlier, p, hprograms, happend⟩
  · simp [happend, visible, hprograms]
  · simp [happend, visible, hprograms]

/-- When a program has been added, what is visible is what is shared. -/
theorem visible_addProgram (l : Listing ν) (name : ν) :
    (l.addProgram name).visible = l.defines := by
  simp [visible, addProgram]

/-- A define that is put at the end is the last of all defines. -/
theorem allDefines_append (l : Listing ν) (d : Define ν) :
    (l.append d).allDefines = l.allDefines ++ [d] := by
  rcases l.append_cases d with ⟨hprograms, happend⟩ | ⟨earlier, p, hprograms, happend⟩
  · simp [happend, allDefines, hprograms]
  · simp [happend, allDefines, hprograms]

/-- A define that is put at the end leaves the programs and their names. -/
theorem map_name_append (l : Listing ν) (d : Define ν) :
    (l.append d).programs.map Program.name = l.programs.map Program.name := by
  rcases l.append_cases d with ⟨hprograms, happend⟩ | ⟨earlier, p, hprograms, happend⟩
  · simp [happend]
  · simp [happend, hprograms]

/-- A program that is added has no defines. -/
theorem allDefines_addProgram (l : Listing ν) (name : ν) :
    (l.addProgram name).allDefines = l.allDefines := by
  simp [addProgram, allDefines]

/-- A program that is added is declared after everything else. -/
theorem declared_addProgram (l : Listing ν) (name : ν) :
    (l.addProgram name).declared = l.declared ++ [name] := by
  simp [addProgram, declared]

/-- What holds of the names before holds of all of them if it holds of the new program. -/
theorem forall_declared_addProgram {l : Listing ν} {name : ν} {holds : ν → Prop} :
    (∀ n ∈ (l.addProgram name).declared, holds n) ↔ (∀ n ∈ l.declared, holds n) ∧ holds name := by
  simp only [declared_addProgram, List.forall_mem_append, List.forall_mem_singleton]

/-- What holds of the names before holds of all of them if it holds of the new define. -/
theorem forall_declared_append {l : Listing ν} {d : Define ν} {holds : ν → Prop} :
    (∀ n ∈ (l.append d).declared, holds n) ↔ (∀ n ∈ l.declared, holds n) ∧ holds d.name := by
  simp only [declared_append, List.forall_mem_append, List.forall_mem_singleton]

/-- What holds of the defines before holds of all of them if it holds of the new one. -/
theorem forall_allDefines_append {l : Listing ν} {d : Define ν} {holds : Define ν → Prop} :
    (∀ e ∈ (l.append d).allDefines, holds e) ↔ (∀ e ∈ l.allDefines, holds e) ∧ holds d := by
  simp only [allDefines_append, List.forall_mem_append, List.forall_mem_singleton]

/-- A define that is put at the end mentions its name and the names in its expression. -/
theorem mentioned_append (l : Listing ν) (d : Define ν) {n : ν} :
    n ∈ (l.append d).mentioned ↔ n ∈ l.mentioned ∨ n ∈ d.name :: d.expr.names := by
  simp only [mentioned, allDefines_append, map_name_append, List.flatMap_append,
    List.flatMap_singleton, List.mem_append]
  exact or_right_comm

/-- A program that is added mentions its name. -/
theorem mentioned_addProgram (l : Listing ν) (name : ν) :
    (l.addProgram name).mentioned = l.mentioned ++ [name] := by
  simp [addProgram, mentioned, allDefines]

/-- What is visible is declared. -/
theorem mem_declared_of_mem_visible {l : Listing ν} {d : Define ν} (h : d ∈ l.visible) :
    d.name ∈ l.declared := by
  rcases List.mem_append.1 h with h | h
  · exact List.mem_append_left _ (List.mem_map_of_mem h)
  · apply List.mem_append_right _
    cases hlast : l.programs.getLast? with
    | none =>
      rw [hlast] at h
      cases h
    | some p =>
      rw [hlast] at h
      refine List.mem_flatMap.2 ⟨p, List.mem_of_getLast? hlast, List.mem_cons_of_mem _ ?_⟩
      exact List.mem_map_of_mem h

/-- What stands at a place is among all defines. -/
theorem mem_allDefines_of_at? {l : Listing ν} {place : Place} {d : Define ν}
    (h : l.at? place = some d) : d ∈ l.allDefines := by
  obtain ⟨scope, i⟩ := place
  have hmem := List.mem_of_getElem? h
  cases scope with
  | none => exact List.mem_append_left _ hmem
  | some p =>
    simp only [definesIn] at hmem
    cases hp : l.programs[p]? with
    | none => simp [hp] at hmem
    | some program =>
      rw [hp] at hmem
      exact List.mem_append_right _ (List.mem_flatMap.2 ⟨program, List.mem_of_getElem? hp, hmem⟩)

/-- What is declared is mentioned. -/
theorem declared_subset_mentioned (l : Listing ν) : l.declared ⊆ l.mentioned := by
  intro n hn
  simp only [declared, mentioned, allDefines, List.mem_append, List.mem_map, List.mem_flatMap,
    List.mem_cons] at hn ⊢
  grind

end Listing

/-! ### Changing all defines -/

/-- The define without its value. -/
def Define.withoutValue {ν : Type} (d : Define ν) : Define ν := { d with value := none }

namespace Listing

variable {ν : Type} (f : Define ν → Define ν)

/-- The listing with every define changed. -/
def mapDefines (l : Listing ν) : Listing ν :=
  { defines := l.defines.map f
    programs := l.programs.map fun p => { p with defines := p.defines.map f } }

/-- The listing without the values of its defines. -/
def withoutValues (l : Listing ν) : Listing ν := l.mapDefines Define.withoutValue

/-- In each scope a change of defines is a change of the defines there. -/
theorem definesIn_mapDefines (l : Listing ν) (scope : Option Nat) :
    (l.mapDefines f).definesIn scope = (l.definesIn scope).map f := by
  cases scope with
  | none => rfl
  | some p =>
    simp only [definesIn, mapDefines, List.getElem?_map]
    cases l.programs[p]? <;> rfl

/-- After a change of defines, what stands at a place is what stood there, changed. -/
theorem at?_mapDefines (l : Listing ν) (place : Place) :
    (l.mapDefines f).at? place = (l.at? place).map f := by
  simp only [at?, definesIn_mapDefines, List.getElem?_map]

/-- A change of defines changes all of them, in place. -/
theorem allDefines_mapDefines (l : Listing ν) :
    (l.mapDefines f).allDefines = l.allDefines.map f := by
  simp only [allDefines, mapDefines, List.map_append, List.map_flatMap, List.flatMap_map]

/-- After a change of defines the same ones are visible, changed. -/
theorem visible_mapDefines (l : Listing ν) : (l.mapDefines f).visible = l.visible.map f := by
  simp only [visible, mapDefines, List.getLast?_map, List.map_append]
  cases l.programs.getLast? <;> simp

/-- Defines can be changed before or after one is put at the end. -/
theorem mapDefines_append (l : Listing ν) (d : Define ν) :
    (l.append d).mapDefines f = (l.mapDefines f).append (f d) := by
  simp only [append, mapDefines, List.getLast?_map]
  cases l.programs.getLast? with
  | none => simp
  | some p => simp [List.map_dropLast]

/-- Defines can be changed before or after a program is added. -/
theorem mapDefines_addProgram (l : Listing ν) (name : ν) :
    (l.addProgram name).mapDefines f = (l.mapDefines f).addProgram name := by
  simp [addProgram, mapDefines]

variable {f}

/-- A change of defines within one scope that agrees with another one, once every define has been
changed, can be made before or after that. -/
theorem mapDefines_modifyDefines {g g' : List (Define ν) → List (Define ν)}
    (h : ∀ ds, (g ds).map f = g' (ds.map f)) (l : Listing ν) (scope : Option Nat) :
    (l.modifyDefines g scope).mapDefines f = (l.mapDefines f).modifyDefines g' scope := by
  cases scope with
  | none => simp only [modifyDefines, mapDefines, h]
  | some p =>
    simp only [modifyDefines, mapDefines, mk.injEq, true_and]
    apply List.ext_getElem?
    intro q
    simp only [List.getElem?_map, List.getElem?_modify]
    cases l.programs[q]? with
    | none => rfl
    | some program =>
      by_cases hq : p = q
      · simp [hq, h]
      · simp [hq]

/-- Defines can be changed before or after one is added to a scope. -/
theorem mapDefines_addDefine (l : Listing ν) (scope : Option Nat) (d : Define ν) :
    (l.addDefine scope d).mapDefines f = (l.mapDefines f).addDefine scope (f d) :=
  mapDefines_modifyDefines (fun ds => by simp) l scope

/-- A change of defines that keeps their names keeps what is declared. -/
theorem declared_mapDefines (hf : ∀ d, (f d).name = d.name) (l : Listing ν) :
    (l.mapDefines f).declared = l.declared := by
  have hname : Define.name ∘ f = Define.name := funext hf
  simp only [declared, mapDefines, List.map_map, List.flatMap_map, hname]

/-- What a change does to the defines that are there is all that matters. -/
theorem mapDefines_congr {g : Define ν → Define ν} {l : Listing ν}
    (h : ∀ d ∈ l.allDefines, f d = g d) : l.mapDefines f = l.mapDefines g := by
  have hprogram : ∀ p ∈ l.programs, p.defines.map f = p.defines.map g := fun p hp =>
    List.map_congr_left fun d hd =>
      h d (List.mem_append_right _ (List.mem_flatMap.2 ⟨p, hp, hd⟩))
  have hprograms := List.map_congr_left
    (f := fun p : Program ν => { p with defines := p.defines.map f })
    (g := fun p => { p with defines := p.defines.map g }) fun p hp => by rw [hprogram p hp]
  simp only [mapDefines, hprograms, List.map_congr_left fun d hd => h d (List.mem_append_left _ hd)]

/-- The change that leaves every define as it is leaves the listing as it is. -/
theorem mapDefines_id (l : Listing ν) : l.mapDefines id = l := by
  have hprogram : (fun p : Program ν => { p with defines := p.defines.map id }) = id :=
    funext fun p => by rw [List.map_id, id]
  rw [mapDefines, List.map_id, hprogram, List.map_id]

/-- A change of defines keeps the programs and their names. -/
theorem isSome_program?_mapDefines [DecidableEq ν] (f : Define ν → Define ν) (l : Listing ν)
    (name : ν) : ((l.mapDefines f).program? name).isSome = (l.program? name).isSome := by
  simp only [program?, mapDefines, List.find?_map, Option.isSome_map, Function.comp_def]

/-- A stored value is forgotten. -/
theorem withoutValues_setValue (l : Listing ν) (v : Int32) (place : Place) :
    (l.setValue v place).withoutValues = l.withoutValues := by
  have hforget : ∀ ds : List (Define ν),
      (ds.modify place.index fun d => { d with value := some v }).map Define.withoutValue =
        id (ds.map Define.withoutValue) := by
    intro ds
    apply List.ext_getElem?
    intro i
    simp only [List.getElem?_map, List.getElem?_modify, id_eq]
    cases ds[i]? with
    | none => rfl
    | some d => by_cases hi : place.index = i <;> simp [hi, Define.withoutValue]
  rw [setValue, withoutValues, mapDefines_modifyDefines hforget]
  cases place.program with
  | none => rfl
  | some p =>
    simp only [modifyDefines, id_eq]
    rw [show (fun q : Program ν => { q with defines := q.defines }) = id from rfl, List.modify_id]
    rfl

end Listing

/-! ### Changing names -/

section MapCongr

variable {ν μ : Type} {f g : ν → μ}

/-- Only the names in an expression matter to a change of names. -/
theorem Expr.map_congr {e : Expr ν} (h : ∀ n ∈ e.names, f n = g n) : e.map f = e.map g := by
  induction e with
  | literal v => rfl
  | name n => exact congrArg Expr.name (h n (by simp [Expr.names]))
  | binary op l r p ihl ihr =>
    have hl := ihl fun n hn => h n (by simp [Expr.names, hn])
    have hr := ihr fun n hn => h n (by simp [Expr.names, hn])
    simp only [Expr.map, hl, hr]

/-- Only the name of a define and those in its expression matter to a change of names. -/
theorem Define.map_congr {d : Define ν} (h : ∀ n ∈ d.name :: d.expr.names, f n = g n) :
    d.map f = d.map g := by
  have hexpr : d.expr.map f = d.expr.map g := Expr.map_congr fun n hn => h n (.tail _ hn)
  simp only [Define.map, hexpr, h d.name (.head _)]

/-- Names that a listing does not mention do not matter to it. -/
theorem Listing.map_congr {l : Listing ν} (h : ∀ n ∈ l.mentioned, f n = g n) :
    l.map f = l.map g := by
  have hdefine : ∀ d ∈ l.allDefines, d.map f = d.map g := fun d hd =>
    Define.map_congr fun n hn => h n (List.mem_append_left _ (List.mem_flatMap.2 ⟨d, hd, hn⟩))
  have hprogram : ∀ p ∈ l.programs, p.map f = p.map g := by
    intro p hp
    have hname : f p.name = g p.name :=
      h _ (List.mem_append_right _ (List.mem_map_of_mem hp))
    have hdefines : p.defines.map (·.map f) = p.defines.map (·.map g) :=
      List.map_congr_left fun d hd =>
        hdefine d (List.mem_append_right _ (List.mem_flatMap.2 ⟨p, hp, hd⟩))
    simp only [Program.map, hname, hdefines]
  simp only [Listing.map, List.map_congr_left hprogram,
    List.map_congr_left fun d hd => hdefine d (List.mem_append_left _ hd)]

end MapCongr

section MapMap

variable {ν μ κ : Type}

/-- Two changes of the names in an expression, one after the other, are one change. -/
theorem Expr.map_map (f : ν → μ) (g : μ → κ) (e : Expr ν) : (e.map f).map g = e.map (g ∘ f) := by
  induction e with
  | literal v => rfl
  | name n => rfl
  | binary op l r p ihl ihr => simp only [Expr.map, ihl, ihr]

/-- The change of names that changes nothing leaves an expression as it is. -/
theorem Expr.map_id (e : Expr ν) : e.map id = e := by
  induction e with
  | literal v => rfl
  | name n => rfl
  | binary op l r p ihl ihr => simp only [Expr.map, ihl, ihr]

/-- Two changes of the names in a listing, one after the other, are one change. -/
theorem Listing.map_map (f : ν → μ) (g : μ → κ) (l : Listing ν) :
    (l.map f).map g = l.map (g ∘ f) := by
  have hdefine : Define.map g ∘ Define.map f = Define.map (g ∘ f) := by
    funext d
    simp only [Function.comp_apply, Define.map, Expr.map_map]
  have hprogram : Program.map g ∘ Program.map f = Program.map (g ∘ f) := by
    funext p
    simp only [Function.comp_apply, Program.map, List.map_map, hdefine]
  simp only [Listing.map, List.map_map, hdefine, hprogram]

/-- The change of names that changes nothing leaves a listing as it is. -/
theorem Listing.map_id (l : Listing ν) : l.map id = l := by
  have hdefine : (Define.map id : Define ν → Define ν) = id := by
    funext d
    simp only [Define.map, Expr.map_id, id]
  have hprogram : (Program.map id : Program ν → Program ν) = id := by
    funext p
    simp only [Program.map, hdefine, id, List.map_id_fun']
  simp only [Listing.map, hdefine, hprogram, List.map_id]

/-- A change of names can be made before or after a change of defines, if it can for one define. -/
theorem Listing.map_mapDefines {r : ν → μ} {f : Define ν → Define ν} {g : Define μ → Define μ}
    (h : ∀ d, (f d).map r = g (d.map r)) (l : Listing ν) :
    (l.mapDefines f).map r = (l.map r).mapDefines g := by
  simp only [Listing.map, mapDefines, Program.map, List.map_map, Function.comp_def, h]

end MapMap

end PioFrontEnd
