import PioFrontEnd.Proofs.Evaluation.Caching

/-!
# The scopes of a draft and its listing agree

The scopes of a draft number the defines of its listing by name, and the two are kept apart: a
define is declared in the scopes first and put into the listing afterwards. `Draft.Consistent` says
that they agree: each scope gives a name an index exactly if the define of that index has that name
(`Indexes`), no name is shared and local at once, there is a scope for every program, and the last
program is the current one.

* `Consistent.lookupIn_eq_some_iff`: in a consistent draft a name is visible from a program, or
  from none, exactly if a define of that name stands there or among the shared ones, and then it is
  that define which is found.
* `Consistent.openProgram`, `Consistent.addDefine`, `Consistent.setValue`: every change of a draft
  keeps it consistent.

The names of a scope are distinct for that reason, and what was found once is found again: a place
keeps its define, and a shared define is never added once there is a program.
-/

namespace PioFrontEnd

/-! ### Places in a growing listing -/

/-- What is put at the end of a list is found there, and nothing else moves. -/
theorem getElem?_concat {α : Type} (l : List α) (a : α) (i : Nat) :
    (l ++ [a])[i]? = if i = l.length then some a else l[i]? := by
  grind

namespace Listing

variable {ν : Type}

/-- The name of the define at a place. -/
def nameAt (l : Listing ν) (place : Place) : Option ν := (l.at? place).map Define.name

/-- The place that the next define of a scope takes. -/
def nextPlace (l : Listing ν) (scope : Option Nat) : Place := ⟨scope, (l.definesIn scope).length⟩

/-- Nothing is seen in an empty listing. -/
@[simp] theorem at?_empty (place : Place) : ({} : Listing ν).at? place = none := by
  obtain ⟨scope, i⟩ := place
  cases scope <;> rfl

/-- An added define is seen at the next place of its scope and nowhere else. -/
theorem at?_addDefine {l : Listing ν} {scope : Option Nat} (h : l.HasProgram scope)
    (d : Define ν) (place : Place) :
    (l.addDefine scope d).at? place =
      if place = l.nextPlace scope then some d else l.at? place := by
  obtain ⟨scope', i⟩ := place
  simp only [at?, definesIn_addDefine h, nextPlace, Place.mk.injEq]
  by_cases hs : scope' = scope
  · subst hs
    simp only [if_true, true_and, getElem?_concat]
  · simp [hs]

/-- An added program has no defines, so what is seen stays as it is. -/
theorem at?_addProgram (l : Listing ν) (name : ν) (place : Place) :
    (l.addProgram name).at? place = l.at? place := by
  obtain ⟨scope, i⟩ := place
  cases scope with
  | none => rfl
  | some p =>
    simp only [at?, definesIn, addProgram, getElem?_concat]
    split
    · rename_i hp
      simp [hp]
    · rfl

/-- Nothing is seen yet at the next place of a scope. -/
theorem at?_nextPlace (l : Listing ν) (scope : Option Nat) : l.at? (l.nextPlace scope) = none := by
  simp [at?, nextPlace]

/-- Where something is seen is not the next place. -/
theorem ne_nextPlace {l : Listing ν} {place : Place} {d : Define ν} (h : l.at? place = some d)
    (scope : Option Nat) : place ≠ l.nextPlace scope := by
  rintro rfl
  rw [at?_nextPlace] at h
  cases h

/-- What is seen stands before the next place. -/
theorem index_lt_of_at? {l : Listing ν} {place : Place} {d : Define ν} (h : l.at? place = some d) :
    place.index < (l.definesIn place.program).length :=
  (List.getElem?_eq_some_iff.1 h).1

/-- A change of defines keeps the names of the programs. -/
theorem map_name_modifyDefines (l : Listing ν) (f : List (Define ν) → List (Define ν))
    (scope : Option Nat) :
    (l.modifyDefines f scope).programs.map Program.name = l.programs.map Program.name := by
  cases scope with
  | none => rfl
  | some p =>
    apply List.ext_getElem?
    intro q
    by_cases hq : p = q
    · simp [modifyDefines, hq, Function.comp_def]
    · simp [modifyDefines, hq]

/-- A stored value does not change the name at any place. -/
@[simp] theorem nameAt_setValue (l : Listing ν) (v : Int32) (place other : Place) :
    (l.setValue v place).nameAt other = l.nameAt other := by
  simp only [nameAt, at?_setValue]
  split
  · cases l.at? other <;> rfl
  · rfl

end Listing

/-! ### Looking names up from a given program -/

/-- Whether each name has the index at which it stands. -/
def Indexes (index : Symbol → Option Nat) (nameAt : Nat → Option Symbol) : Prop :=
  ∀ s i, index s = some i ↔ nameAt i = some s

/-- Indexes stay right if a new name gets the next index. -/
theorem Indexes.insert {index index' : Symbol → Option Nat} {nameAt nameAt' : Nat → Option Symbol}
    {name : Symbol} {next : Nat} (h : Indexes index nameAt) (hnew : index name = none)
    (hnext : nameAt next = none) (hindex : ∀ s, index' s = if s = name then some next else index s)
    (hnameAt : ∀ i, nameAt' i = if i = next then some name else nameAt i) :
    Indexes index' nameAt' := by
  intro s i
  rw [hindex, hnameAt]
  by_cases hs : s = name
  · subst hs
    by_cases hi : i = next
    · simp [hi]
    · have hother : ¬ nameAt i = some s := by
        intro hat
        have hfound := (h s i).2 hat
        rw [hnew] at hfound
        cases hfound
      simp [hi, Ne.symm hi, hother]
  · rw [if_neg hs, h s i]
    by_cases hi : i = next
    · simp [hi, hnext, Ne.symm hs]
    · simp [hi]

/-- Whether a place can be seen from a program, or from none. -/
def Place.SeenFrom (place : Place) (scope : Option Nat) : Prop :=
  place.program = none ∨ place.program = scope

namespace Scopes

variable {s s' : Scopes} {name : Symbol}

/-- The index that a name has in the scope of a program, or in the shared scope. -/
def indexIn (s : Scopes) : Option Nat → Symbol → Option Nat
  | none, name => s.shared.find? name
  | some p, name => s.locals[p]?.bind (·.find? name)

/-- Where the define of a symbol stands that is visible from a program, or from none. -/
def lookupIn (s : Scopes) (scope : Option Nat) (name : Symbol) : Option Place :=
  { s with current := scope }.lookup name

/-- What is visible now is what is visible from the current program. -/
theorem lookup_eq_lookupIn (s : Scopes) (name : Symbol) :
    s.lookup name = s.lookupIn s.current name := rfl

/-- A name is searched in the shared scope first. -/
theorem lookupIn_of_shared {i : Nat} (h : s.indexIn none name = some i) (scope : Option Nat) :
    s.lookupIn scope name = some ⟨none, i⟩ := by
  have hfind : s.shared.find? name = some i := h
  simp only [lookupIn, lookup, hfind]

/-- A name that is not shared is searched in the given scope. -/
theorem lookupIn_of_not_shared (h : s.indexIn none name = none) (scope : Option Nat) :
    s.lookupIn scope name = (s.indexIn scope name).map (⟨scope, ·⟩) := by
  have hfind : s.shared.find? name = none := h
  cases scope with
  | none => simp [lookupIn, lookup, indexIn, hfind]
  | some p =>
    simp only [lookupIn, lookup, indexIn, hfind, Option.bind_eq_bind, Option.bind_some]
    cases s.locals[p]? with
    | none => rfl
    | some scope =>
      rw [Option.bind_some, Option.bind_some]
      cases scope.find? name <;> rfl

/-- A program is opened only if its name is new, and then gets the next scope. -/
theorem openProgram_eq_some (h : s.openProgram name = some s') :
    s.programs.find? name = none ∧
      s' = { s with programs := (name, s.locals.length) :: s.programs
                    locals := s.locals ++ [[]]
                    current := some s.locals.length } := by
  unfold openProgram at h
  split at h
  · cases h
  · rename_i hnew
    cases h
    exact ⟨hnew, rfl⟩

/-- The scope of a new program gives no name an index. -/
theorem indexIn_openProgram (h : s.openProgram name = some s') (scope : Option Nat)
    (other : Symbol) :
    s'.indexIn scope other = s.indexIn scope other := by
  obtain ⟨-, rfl⟩ := openProgram_eq_some h
  cases scope with
  | none => rfl
  | some p =>
    simp only [indexIn, List.getElem?_append, List.getElem?_singleton]
    by_cases hp : p < s.locals.length
    · rw [if_pos hp]
    · rw [if_neg hp, List.getElem?_eq_none (Nat.le_of_not_lt hp)]
      split <;> rfl

/-- A name is declared only if it is not visible, and then in the current scope. -/
theorem declare_eq_some {index : Nat} (h : s.declare name index = some s') :
    s.lookup name = none ∧
      s' = match s.current with
        | none => { s with shared := (name, index) :: s.shared }
        | some p => { s with locals := s.locals.modify p ((name, index) :: ·) } := by
  unfold declare isVisible at h
  split at h
  · cases h
  · rename_i hnew
    refine ⟨by simpa using hnew, ?_⟩
    cases hc : s.current with
    | none =>
      rw [hc] at h
      cases h
      rfl
    | some p =>
      rw [hc] at h
      cases h
      rfl

/-- A declaration leaves the programs as they are. -/
theorem declare_frame {index : Nat} (h : s.declare name index = some s') :
    s'.programs = s.programs ∧ s'.locals.length = s.locals.length ∧ s'.current = s.current := by
  obtain ⟨-, rfl⟩ := declare_eq_some h
  cases s.current with
  | none => exact ⟨rfl, rfl, rfl⟩
  | some p => exact ⟨rfl, List.length_modify .., rfl⟩

/-- A declaration gives one name an index in one scope. -/
theorem indexIn_declare {index : Nat} (hcurrent : s.HasCurrent)
    (h : s.declare name index = some s') (scope : Option Nat) (other : Symbol) :
    s'.indexIn scope other =
      if scope = s.current ∧ other = name then some index else s.indexIn scope other := by
  obtain ⟨-, rfl⟩ := declare_eq_some h
  cases hc : s.current with
  | none =>
    cases scope with
    | none => simp [indexIn, find?_cons]
    | some p => simp [indexIn]
  | some q =>
    have hq : q < s.locals.length := hcurrent q hc
    cases scope with
    | none => simp [indexIn]
    | some p =>
      by_cases hp : p = q
      · subst hp
        simp [indexIn, hq, find?_cons]
      · simp [indexIn, hp, Ne.symm hp]

end Scopes

namespace Draft

/-- What opening a program does to a draft. -/
theorem openProgram_eq_some {d d' : Draft} {name : Symbol} (h : d.openProgram name = some d') :
    ∃ scopes, d.scopes.openProgram name = some scopes ∧
      d' = { file := { d.file with listing := d.file.listing.addProgram name }
             scopes := scopes } := by
  obtain ⟨scopes, hscopes, he⟩ := Option.bind_eq_some_iff.1 h
  cases he
  exact ⟨scopes, hscopes, rfl⟩

/-- A program cannot be opened exactly if its name is taken. -/
theorem openProgram_eq_none {d : Draft} {name : Symbol} :
    d.openProgram name = none ↔ (d.scopes.programs.find? name).isSome = true := by
  cases hfind : d.scopes.programs.find? name <;>
    simp [Draft.openProgram, Scopes.openProgram, hfind]

/-- A define cannot be added exactly if its name is visible. -/
theorem addDefine_eq_none {d : Draft} {define : Define Symbol} :
    d.addDefine define = none ↔ d.scopes.isVisible define.name = true := by
  cases hvisible : d.scopes.isVisible define.name <;> cases hcurrent : d.scopes.current <;>
    simp [Draft.addDefine, Scopes.declare, hvisible, hcurrent]

/-- What adding a define does to a draft. -/
theorem addDefine_eq_some {d d' : Draft} {define : Define Symbol}
    (h : d.addDefine define = some d') :
    ∃ scopes, d.scopes.declare define.name
        (d.file.listing.definesIn d.scopes.current).length = some scopes ∧
      d' = { file := { d.file with listing := d.file.listing.addDefine d.scopes.current define }
             scopes := scopes } := by
  obtain ⟨scopes, hscopes, he⟩ := Option.bind_eq_some_iff.1 h
  cases he
  exact ⟨scopes, hscopes, rfl⟩

/-! ### Consistent drafts -/

/-- The scopes of a draft and its listing agree. -/
structure Consistent (d : Draft) : Prop where
  /-- Every scope gives each of its names the index of its define. -/
  indexes : ∀ scope, Indexes (d.scopes.indexIn scope) fun i => d.file.listing.nameAt ⟨scope, i⟩
  /-- The programs are numbered in order. -/
  programs : Indexes d.scopes.programs.find? fun i =>
    (d.file.listing.programs[i]?).map Program.name
  /-- Every program has a scope. -/
  locals_length : d.scopes.locals.length = d.file.listing.programs.length
  /-- No name is shared and local at once. -/
  apart : ∀ {p : Nat} {name : Symbol}, d.scopes.indexIn (some p) name ≠ none →
    d.scopes.indexIn none name = none
  /-- The last program is the current one. -/
  current : d.scopes.current =
    if d.file.listing.programs.length = 0 then none else some (d.file.listing.programs.length - 1)

/-- Where nothing has been read, scopes and listing agree. -/
theorem consistent_empty : Consistent {} where
  indexes scope s i := by cases scope <;> simp [Scopes.indexIn, Scope.find?, Listing.nameAt]
  programs s i := by simp [Scope.find?]
  locals_length := rfl
  apart h := by simp [Scopes.indexIn] at h
  current := rfl

namespace Consistent

variable {d d' : Draft}

/-- The current program is there. -/
theorem hasProgram (h : d.Consistent) : d.file.listing.HasProgram d.scopes.current := by
  intro p hp
  rw [h.current] at hp
  split at hp
  · cases hp
  · cases hp
    omega

/-- The current program has a scope. -/
theorem hasCurrent (h : d.Consistent) : d.scopes.HasCurrent := by
  intro p hp
  rw [h.locals_length]
  exact h.hasProgram p hp

/-- Without a current program there are no local names. -/
theorem indexIn_eq_none (h : d.Consistent) (hc : d.scopes.current = none) (p : Nat)
    (name : Symbol) :
    d.scopes.indexIn (some p) name = none := by
  have hcurrent := h.current
  rw [hc] at hcurrent
  split at hcurrent
  · rename_i hzero
    have hnone : d.scopes.locals[p]? = none :=
      List.getElem?_eq_none (by rw [h.locals_length]; omega)
    rw [Scopes.indexIn, hnone]
    rfl
  · cases hcurrent

/-- A name is visible from a program exactly if a define of that name can be seen from there, and
that define is the one that is found. -/
theorem lookupIn_eq_some_iff (h : d.Consistent) {scope : Option Nat} {name : Symbol}
    {place : Place} :
    d.scopes.lookupIn scope name = some place ↔
      d.file.listing.nameAt place = some name ∧ place.SeenFrom scope := by
  obtain ⟨program, i⟩ := place
  rw [← h.indexes program name i]
  cases hshared : d.scopes.indexIn none name with
  | some j =>
    rw [Scopes.lookupIn_of_shared hshared, Option.some.injEq, Place.mk.injEq]
    constructor
    · rintro ⟨rfl, rfl⟩
      exact ⟨hshared, .inl rfl⟩
    · rintro ⟨hindex, -⟩
      cases program with
      | none => exact ⟨rfl, Option.some.inj (hshared.symm.trans hindex)⟩
      | some p =>
        -- the name would be local as well as shared
        have hnone : d.scopes.indexIn none name = none := h.apart (p := p) (by simp [hindex])
        rw [hshared] at hnone
        cases hnone
  | none =>
    rw [Scopes.lookupIn_of_not_shared hshared, Option.map_eq_some_iff]
    constructor
    · rintro ⟨j, hj, he⟩
      cases he
      exact ⟨hj, .inr rfl⟩
    · rintro ⟨hindex, hseen⟩
      rcases hseen with hnone | hscope
      · cases hnone
        rw [hshared] at hindex
        cases hindex
      · cases hscope
        exact ⟨i, hindex, rfl⟩

/-- A name that is not visible stands nowhere where it could be seen. -/
theorem indexIn_eq_none_of_lookup (h : d.Consistent) {name : Symbol}
    (hnew : d.scopes.lookup name = none) {scope : Option Nat}
    (hscope : scope = none ∨ scope = d.scopes.current) : d.scopes.indexIn scope name = none := by
  rw [Option.eq_none_iff_forall_ne_some]
  intro i hi
  have hfound := h.lookupIn_eq_some_iff.2 ⟨(h.indexes scope name i).1 hi, hscope⟩
  rw [← Scopes.lookup_eq_lookupIn, hnew] at hfound
  cases hfound

/-- What can be seen from the program of a visible define is visible as well: the define is shared
or belongs to the current program. -/
theorem lookup_of_lookupIn (h : d.Consistent) {name other : Symbol} {place q : Place}
    (hlookup : d.scopes.lookup name = some place)
    (hq : d.scopes.lookupIn place.program other = some q) : d.scopes.lookup other = some q := by
  obtain ⟨hname, hseen⟩ := h.lookupIn_eq_some_iff.1 hq
  obtain ⟨-, hplace⟩ := h.lookupIn_eq_some_iff.1 hlookup
  refine h.lookupIn_eq_some_iff.2 ⟨hname, ?_⟩
  rcases hseen with hshared | hlocal
  · exact .inl hshared
  · rcases hplace with hshared | hcurrent
    · exact .inl (hlocal.trans hshared)
    · exact .inr (hlocal.trans hcurrent)

/-- A visible name has a define, which bears that name. -/
theorem exists_at? (h : d.Consistent) {name : Symbol} {place : Place}
    (hlookup : d.scopes.lookup name = some place) :
    ∃ define, d.file.listing.at? place = some define ∧ define.name = name :=
  Option.map_eq_some_iff.1 (h.lookupIn_eq_some_iff.1 hlookup).1

/-! ### Every change of a draft keeps it consistent -/

/-- Entering a name concerns neither scopes nor listing. -/
theorem intern (h : d.Consistent) (name : Text) : (d.intern name).2.Consistent where
  indexes := h.indexes
  programs := h.programs
  locals_length := h.locals_length
  apart := h.apart
  current := h.current

/-- A change of defines leaves the programs in order. -/
theorem programs_modifyDefines (h : d.Consistent) (f : List (Define Symbol) → List (Define Symbol))
    (scope : Option Nat) :
    (d.file.listing.modifyDefines f scope).programs.length = d.file.listing.programs.length ∧
      Indexes d.scopes.programs.find? fun i =>
        ((d.file.listing.modifyDefines f scope).programs[i]?).map Program.name := by
  have hprograms := d.file.listing.map_name_modifyDefines f scope
  refine ⟨by simpa using congrArg List.length hprograms, fun s i => ?_⟩
  have hi := congrArg (·[i]?) hprograms
  simp only [List.getElem?_map] at hi ⊢
  rw [hi]
  exact h.programs s i

/-- A stored value changes no name. -/
theorem setValue (h : d.Consistent) (v : Int32) (place : Place) :
    (d.setValue v place).Consistent := by
  obtain ⟨hlength, hprograms⟩ := h.programs_modifyDefines
    (·.modify place.index fun define => { define with value := some v }) place.program
  exact {
    indexes := fun scope => by simpa [Draft.setValue] using h.indexes scope
    programs := hprograms
    locals_length := h.locals_length.trans hlength.symm
    apart := h.apart
    current := h.current.trans (by rw [Draft.setValue, Listing.setValue, hlength]) }

/-- Storing any number of meanings changes no name. -/
theorem of_caches {meanings : Place → Except Cause Int32} (h : d.Consistent)
    (hc : Caches meanings d d') : d'.Consistent := by
  induction hc with
  | refl => exact h
  | store _ _ _ ih => exact ih.setValue _ _

/-- A program that is opened gets a scope of its own, without names, and becomes the current one. -/
theorem openProgram (h : d.Consistent) {name : Symbol} (ho : d.openProgram name = some d') :
    d'.Consistent := by
  obtain ⟨scopes, hscopes, rfl⟩ := openProgram_eq_some ho
  have hindex := Scopes.indexIn_openProgram hscopes
  obtain ⟨hnew, rfl⟩ := Scopes.openProgram_eq_some hscopes
  have hnext : d.file.listing.programs[d.scopes.locals.length]? = none := by
    rw [h.locals_length]
    exact List.getElem?_eq_none (Nat.le_refl _)
  exact {
    indexes := by
      intro scope s i
      simp only [hindex, Listing.nameAt, Listing.at?_addProgram]
      exact h.indexes scope s i
    programs := by
      refine h.programs.insert hnew (by simp [hnext]) (Scopes.find?_cons _ _ · _) fun i => ?_
      simp only [Listing.addProgram, List.getElem?_append, List.getElem?_singleton,
        h.locals_length]
      by_cases hlt : i < d.file.listing.programs.length
      · simp [hlt, Nat.ne_of_lt hlt]
      · by_cases he : i = d.file.listing.programs.length
        · simp [he]
        · have hsub : ¬ i - d.file.listing.programs.length = 0 := by omega
          simp [hlt, he, hsub]
    locals_length := by simp [Listing.addProgram, h.locals_length]
    apart := by
      intro p other hlocal
      rw [hindex] at hlocal ⊢
      exact h.apart hlocal
    current := by simp [Listing.addProgram, h.locals_length] }

/-- An added define is declared in the scope where it is put. -/
theorem addDefine (h : d.Consistent) {define : Define Symbol}
    (ha : d.addDefine define = some d') : d'.Consistent := by
  obtain ⟨scopes, hscopes, rfl⟩ := addDefine_eq_some ha
  have hindex := Scopes.indexIn_declare h.hasCurrent hscopes
  obtain ⟨hprograms, hlocals, hcurrent⟩ := Scopes.declare_frame hscopes
  obtain ⟨hlength, hnames⟩ := h.programs_modifyDefines (· ++ [define]) d.scopes.current
  have hnew : ∀ {scope}, scope = none ∨ scope = d.scopes.current →
      d.scopes.indexIn scope define.name = none := fun hscope =>
    h.indexIn_eq_none_of_lookup (Scopes.declare_eq_some hscopes).1 hscope
  have hnameAt : ∀ place, (d.file.listing.addDefine d.scopes.current define).nameAt place =
      if place = d.file.listing.nextPlace d.scopes.current then some define.name
      else d.file.listing.nameAt place := by
    intro place
    simp only [Listing.nameAt, Listing.at?_addDefine h.hasProgram]
    split <;> rfl
  exact {
    indexes := by
      intro scope
      by_cases hscope : scope = d.scopes.current
      · subst hscope
        have hstep : ∀ s, scopes.indexIn d.scopes.current s =
            if s = define.name then some (d.file.listing.definesIn d.scopes.current).length
            else d.scopes.indexIn d.scopes.current s := fun s => by simp [hindex]
        refine (h.indexes _).insert (hnew (.inr rfl)) ?_ hstep fun i => ?_
        · exact congrArg (Option.map Define.name) (Listing.at?_nextPlace _ _)
        · rw [hnameAt]
          simp [Listing.nextPlace]
      · intro s i
        have hs : ¬ (scope = d.scopes.current ∧ s = define.name) := fun hs => hscope hs.1
        have hplace : ¬ (⟨scope, i⟩ : Place) = d.file.listing.nextPlace d.scopes.current :=
          fun hplace => hscope (congrArg Place.program hplace)
        simp only [hindex, hnameAt, if_neg hs, if_neg hplace]
        exact h.indexes scope s i
    programs := by
      rw [hprograms]
      exact hnames
    locals_length := hlocals.trans (h.locals_length.trans hlength.symm)
    apart := by
      intro p other hlocal
      rw [hindex] at hlocal ⊢
      cases hc : d.scopes.current with
      | none =>
        rw [if_neg (by simp [hc])] at hlocal
        exact absurd (h.indexIn_eq_none hc p other) hlocal
      | some q =>
        rw [if_neg (by simp)]
        by_cases hother : other = define.name
        · rw [hother]
          exact hnew (.inl rfl)
        · rw [if_neg fun hs => hother hs.2] at hlocal
          exact h.apart hlocal
    current := by
      show scopes.current = _
      rw [hcurrent, Listing.addDefine, hlength]
      exact h.current }

/-- An added define is seen at the next place of the current scope and nowhere else. -/
theorem at?_addDefine (h : d.Consistent) {define : Define Symbol}
    (ha : d.addDefine define = some d') (place : Place) :
    d'.file.listing.at? place =
      if place = d.file.listing.nextPlace d.scopes.current then some define
      else d.file.listing.at? place := by
  obtain ⟨scopes, -, rfl⟩ := addDefine_eq_some ha
  exact Listing.at?_addDefine h.hasProgram define place

end Consistent

end Draft

end PioFrontEnd
