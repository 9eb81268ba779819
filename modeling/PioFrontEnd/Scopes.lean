import PioFrontEnd.Listing.Basic
import PioFrontEnd.NameTable

/-!
# Scopes

A name may be used below the line that defines it: anywhere if that line stands before the first
program, otherwise in the same program only. The scopes record where the define of each symbol
stands. A program may not define a name that is already visible in it, so no name ever hides
another, while separate programs may use one name for different things. The names of programs are
a matter apart from the names of defines.

* `lookup_declare`: a declaration makes one symbol visible and leaves the view of all others.
* `lookup_openProgram`: when a program is opened, what remains visible is what is shared.
-/

namespace PioFrontEnd

/-- Where the symbols of a scope are defined, as numbers in the order of definition. -/
abbrev Scope := List (Symbol × Nat)

/-- The number that a symbol has in a scope. -/
def Scope.find? (scope : Scope) (s : Symbol) : Option Nat := scope.lookup s

/-- The shared scope and the scope of every program. -/
structure Scopes where
  /-- The names that every program sees. -/
  shared : Scope := []
  /-- The names of the programs. -/
  programs : Scope := []
  /-- The names that each program defines, in the order of the programs. -/
  locals : List Scope := []
  /-- The program that defines are added to, if one has been opened. -/
  current : Option Nat := none
  deriving DecidableEq, Repr

namespace Scopes

/-- Where the define of a symbol stands that is visible now. -/
def lookup (s : Scopes) (name : Symbol) : Option Place :=
  match s.shared.find? name with
  | some i => some ⟨none, i⟩
  | none => do
    let p ← s.current
    let scope ← s.locals[p]?
    let i ← scope.find? name
    return ⟨some p, i⟩

/-- Whether a symbol is visible now. -/
def isVisible (s : Scopes) (name : Symbol) : Bool := (s.lookup name).isSome

/-- Makes a symbol visible in the current scope, unless it is visible already. -/
def declare (s : Scopes) (name : Symbol) (index : Nat) : Option Scopes :=
  if s.isVisible name then none
  else
    match s.current with
    | none => some { s with shared := (name, index) :: s.shared }
    | some p => some { s with locals := s.locals.modify p ((name, index) :: ·) }

/-- Opens the scope of a program, unless the name of it is taken. -/
def openProgram (s : Scopes) (name : Symbol) : Option Scopes :=
  match s.programs.find? name with
  | some _ => none
  | none =>
    some { s with
      programs := (name, s.locals.length) :: s.programs
      locals := s.locals ++ [[]]
      current := some s.locals.length }

/-- Whether the current program, if there is one, has a scope. -/
def HasCurrent (s : Scopes) : Prop := ∀ p ∈ s.current, p < s.locals.length

/-- An entry in front is found by its name, and hides older ones of that name alone. -/
theorem find?_cons (scope : Scope) (name other : Symbol) (index : Nat) :
    Scope.find? ((name, index) :: scope) other =
      if other = name then some index else scope.find? other := by
  by_cases h : other = name
  · simp [Scope.find?, h]
  · simp [Scope.find?, h, List.lookup_cons, beq_eq_false_iff_ne.2 h]

/-- A declaration makes one symbol visible and leaves the view of all others as it was. -/
theorem lookup_declare {s s' : Scopes} {name : Symbol} {index : Nat} (hcurrent : s.HasCurrent)
    (h : s.declare name index = some s') (other : Symbol) :
    s'.lookup other = if other = name then some ⟨s.current, index⟩ else s.lookup other := by
  unfold declare at h
  split at h
  · simp at h
  · rename_i hnew
    have hshared : s.shared.find? name = none := by
      cases hfind : s.shared.find? name with
      | none => rfl
      | some i => simp [isVisible, lookup, hfind] at hnew
    cases hc : s.current with
    | none =>
      rw [hc] at h
      cases h
      by_cases ho : other = name <;> simp [lookup, find?_cons, ho, hc]
    | some p =>
      rw [hc] at h
      cases h
      have hp : p < s.locals.length := hcurrent p hc
      by_cases ho : other = name
      · simp [lookup, hshared, hp, find?_cons, ho]
      · simp [lookup, hc, hp, find?_cons, ho]

/-- When a program is opened, what remains visible is what is shared. -/
theorem lookup_openProgram {s s' : Scopes} {name : Symbol} (h : s.openProgram name = some s')
    (other : Symbol) : s'.lookup other = (s.shared.find? other).map (⟨none, ·⟩) := by
  unfold openProgram at h
  split at h
  · simp at h
  · cases h
    have hempty : Scope.find? [] other = none := rfl
    cases hfind : s.shared.find? other <;> simp [lookup, hfind, hempty]

end Scopes

end PioFrontEnd
