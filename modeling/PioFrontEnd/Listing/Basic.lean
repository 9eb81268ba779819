import PioFrontEnd.Expr.Basic

/-!
# Listings

What a source defines is a listing: the defines that stand before the first program, which every
program sees, and the programs, each with the defines of its own. As in expressions, the type of
names is a parameter. A define is addressed by its `Place`.

* `definesIn_modifyDefines`: a change of the defines in one place is seen there and nowhere else.
-/

namespace PioFrontEnd

variable {ν μ : Type}

/-- A constant with a name. -/
structure Define (ν : Type) where
  /-- Its name. -/
  name : ν
  /-- Whether it is qualified as `PUBLIC`. The canonical form does not show this. -/
  exported : Bool := false
  /-- The expression that gives its value. -/
  expr : Expr ν
  /-- Its value, once that is known. -/
  value : Option Int32
  deriving DecidableEq, Repr

/-- A program. No instructions are encoded yet, so the last two fields keep their defaults. -/
structure Program (ν : Type) where
  /-- Its name. -/
  name : ν
  /-- Its own defines, in order. -/
  defines : List (Define ν) := []
  /-- The bits reserved for the side-set. -/
  sideSet : UInt8 := 0
  /-- The encoded instructions. -/
  instructions : List UInt16 := []
  deriving DecidableEq, Repr

/-- The defines and programs of a source. -/
structure Listing (ν : Type) where
  /-- The defines that every program sees, in order. -/
  defines : List (Define ν) := []
  /-- The programs, in order. -/
  programs : List (Program ν) := []
  deriving DecidableEq, Repr

/-- Where a define stands in a listing. -/
structure Place where
  /-- The program that it belongs to; none if it is shared. -/
  program : Option Nat
  /-- Its number there. -/
  index : Nat
  deriving DecidableEq, Repr

/-- Whether the value of a define is known. -/
def Define.isEvaluated (d : Define ν) : Bool := d.value.isSome

/-- The define with other names. -/
def Define.map (f : ν → μ) (d : Define ν) : Define μ :=
  { name := f d.name, exported := d.exported, expr := d.expr.map f, value := d.value }

/-- The program with other names. -/
def Program.map (f : ν → μ) (p : Program ν) : Program μ :=
  { name := f p.name, defines := p.defines.map (·.map f), sideSet := p.sideSet
    instructions := p.instructions }

/-- The first define of a program with this name. Shared defines are not searched. -/
def Program.define? [DecidableEq ν] (p : Program ν) (name : ν) : Option (Define ν) :=
  p.defines.find? (·.name = name)

namespace Listing

/-- The listing with other names. -/
def map (f : ν → μ) (l : Listing ν) : Listing μ :=
  { defines := l.defines.map (·.map f), programs := l.programs.map (·.map f) }

/-- The first shared define with this name. -/
def shared? [DecidableEq ν] (l : Listing ν) (name : ν) : Option (Define ν) :=
  l.defines.find? (·.name = name)

/-- The first program with this name. -/
def program? [DecidableEq ν] (l : Listing ν) (name : ν) : Option (Program ν) :=
  l.programs.find? (·.name = name)

/-- The defines of one program, or the shared ones. -/
def definesIn (l : Listing ν) : Option Nat → List (Define ν)
  | none => l.defines
  | some p => (l.programs[p]?.map Program.defines).getD []

/-- Changes the defines of one program, or the shared ones. -/
def modifyDefines (f : List (Define ν) → List (Define ν)) (l : Listing ν) :
    Option Nat → Listing ν
  | none => { l with defines := f l.defines }
  | some p => { l with programs := l.programs.modify p fun q => { q with defines := f q.defines } }

/-- The define at a place. -/
def at? (l : Listing ν) (place : Place) : Option (Define ν) :=
  (l.definesIn place.program)[place.index]?

/-- Gives a value to the define at a place. -/
def setValue (l : Listing ν) (value : Int32) (place : Place) : Listing ν :=
  l.modifyDefines (·.modify place.index fun d => { d with value := some value }) place.program

/-- Adds a define at the end of one program, or of the shared ones. -/
def addDefine (l : Listing ν) (scope : Option Nat) (d : Define ν) : Listing ν :=
  l.modifyDefines (· ++ [d]) scope

/-- Adds a program without defines. -/
def addProgram (l : Listing ν) (name : ν) : Listing ν :=
  { l with programs := l.programs ++ [{ name := name }] }

/-- All defines, shared or not. -/
def allDefines (l : Listing ν) : List (Define ν) :=
  l.defines ++ l.programs.flatMap Program.defines

/-- The number of defines whose value is not known. -/
def pending (l : Listing ν) : Nat := l.allDefines.countP (!·.isEvaluated)

/-- Whether a listing has the program of this number; the shared defines are always there. -/
def HasProgram (l : Listing ν) (scope : Option Nat) : Prop := ∀ p ∈ scope, p < l.programs.length

/-- A change of the defines in one place of a listing is seen there and nowhere else. -/
theorem definesIn_modifyDefines {l : Listing ν} {scope : Option Nat} (h : l.HasProgram scope)
    (f : List (Define ν) → List (Define ν)) (other : Option Nat) :
    (l.modifyDefines f scope).definesIn other =
      if other = scope then f (l.definesIn other) else l.definesIn other := by
  cases scope with
  | none => cases other <;> rfl
  | some p =>
    cases other with
    | none => rfl
    | some q =>
      have hp : p < l.programs.length := h p rfl
      by_cases hq : q = p
      · subst hq
        simp [modifyDefines, definesIn, hp]
      · have hq' : ¬ p = q := fun he => hq he.symm
        cases hget : l.programs[q]? <;>
          simp [modifyDefines, definesIn, hget, hq, hq']

/-- A define that is added stands last in its scope. -/
theorem definesIn_addDefine {l : Listing ν} {scope : Option Nat} (h : l.HasProgram scope)
    (d : Define ν) (other : Option Nat) :
    (l.addDefine scope d).definesIn other =
      if other = scope then l.definesIn other ++ [d] else l.definesIn other :=
  definesIn_modifyDefines h (· ++ [d]) other

end Listing

end PioFrontEnd
