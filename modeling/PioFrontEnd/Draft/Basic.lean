import PioFrontEnd.File
import PioFrontEnd.Scopes

/-!
# Drafts

A draft is a file in the making together with the scopes of its names. It changes in three ways: a
name is entered, a program is opened, or a define is added to the current program, or to the
shared defines when no program has been opened.
-/

namespace PioFrontEnd

/-- A file in the making. -/
structure Draft where
  /-- What has been read so far. -/
  file : File := {}
  /-- What can be seen. -/
  scopes : Scopes := {}
  deriving DecidableEq, Repr

namespace Draft

/-- Enters a name. -/
def intern (d : Draft) (name : Text) : Symbol × Draft :=
  let (s, names) := d.file.names.intern name
  (s, { d with file := { d.file with names := names } })

/-- The symbol of a name that is visible now. -/
def see (d : Draft) (name : Text) : Option Symbol :=
  (d.file.names.symbol? name).filter d.scopes.isVisible

/-- The define of a symbol that is visible now, and its place. -/
def find? (d : Draft) (name : Symbol) : Option (Place × Define Symbol) := do
  let place ← d.scopes.lookup name
  let define ← d.file.listing.at? place
  return (place, define)

/-- Opens a program, unless the name of it is taken. -/
def openProgram (d : Draft) (name : Symbol) : Option Draft := do
  let scopes ← d.scopes.openProgram name
  return { file := { d.file with listing := d.file.listing.addProgram name }, scopes := scopes }

/-- Adds a define in the current scope, unless its name is visible there. -/
def addDefine (d : Draft) (define : Define Symbol) : Option Draft := do
  let current := d.scopes.current
  let listing := d.file.listing
  let scopes ← d.scopes.declare define.name (listing.definesIn current).length
  return { file := { d.file with listing := listing.addDefine current define }, scopes := scopes }

/-- Gives a value to the define at a place. -/
def setValue (d : Draft) (value : Int32) (place : Place) : Draft :=
  { d with file := { d.file with listing := d.file.listing.setValue value place } }

end Draft

end PioFrontEnd
