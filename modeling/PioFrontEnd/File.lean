import PioFrontEnd.Listing.Printing
import PioFrontEnd.NameTable

/-!
# Files

A file is a listing over symbols together with the table that the symbols belong to. Seen from
outside it is the listing of the names themselves, `File.named`, which is also what is printed.
Names are looked up through the table; a look-up never enters a name.
-/

namespace PioFrontEnd

/-- The outcome of a compilation, or its state part of the way. -/
structure File where
  /-- All names that have been entered. -/
  names : NameTable := {}
  /-- What is defined. -/
  listing : Listing Symbol := {}
  deriving DecidableEq, Repr

namespace File

/-- The listing with names in place of symbols. -/
def named (f : File) : Listing Text := f.listing.map f.names.resolve

/-- The canonical source of a file. -/
def source (f : File) : Text := f.named.print

/-- The shared define with this name. -/
def shared? (f : File) (name : Text) : Option (Define Symbol) := do
  f.listing.shared? (← f.names.symbol? name)

/-- The program with this name. -/
def program? (f : File) (name : Text) : Option (Program Symbol) := do
  f.listing.program? (← f.names.symbol? name)

/-- The define with this name among those of one program. -/
def local? (f : File) (p : Program Symbol) (name : Text) : Option (Define Symbol) := do
  p.define? (← f.names.symbol? name)

end File

end PioFrontEnd
