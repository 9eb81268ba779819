import PioFrontEnd.Expr.Printing
import PioFrontEnd.Listing.Basic

/-!
# Listings in canonical form

The canonical form of a listing is a source again. It has a line for every define and every
program, in order, with single spaces and no other layout. A define whose expression is more than
a literal or a name is followed by its value, in a comment. Qualifiers are not printed.
-/

namespace PioFrontEnd

/-- The comment that shows the value of a define, where there is something to show. -/
def Define.annotation (d : Define Text) : Text :=
  match d.expr.isBinary, d.value with
  | true, some v => " ; = ".toList ++ Text.Decimal.write v
  | _, _ => []

/-- The canonical form of a define, without a line break. -/
def Define.print (d : Define Text) : Text :=
  ".define ".toList ++ d.name ++ [' '] ++ d.expr.print ++ d.annotation

/-- The canonical form of several defines, one on a line. -/
def Define.printAll (ds : List (Define Text)) : Text := ds.flatMap fun d => d.print ++ ['\n']

/-- The canonical form of a program. -/
def Program.print (p : Program Text) : Text :=
  ".program ".toList ++ p.name ++ ['\n'] ++ Define.printAll p.defines

/-- The canonical form of a listing. -/
def Listing.print (l : Listing Text) : Text :=
  Define.printAll l.defines ++ l.programs.flatMap Program.print

end PioFrontEnd
