import PioFrontEnd.Text.Basic

/-!
# Sets of code points

A property of characters that is laid down by a standard is given as a list of closed ranges of
code points. The tables of such properties start at U+0080: what holds of an ASCII character is
said by the predicate that uses the table, so that reading ASCII text never consults one.
-/

namespace PioFrontEnd.Text

/-- A set of code points, as closed ranges `(first, last)`. -/
abbrev CodePoints := List (Nat × Nat)

/-- Whether a character lies in one of the ranges. -/
def CodePoints.contains (ranges : CodePoints) (c : Char) : Bool :=
  ranges.any fun (first, last) => first ≤ c.toNat && c.toNat ≤ last

end PioFrontEnd.Text
