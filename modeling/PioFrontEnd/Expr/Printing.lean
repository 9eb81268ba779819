import PioFrontEnd.Expr.Basic
import PioFrontEnd.Text.Decimal

/-!
# Expressions in canonical form

The canonical form of an expression has a single space on both sides of every operator, and
parentheses exactly where a binary expression is flagged for them. Names are printed as they are.
-/

namespace PioFrontEnd.Expr

/-- The canonical form of an expression. -/
def print : Expr Text → Text
  | literal v => Text.Decimal.write v
  | name n => n
  | binary op l r parenthesized =>
    let body := l.print ++ [' ', op.mark.char, ' '] ++ r.print
    if parenthesized then '(' :: (body ++ [')']) else body

end PioFrontEnd.Expr
