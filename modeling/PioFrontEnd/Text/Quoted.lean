import PioFrontEnd.Text.Extenders
import PioFrontEnd.Text.Graphic
import PioFrontEnd.Text.Ignorable

/-!
# Quoted texts

Diagnostics and token listings show source text in quotes, such that every character can be read
off the page: the characters with a short escape have it, the delimiter and the backslash are
preceded by a backslash, a character that would not be seen, or would be drawn on its neighbour,
is given by its code point in hexadecimal between braces, and all others stand for themselves.
-/

namespace PioFrontEnd.Text

/-- Whether a character can be seen and told apart when it stands alone: it has a visible form, is
not left out in display, and is not drawn on the character before it. -/
def showsAlone (c : Char) : Bool := isGraphic c && !isIgnorable c && !isExtender c

/-- A character as it is written between two copies of `delimiter`. -/
def escaped (delimiter c : Char) : Text :=
  if c = '\x00' then "\\0".toList
  else if c = '\t' then "\\t".toList
  else if c = '\n' then "\\n".toList
  else if c = '\r' then "\\r".toList
  else if c = delimiter ∨ c = '\\' then ['\\', c]
  else if showsAlone c then [c]
  else "\\u\x7b".toList ++ Nat.toDigits 16 c.toNat ++ "\x7d".toList

/-- A text between two copies of `delimiter`. -/
def delimited (delimiter : Char) (t : Text) : Text :=
  delimiter :: (t.flatMap (escaped delimiter) ++ [delimiter])

/-- A text in double quotes. -/
def quoted (t : Text) : Text := delimited '\x22' t

/-- A single character in single quotes. -/
def quotedChar (c : Char) : Text := delimited '\x27' [c]

end PioFrontEnd.Text
