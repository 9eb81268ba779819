import PioFrontEnd.Text.Letters
import PioFrontEnd.Text.Numerals
import PioFrontEnd.Token.Basic

/-!
# Words and the characters they are made of

Three things are made of letters. A *symbol* begins with a letter or an underscore and goes on
with letters, numerals, underscores and dots. A *keyword*, such as the mnemonic of an instruction,
is written in either case of the ASCII letters and must stand alone: what follows it is a blank, a
line break or the end. The name of a *directive* follows a dot and is written in lower case only.

Keywords take precedence over symbols. As they end where a blank stands, `in_pin` and `in,` begin
with no keyword, while `In` before a space is one.
-/

namespace PioFrontEnd

/-- The blanks: space, tab and carriage return. A line feed is no blank, since it ends a line. -/
def isBlank (c : Char) : Bool := c = ' ' || c = '\t' || c = '\r'

/-- Whether a keyword may end before this character. -/
def isWordEnd (c : Char) : Bool := isBlank c || c = '\n'

/-- The characters that a symbol may begin with. -/
def isSymbolStart (c : Char) : Bool := Text.isLetter c || c = '_'

/-- The characters that a symbol may go on with. -/
def isSymbolPart (c : Char) : Bool := isSymbolStart c || Text.isNumeral c || c = '.'

namespace Directive

/-- The name of a directive, as written after the dot. -/
def name : Directive → Text
  | define => "define".toList
  | program => "program".toList
  | origin => "origin".toList
  | sideSet => "side_set".toList
  | wrapTarget => "wrap_target".toList
  | wrap => "wrap".toList
  | langOpt => "lang_opt".toList
  | word => "word".toList

/-- All directives. -/
def all : List Directive :=
  [define, program, origin, sideSet, wrapTarget, wrap, langOpt, word]

/-- The directive of a name, if there is one. -/
def ofName? (t : Text) : Option Directive := all.find? (·.name = t)

/-- A directive and its name determine each other. -/
theorem ofName?_eq_some {t : Text} {d : Directive} : ofName? t = some d ↔ t = d.name := by
  constructor
  · intro h
    unfold ofName? at h
    have hd := List.find?_some h
    simpa [eq_comm] using hd
  · rintro rfl
    cases d <;> rfl

end Directive

namespace Keyword

/-- The keywords, in lower case. -/
def table : List (Text × TokenKind) :=
  [("jmp".toList, .instruction .jmp),
   ("wait".toList, .instruction .wait),
   ("in".toList, .instruction .input),
   ("out".toList, .instruction .output),
   ("push".toList, .instruction .push),
   ("pull".toList, .instruction .pull),
   ("mov".toList, .instruction .mov),
   ("irq".toList, .instruction .irq),
   ("set".toList, .instruction .set),
   ("nop".toList, .instruction .nop),
   ("public".toList, .qualifier .exported),
   ("optional".toList, .qualifier .optional),
   ("opt".toList, .qualifier .optional),
   ("side".toList, .qualifier .side),
   ("sideset".toList, .qualifier .side),
   ("side_set".toList, .qualifier .side),
   ("pin".toList, .qualifier .pin),
   ("gpio".toList, .qualifier .gpio),
   ("osre".toList, .qualifier .osre)]

/-- Whether a text begins with a word, in either case of the ASCII letters, and the word ends
there. -/
def standsAt (word s : Text) : Bool :=
  (s.take word.length).map Char.toLower = word && (s.drop word.length).head?.all isWordEnd

/-- The keyword that a text begins with, and its kind. -/
def leading? (s : Text) : Option (Text × TokenKind) :=
  table.find? fun entry => standsAt entry.1 s

end Keyword

end PioFrontEnd
