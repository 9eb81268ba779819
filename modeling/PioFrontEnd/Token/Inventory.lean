import PioFrontEnd.Token.Stream

/-!
# The inventory of a source

For inspection, the tokens of a source are listed one on a line, each with the name of its kind,
its span, and its text in quotes. A fault is listed with its cause and its offset.
-/

namespace PioFrontEnd

/-- The name of a directive in an inventory. -/
def Directive.title : Directive → String
  | define => "Define"
  | program => "Program"
  | origin => "Origin"
  | sideSet => "SideSet"
  | wrapTarget => "WrapTarget"
  | wrap => "Wrap"
  | langOpt => "LangOpt"
  | word => "Word"

/-- The name of an instruction in an inventory. -/
def Instruction.title : Instruction → String
  | jmp => "Jmp"
  | wait => "Wait"
  | input => "In"
  | output => "Out"
  | push => "Push"
  | pull => "Pull"
  | mov => "Mov"
  | irq => "Irq"
  | set => "Set"
  | nop => "Nop"

/-- The name of a qualifier in an inventory. -/
def Qualifier.title : Qualifier → String
  | exported => "Public"
  | optional => "Optional"
  | side => "Side"
  | pin => "Pin"
  | gpio => "Gpio"
  | osre => "Osre"

/-- The name of a mark in an inventory. -/
def Mark.title : Mark → String
  | comma => "Comma"
  | openBracket => "OpenBracket"
  | closeBracket => "CloseBracket"
  | openParen => "OpenParen"
  | closeParen => "CloseParen"
  | plus => "Plus"
  | minus => "Minus"
  | star => "Star"
  | slash => "Slash"
  | ampersand => "Ampersand"
  | pipe => "Pipe"
  | caret => "Caret"
  | bang => "Bang"
  | equal => "Equal"

/-- The name of a kind of tokens in an inventory. -/
def TokenKind.title : TokenKind → String
  | endOfFile => "Eof"
  | endOfLine => "Eol"
  | number => "Number"
  | symbol => "Symbol"
  | label => "Label"
  | directive d => "Directive(" ++ d.title ++ ")"
  | instruction i => "Instruction(" ++ i.title ++ ")"
  | qualifier q => "Qualifier(" ++ q.title ++ ")"
  | mark m => m.title

/-- A token on one line. -/
def Token.entry (t : Token) : String :=
  t.kind.title ++ " " ++ t.span.print ++ " " ++ String.ofList (Text.quoted t.text)

/-- What a cause is about, in parentheses after its name. -/
def Cause.entry (c : Cause) : String :=
  match c with
  | .unexpectedCharacter ch => c.title ++ "(" ++ String.ofList (Text.quotedChar ch) ++ ")"
  | .unknownIdentifier name | .duplicateDefine name | .duplicateProgram name =>
    c.title ++ "(" ++ String.ofList (Text.quoted name) ++ ")"
  | _ => c.title

/-- A fault on one line. -/
def Fault.entry (f : Fault) : String :=
  "Error \x7b kind: " ++ f.cause.entry ++ ", at: " ++ f.offset.repr ++ " \x7d"

/-- The lines of the inventory of a source. -/
def inventory (source : Text) : List String :=
  (tokenize source).map fun
    | .ok token => token.entry
    | .error fault => fault.entry

end PioFrontEnd
