import PioFrontEnd.Span

/-!
# Tokens

A source is read as a sequence of tokens. This file names their kinds. Several kinds are families:
the directives, which begin with a dot; the mnemonics of instructions and the qualifiers, which
are words set apart from symbols; and the marks, each of which is a single character.

* `Mark.ofChar?_eq_some`: a mark and its character determine each other.
-/

namespace PioFrontEnd

/-- The directives that the assembler knows. -/
inductive Directive where
  /-- Gives a name to a constant. -/
  | define
  /-- Begins a program. -/
  | program
  /-- Fixes where a program is loaded. -/
  | origin
  /-- Reserves bits of each instruction for the side-set. -/
  | sideSet
  /-- Marks where a wrapping program goes on. -/
  | wrapTarget
  /-- Marks where a program wraps. -/
  | wrap
  /-- Sets an option of the language that code is generated for. -/
  | langOpt
  /-- Stores a raw instruction. -/
  | word
  deriving DecidableEq, Repr

/-- The instructions of a state machine. -/
inductive Instruction where
  /-- Jumps, perhaps on a condition. -/
  | jmp
  /-- Waits for a condition. -/
  | wait
  /-- Shifts bits in. -/
  | input
  /-- Shifts bits out. -/
  | output
  /-- Pushes a word to the receive queue. -/
  | push
  /-- Pulls a word from the transmit queue. -/
  | pull
  /-- Moves a word. -/
  | mov
  /-- Sets or clears an interrupt flag. -/
  | irq
  /-- Writes an immediate value. -/
  | set
  /-- Does nothing. -/
  | nop
  deriving DecidableEq, Repr

/-- The words that qualify a definition or an instruction. -/
inductive Qualifier where
  /-- The name is also meant for the code that loads the program. -/
  | exported
  /-- The side-set may be left out. -/
  | optional
  /-- A side-set follows. -/
  | side
  /-- A pin counted from the configured base. -/
  | pin
  /-- A pin by its absolute number. -/
  | gpio
  /-- The output register is empty. -/
  | osre
  deriving DecidableEq, Repr

/-- The tokens that are a single character. -/
inductive Mark where
  /-- A comma. -/
  | comma
  /-- An opening square bracket. -/
  | openBracket
  /-- A closing square bracket. -/
  | closeBracket
  /-- An opening parenthesis. -/
  | openParen
  /-- A closing parenthesis. -/
  | closeParen
  /-- A plus sign. -/
  | plus
  /-- A minus sign. -/
  | minus
  /-- An asterisk. -/
  | star
  /-- A slash. -/
  | slash
  /-- An ampersand. -/
  | ampersand
  /-- A vertical bar. -/
  | pipe
  /-- A circumflex. -/
  | caret
  /-- An exclamation mark. -/
  | bang
  /-- An equals sign. -/
  | equal
  deriving DecidableEq, Repr

namespace Mark

/-- The character of a mark. -/
def char : Mark → Char
  | comma => ','
  | openBracket => '['
  | closeBracket => ']'
  | openParen => '('
  | closeParen => ')'
  | plus => '+'
  | minus => '-'
  | star => '*'
  | slash => '/'
  | ampersand => '&'
  | pipe => '|'
  | caret => '^'
  | bang => '!'
  | equal => '='

/-- The mark of a character, if it has one. -/
def ofChar? : Char → Option Mark
  | ',' => some comma
  | '[' => some openBracket
  | ']' => some closeBracket
  | '(' => some openParen
  | ')' => some closeParen
  | '+' => some plus
  | '-' => some minus
  | '*' => some star
  | '/' => some slash
  | '&' => some ampersand
  | '|' => some pipe
  | '^' => some caret
  | '!' => some bang
  | '=' => some equal
  | _ => none

/-- A mark and its character determine each other. -/
theorem ofChar?_eq_some {c : Char} {m : Mark} : ofChar? c = some m ↔ c = m.char := by
  constructor
  · intro h
    unfold ofChar? at h
    split at h <;> first | cases h; rfl | simp at h
  · rintro rfl
    cases m <;> rfl

end Mark

/-- The kinds of tokens. -/
inductive TokenKind where
  /-- The end of the source. -/
  | endOfFile
  /-- The end of a line that holds other tokens. -/
  | endOfLine
  /-- A run of digits. -/
  | number
  /-- A name. -/
  | symbol
  /-- A name directly followed by a colon, which belongs to the token. -/
  | label
  /-- A directive. -/
  | directive (d : Directive)
  /-- The mnemonic of an instruction. -/
  | instruction (i : Instruction)
  /-- A qualifier. -/
  | qualifier (q : Qualifier)
  /-- A mark. -/
  | mark (m : Mark)
  deriving DecidableEq, Repr

/-- A token: its kind, its place, and the piece of source that stands there. -/
structure Token where
  /-- What it is. -/
  kind : TokenKind
  /-- Where it stands. -/
  span : Span
  /-- How it is written. -/
  text : Text
  deriving DecidableEq, Repr

end PioFrontEnd
