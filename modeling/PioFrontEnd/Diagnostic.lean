import PioFrontEnd.LineBreaks
import PioFrontEnd.Text.Quoted

/-!
# Causes, faults and diagnostics

Reading a source stops at the first thing wrong with it. What is wrong is a `Cause`; a cause
together with the offset where it was found is a `Fault`, and a fault whose offset has been turned
into a line and a column is a `Diagnostic`, the one that a failed compilation reports. The wording
of every message is in `Cause.message`.
-/

namespace PioFrontEnd

/-- What can be wrong with a source. -/
inductive Cause where
  /-- A number runs into a letter or an underscore. -/
  | malformedNumber
  /-- No token begins with this character. -/
  | unexpectedCharacter (c : Char)
  /-- A line begins with neither `.program` nor `.define`. -/
  | unexpectedItem
  /-- `.program` is not followed by a name. -/
  | programSyntax
  /-- `.define` is not followed by a name. -/
  | defineSyntax
  /-- An operand of an expression is missing. -/
  | expressionSyntax
  /-- A parenthesis is not closed where its expression ends. -/
  | unclosedParenthesis
  /-- A line goes on after its statement has ended. -/
  | trailingToken
  /-- A name is used that is not visible there. -/
  | unknownIdentifier (name : Text)
  /-- A name is defined that is already visible. -/
  | duplicateDefine (name : Text)
  /-- A program has the name of an earlier one. -/
  | duplicateProgram (name : Text)
  /-- The divisor of a quotient is zero. -/
  | divisionByZero
  deriving DecidableEq, Repr

/-- The kinds of trouble that causes fall into. -/
inductive CauseKind where
  /-- The source cannot be divided into tokens. -/
  | lexical
  /-- The tokens do not form a statement. -/
  | syntactic
  /-- A name has no meaning. -/
  | unknownIdentifier
  /-- A name would have two meanings. -/
  | duplicateDefinition
  /-- Two programs would have one name. -/
  | duplicateProgram
  /-- A value does not exist. -/
  | arithmetic
  deriving DecidableEq, Repr

/-- The name of a kind of cause. -/
def CauseKind.title : CauseKind → String
  | lexical => "Lexical"
  | syntactic => "Syntax"
  | unknownIdentifier => "UnknownIdentifier"
  | duplicateDefinition => "DuplicateDefinition"
  | duplicateProgram => "DuplicateProgram"
  | arithmetic => "Arithmetic"

namespace Cause

/-- The kind of trouble that a cause is. -/
def kind : Cause → CauseKind
  | malformedNumber | unexpectedCharacter _ => .lexical
  | unexpectedItem | programSyntax | defineSyntax | expressionSyntax | unclosedParenthesis
  | trailingToken => .syntactic
  | unknownIdentifier _ => .unknownIdentifier
  | duplicateDefine _ => .duplicateDefinition
  | duplicateProgram _ => .duplicateProgram
  | divisionByZero => .arithmetic

/-- The name of a cause, without what it is about. -/
def title : Cause → String
  | malformedNumber => "MalformedNumber"
  | unexpectedCharacter _ => "UnexpectedChar"
  | unexpectedItem => "UnexpectedItem"
  | programSyntax => "ProgramSyntax"
  | defineSyntax => "DefineSyntax"
  | expressionSyntax => "ExpressionSyntax"
  | unclosedParenthesis => "UnclosedParen"
  | trailingToken => "TrailingToken"
  | unknownIdentifier _ => "UnknownIdentifier"
  | duplicateDefine _ => "DuplicateDefine"
  | duplicateProgram _ => "DuplicateProgram"
  | divisionByZero => "DivisionByZero"

/-- The wording of a cause. -/
def message : Cause → String
  | malformedNumber => "malformed number literal"
  | unexpectedCharacter c => "unexpected character " ++ String.ofList (Text.quotedChar c)
  | unexpectedItem => "expected `.program` or `.define`"
  | programSyntax => "syntax error near `.program`"
  | defineSyntax => "syntax error near `.define`"
  | expressionSyntax => "syntax error in expression"
  | unclosedParenthesis => "expected `)`"
  | trailingToken => "unexpected token at end of line"
  | unknownIdentifier name => "unknown identifier `" ++ String.ofList name ++ "`"
  | duplicateDefine name => "symbol `" ++ String.ofList name ++ "` already defined"
  | duplicateProgram name => "program `" ++ String.ofList name ++ "` already exists"
  | divisionByZero => "division by zero"

end Cause

/-- A cause and the byte offset where it was found. -/
structure Fault where
  /-- What is wrong. -/
  cause : Cause
  /-- Where it was found. -/
  offset : Nat
  deriving DecidableEq, Repr

/-- A cause and the place where a reader finds it. -/
structure Diagnostic where
  /-- What is wrong. -/
  cause : Cause
  /-- Where it was found. -/
  position : Position
  deriving DecidableEq, Repr

/-- The diagnostic of a fault, given the line breaks of the source up to it. -/
def Fault.diagnose (fault : Fault) (breaks : LineBreaks) : Diagnostic :=
  ⟨fault.cause, breaks.position fault.offset⟩

/-- A diagnostic on one line: the message, then line and column. -/
def Diagnostic.display (d : Diagnostic) : String :=
  d.cause.message ++ ": " ++ d.position.line.repr ++ ":" ++ d.position.column.repr

end PioFrontEnd
