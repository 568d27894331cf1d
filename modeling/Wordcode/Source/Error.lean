import Wordcode.Instruction
import Wordcode.Text.Line

/-!
# Errors in assembly text

An error is found on one line, and its message shows that line.
-/

namespace Wordcode

/-- What is wrong with a line. -/
inductive LineError where
  | unknownMnemonic (text : String)
  | operand (error : OperandError)
  | undefinedLabel (name : String)
  | undefinedMacro (name : String)
  | duplicateLabel (name : String)
  | duplicateMacro (name : String)
  | malformedLiteral (text : String)
  | unknownOperand (text : String)
  | nestedMacro (name : String)
  | unterminatedMacro (name : String)
  | unmatchedMacroEnd
  | labelInMacro (name : String)
  | malformedDirective (name : String)
  | unexpectedToken (text : String)
  deriving DecidableEq, Repr

/-- An error and the line it is on. -/
structure SourceError where
  /-- The number of the line, the first of which is 1. -/
  line : Nat
  /-- The line without blanks around it. -/
  text : String
  cause : LineError
  deriving DecidableEq, Repr

namespace LineError

/-- The text of an error, whichever line it is on. -/
def message : LineError → String
  | .unknownMnemonic text => "`" ++ text ++ "` is not an operation"
  | .operand error => error.message
  | .undefinedLabel name => "undefined label `." ++ name ++ "`"
  | .undefinedMacro name => "undefined macro `" ++ name ++ "`"
  | .duplicateLabel name => "label `." ++ name ++ "` is already defined"
  | .duplicateMacro name => "macro `" ++ name ++ "` is already defined"
  | .malformedLiteral text => "malformed numeric literal `" ++ text ++ "`"
  | .unknownOperand text => "cannot parse operand `" ++ text ++ "`"
  | .nestedMacro name => "macro `" ++ name ++ "` is defined or used inside another macro"
  | .unterminatedMacro name => "macro `" ++ name ++ "` is never closed by `@macro end`"
  | .unmatchedMacroEnd => "`@macro end` without a matching `@macro begin`"
  | .labelInMacro name => "label `." ++ name ++ "` cannot be defined inside a macro"
  | .malformedDirective name => "malformed `@" ++ name ++ "` directive"
  | .unexpectedToken text => "unexpected `" ++ text ++ "` after a label definition"

end LineError

namespace SourceError

/-- A number with blanks before it, up to the width of a line number. -/
def gutter (number : Nat) : String :=
  Text.repeated ' ' (4 - number.repr.length) ++ number.repr

/-- The text of an error, followed by the line it is on. -/
def message (error : SourceError) : String :=
  "line " ++ error.line.repr ++ ": " ++ error.cause.message ++ "\n  " ++ gutter error.line ++ " | "
    ++ error.text

end SourceError
end Wordcode
