import Wordcode.Source.Error
import Wordcode.Text.Blank

/-!
# Statements

A line of assembly text holds at most one *statement*; what follows `//` is a comment.
Its tokens are separated by blanks and commas. The first character tells a label
definition (`.name`) and a directive (`@...`) from an operation. Three directives have
a meaning here; every other one is a pragma, which is kept as it is.

    .name                  defines a label
    @macro name value      gives a value a name
    @macro begin name      begins the body of a macro
    @macro end             ends it
    @macro name            stands for the body of a macro
    @minram words          asks for RAM
    @minreg index          asks for registers
    @text                  any other pragma
    OP a, b, c             an operation with its operands
-/

namespace Wordcode

/-- What a line of assembly text says. -/
inductive Statement where
  | label (name : String)
  | valueMacro (name value : String)
  | macroBegin (name : String)
  | macroEnd
  | macroUse (name : String)
  | minRam (words : String)
  | minReg (index : String)
  | pragma (text : String)
  | operation (mnemonic : String) (operands : List String)
  deriving DecidableEq, Repr

namespace Statement

/-- A text up to the first comment. -/
def uncommented : List Char → List Char
  | '/' :: '/' :: _ => []
  | c :: cs => c :: uncommented cs
  | [] => []

/-- Whether a character separates tokens. -/
def separates (c : Char) : Bool := Text.isBlank c || c == ','

/-- The tokens of a text. -/
def tokens (text : List Char) : List String := (Text.words separates text).map String.ofList

/-- A token without its first character, the sign of what it is. -/
def unsigned (token : String) : String := String.ofList (token.toList.drop 1)

/-- The definition of a label: one token, of more than the dot. -/
def ofLabel (token : String) (rest : List String) : Except LineError Statement :=
  let name := unsigned token
  if name.isEmpty then .error (.unknownOperand token)
  else
    match rest with
    | [] => .ok (.label name)
    | extra :: _ => .error (.unexpectedToken extra)

/-- A directive about macros. The words `begin` and `end` are written in small letters. -/
def ofMacro (keyword : String) : List String → Except LineError Statement
  | [word] =>
    if word = "end" then .ok .macroEnd
    else if word = "begin" then .error (.malformedDirective keyword)
    else .ok (.macroUse word)
  | [word, argument] =>
    if word = "begin" then .ok (.macroBegin argument) else .ok (.valueMacro word argument)
  | _ => .error (.malformedDirective keyword)

/-- A directive with one argument. -/
def ofArgument (keyword : String) (make : String → Statement) :
    List String → Except LineError Statement
  | [argument] => .ok (make argument)
  | _ => .error (.malformedDirective keyword)

/-- A directive, where capitals do not matter in the keyword. If the keyword is none of
    the known ones, all text after the sign is a pragma. -/
def ofDirective (keyword : String) (arguments : List String) (text : List Char) :
    Except LineError Statement :=
  let known := keyword.map Char.toLower
  if known = "macro" then ofMacro keyword arguments
  else if known = "minram" then ofArgument keyword .minRam arguments
  else if known = "minreg" then ofArgument keyword .minReg arguments
  else .ok (.pragma (String.ofList (Text.trim text)))

/-- The statement on a line, if it is not blank. -/
def ofLine? (raw : List Char) : Except LineError (Option Statement) :=
  let text := Text.trim (uncommented raw)
  match tokens text with
  | [] => .ok none
  | first :: rest =>
    match text with
    | '.' :: _ => (ofLabel first rest).map some
    | '@' :: argument => (ofDirective (unsigned first) rest argument).map some
    | _ => .ok (some (.operation first rest))

end Statement

/-- A line of assembly text that is not blank. -/
structure SourceLine where
  /-- The number of the line, the first of which is 1. -/
  number : Nat
  /-- The line without blanks around it. -/
  text : String
  statement : Statement
  deriving DecidableEq, Repr

namespace SourceLine

/-- An error on this line. -/
def error (line : SourceLine) (cause : LineError) : SourceError := ⟨line.number, line.text, cause⟩

/-- Attributes a cause to this line. -/
def blame {α : Type} (line : SourceLine) : Except LineError α → Except SourceError α
  | .ok a => .ok a
  | .error cause => .error (line.error cause)

/-- The lines of a text that are not blank. The first line has the given number. -/
def readFrom (number : Nat) : List String → Except SourceError (List SourceLine)
  | [] => .ok []
  | raw :: rest => do
    let text := String.ofList (Text.trim raw.toList)
    match Statement.ofLine? raw.toList with
    | .error cause => throw ⟨number, text, cause⟩
    | .ok none => readFrom (number + 1) rest
    | .ok (some statement) => return ⟨number, text, statement⟩ :: (← readFrom (number + 1) rest)

/-- The lines of a text that are not blank. -/
def read (lines : List String) : Except SourceError (List SourceLine) := readFrom 1 lines

end SourceLine
end Wordcode
