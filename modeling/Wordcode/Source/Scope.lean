import Wordcode.Event
import Wordcode.Source.Statement
import Wordcode.Text.Numeral

/-!
# Scopes

A *scope* holds the names that assembly text defines: labels, values and macros. It is
collected before any operation is read, so a name may be used before the line that
defines it. Only the value of a value macro looks back, at the values already defined.

* `Scope.value`, `Scope.operand`: what a token stands for;
* `Discovery.add`: how one line extends the scope;
* `Discovery.ofLines`: the scope of a whole text, and the lines outside of macros.
-/

namespace Wordcode

/-- The names that are defined. -/
structure Scope where
  labels : LabelTable := {}
  values : List (String × Nat) := []
  /-- The lines between the beginning and the end of each macro. -/
  macros : List (String × List SourceLine) := []
  deriving DecidableEq, Repr

namespace Scope

/-- The value of a token: a numeral or the name of a value. A token that begins with a
    digit is never a name. -/
def value (scope : Scope) (token : String) : Except LineError Nat :=
  match Text.literal? token.toList with
  | some value => .ok value
  | none =>
    if Text.startsWithDigit token.toList then .error (.malformedLiteral token)
    else
      match scope.values.lookup token with
      | some value => .ok value
      | none => .error (.unknownOperand token)

/-- The register a token names: a sign and the decimal digits of its index. -/
def register? : List Char → Option Nat
  | c :: cs => if c = 'R' ∨ c = 'r' ∨ c = '$' then Text.numeral? 10 cs else none
  | [] => none

/-- What a token stands for as an operand. -/
def operand (scope : Scope) (token : String) : Except LineError Operand :=
  match token.toList with
  | '.' :: name =>
    match scope.labels.lookup (String.ofList name) with
    | some label => .ok (.label label)
    | none => .error (.undefinedLabel (String.ofList name))
  | cs =>
    match register? cs with
    | some index => .ok (.register index)
    | none => (scope.value token).map .immediate

/-- The instruction of an operation in assembly text. -/
def instruction (scope : Scope) (mnemonic : String) (tokens : List String) :
    Except LineError Instruction := do
  match Opcode.ofMnemonic? mnemonic with
  | none => throw (.unknownMnemonic mnemonic)
  | some op =>
    let operands ← tokens.mapM scope.operand
    match Instruction.build (.code op) operands with
    | .ok i => return i
    | .error error => throw (.operand error)

end Scope

/-- A macro that has begun: its name, the line that began it and its lines so far. -/
structure OpenMacro where
  name : String
  line : SourceLine
  body : List SourceLine := []
  deriving DecidableEq, Repr

/-- How far the scope of a text is collected. -/
structure Discovery where
  scope : Scope := {}
  /-- The macro in whose body the next line lies. -/
  pending : Option OpenMacro := none
  /-- The lines that belong to no macro, so far. -/
  outside : List SourceLine := []
  deriving DecidableEq, Repr

namespace Discovery

/-- Begins a macro. -/
def begin (d : Discovery) (line : SourceLine) (name : String) : Except LineError Discovery :=
  if d.pending.isSome then .error (.nestedMacro name)
  else if (d.scope.macros.lookup name).isSome then .error (.duplicateMacro name)
  else .ok { d with pending := some { name, line } }

/-- Ends a macro. -/
def finish (d : Discovery) : Except LineError Discovery :=
  match d.pending with
  | none => .error .unmatchedMacroEnd
  | some m =>
    .ok { d with
      pending := none
      scope := { d.scope with macros := (m.name, m.body) :: d.scope.macros } }

/-- Defines a label. -/
def defineLabel (d : Discovery) (line : SourceLine) (name : String) : Except LineError Discovery :=
  if d.pending.isSome then .error (.labelInMacro name)
  else
    match d.scope.labels.create name with
    | .error _ => .error (.duplicateLabel name)
    | .ok (_, labels) =>
      .ok { d with scope := { d.scope with labels }, outside := d.outside ++ [line] }

/-- Defines a value. -/
def defineValue (d : Discovery) (name token : String) : Except LineError Discovery := do
  if d.pending.isSome then throw (.nestedMacro name)
  let value ← d.scope.value token
  if (d.scope.values.lookup name).isSome then throw (.duplicateMacro name)
  return { d with scope := { d.scope with values := (name, value) :: d.scope.values } }

/-- A line that defines nothing: it belongs to the macro that has begun, or to none. -/
def keep (d : Discovery) (line : SourceLine) : Discovery :=
  match d.pending with
  | some m => { d with pending := some { m with body := m.body ++ [line] } }
  | none => { d with outside := d.outside ++ [line] }

/-- Takes in one more line. -/
def add (d : Discovery) (line : SourceLine) : Except SourceError Discovery :=
  line.blame <|
    match line.statement with
    | .macroBegin name => d.begin line name
    | .macroEnd => d.finish
    | .label name => d.defineLabel line name
    | .valueMacro name token => d.defineValue name token
    | .macroUse name => if d.pending.isSome then .error (.nestedMacro name) else .ok (d.keep line)
    | _ => .ok (d.keep line)

/-- The scope of a text. Every macro that begins must end. -/
def ofLines (lines : List SourceLine) : Except SourceError Discovery := do
  let d ← lines.foldlM add {}
  match d.pending with
  | some m => throw (m.line.error (.unterminatedMacro m.name))
  | none => return d

/-- What is reported of a scope. -/
def event (d : Discovery) : Event :=
  ⟨.debug, "discovery pass complete",
    [("labels", d.scope.labels.size.repr), ("value_macros", d.scope.values.length.repr),
      ("code_macros", d.scope.macros.length.repr)]⟩

end Discovery
end Wordcode
