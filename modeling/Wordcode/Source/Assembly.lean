import Wordcode.Config
import Wordcode.Program
import Wordcode.Source.Scope

/-!
# Assembly

Assembly text becomes a program in three passes over its lines. The first collects the
scope. The second reads every operation, also those of macros that are never used, and
finds what the program needs. The third writes the instruction stream: first the needs,
then the lines outside of macros in their order, with the body of a macro wherever it
is used.

* `Source.needs`: the second pass;
* `Source.stream`: the third pass;
* `Source.assemble`: all passes;
* `Source.events`: what is reported on the way.
-/

namespace Wordcode

/-- What a program needs of a machine. -/
structure Needs where
  /-- The highest index of a register. -/
  maxRegister : Nat := 0
  /-- The number of words of RAM. -/
  minRam : Nat := 0
  deriving DecidableEq, Repr

namespace Source

/-! ## The second pass -/

/-- The needs of a program with one more line. -/
def addNeeds (scope : Scope) (needs : Needs) (line : SourceLine) : Except SourceError Needs :=
  line.blame <|
    match line.statement with
    | .operation mnemonic tokens => do
      let i ← scope.instruction mnemonic tokens
      return { needs with maxRegister := max needs.maxRegister (i.highestRegister?.getD 0) }
    | .minReg token => do
      return { needs with maxRegister := max needs.maxRegister (← scope.value token) }
    | .minRam token => do
      return { needs with minRam := max needs.minRam (← scope.value token) }
    | _ => return needs

/-- The needs of a program. -/
def needs (scope : Scope) (lines : List SourceLine) : Except SourceError Needs :=
  lines.foldlM (addNeeds scope) {}

/-! ## The third pass -/

/-- The instructions of a line that uses no macro. -/
def plain (scope : Scope) (line : SourceLine) : Except SourceError (List Instruction) :=
  line.blame <|
    match line.statement with
    | .label name =>
      match scope.labels.lookup name with
      | some label => return [.note (.markLabel label)]
      | none => throw (.undefinedLabel name)
    | .pragma text => return [.note (.pragma text)]
    | .operation mnemonic tokens => do return [← scope.instruction mnemonic tokens]
    | _ => return []

/-- The instructions of a line. A macro is enclosed in notes that name it. -/
def emit (scope : Scope) (line : SourceLine) : Except SourceError (List Instruction) :=
  match line.statement with
  | .macroUse name =>
    match scope.macros.lookup name with
    | some body => do
      let instructions ← body.mapM (plain scope)
      return .note (.macroBegin name) :: instructions.flatten ++ [.note .macroEnd]
    | none => throw (line.error (.undefinedMacro name))
  | _ => plain scope line

/-- The instruction stream of a program, its needs first. -/
def stream (d : Discovery) (needs : Needs) : Except SourceError (List Instruction) := do
  let instructions ← d.outside.mapM (emit d.scope)
  return .note (.maxReg needs.maxRegister) :: .note (.minRam needs.minRam) :: instructions.flatten

/-! ## All passes -/

/-- The program of the lines of an assembly text. -/
def assemble (lines : List String) : Except SourceError Program := do
  let lines ← SourceLine.read lines
  let d ← Discovery.ofLines lines
  let needs ← needs d.scope lines
  return ⟨← stream d needs, d.scope.labels⟩

/-- The lines of an assembly text. -/
def lines (text : String) : List String := (Text.lines text.toList).map String.ofList

/-- The program of an assembly text. -/
def assembleText (text : String) : Except SourceError Program := assemble (lines text)

/-! ## Reports -/

/-- Whether a pass gets over a line. -/
def passes {α : Type} : Except SourceError α → Bool
  | .ok _ => true
  | .error _ => false

/-- The warning about an immediate that does not fit the word. -/
def wideImmediate (mask : Nat) (line : SourceLine) : Operand → List Event
  | .immediate value =>
    if mask < value then
      [⟨.warn, "immediate is wider than the word and will be masked",
        [("line", line.number.repr), ("value", value.repr)]⟩]
    else []
  | _ => []

/-- The warnings about the operands of a line, up to the first token that is none. -/
def operandWarnings (scope : Scope) (mask : Nat) (line : SourceLine) : List String → List Event
  | [] => []
  | token :: tokens =>
    match scope.operand token with
    | .ok operand => wideImmediate mask line operand ++ operandWarnings scope mask line tokens
    | .error _ => []

/-- The warnings about the operations, up to the first line that the second pass does
    not get over. -/
def lineWarnings (scope : Scope) (mask : Nat) : List SourceLine → List Event
  | [] => []
  | line :: rest =>
    let here := match line.statement with
      | .operation mnemonic tokens =>
        if (Opcode.ofMnemonic? mnemonic).isSome then operandWarnings scope mask line tokens else []
      | _ => []
    here ++ if passes (addNeeds scope {} line) then lineWarnings scope mask rest else []

/-- The warnings about needs that the configuration does not meet. -/
def needWarnings (config : Config) (needs : Needs) : List Event :=
  (if config.registers ≤ needs.maxRegister then
    [⟨.warn, "program uses more registers than configured",
      [("max_register", needs.maxRegister.repr), ("configured", config.registers.repr)]⟩]
  else []) ++
  (if config.ramWords < needs.minRam then
    [⟨.warn, "program requests more RAM than configured",
      [("min_ram", needs.minRam.repr), ("configured", config.ramWords.repr)]⟩]
  else [])

/-- The report of a finished program. -/
def assembledEvent (lines : List SourceLine) (d : Discovery) (needs : Needs)
    (instructions : List Instruction) : Event :=
  ⟨.debug, "assembled",
    [("lines", lines.length.repr), ("instructions", instructions.length.repr),
      ("labels", d.scope.labels.size.repr), ("max_register", needs.maxRegister.repr),
      ("min_ram", needs.minRam.repr)]⟩

/-- What is reported when lines are assembled. An error ends the reports. -/
def events (config : Config) (lines : List String) : List Event :=
  match SourceLine.read lines with
  | .error _ => []
  | .ok lines =>
    match Discovery.ofLines lines with
    | .error _ => []
    | .ok d =>
      let needReports := match needs d.scope lines with
        | .error _ => []
        | .ok needs =>
          needWarnings config needs ++ match stream d needs with
            | .error _ => []
            | .ok instructions => [assembledEvent lines d needs instructions]
      d.event :: lineWarnings d.scope config.mask lines ++ needReports

end Source
end Wordcode
