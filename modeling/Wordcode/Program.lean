import Wordcode.Instruction

/-!
# Programs

A *program* is an instruction stream together with the table its labels come from.
Producers append to it with the functions below.
-/

namespace Wordcode

/-- An instruction stream and the table of its labels. -/
structure Program where
  instructions : List Instruction := []
  labels : LabelTable := {}
  deriving DecidableEq, Repr

/-- The highest register named in a stream, or 0 if none is named. -/
def Instruction.highestRegister (stream : List Instruction) : Nat :=
  (stream.filterMap highestRegister?).foldl max 0

namespace Program

/-- The program without instructions whose labels continue a table. -/
def ofLabels (labels : LabelTable) : Program := { labels }

/-- The highest register named in the program, or 0 if none is named. -/
def highestRegister (program : Program) : Nat :=
  Instruction.highestRegister program.instructions

/-- Appends an instruction. -/
def emit (program : Program) (i : Instruction) : Program :=
  { program with instructions := program.instructions ++ [i] }

/-- Appends the instruction of an operation, if the operands suit it. -/
def emitOperation (program : Program) (operation : Operation) (operands : List Operand) :
    Except OperandError Program :=
  (Instruction.build operation operands).map program.emit

/-- A label without a name that no other label of the program equals. -/
def freshLabel (program : Program) : Label × Program :=
  (program.labels.fresh.1, { program with labels := program.labels.fresh.2 })

/-- A fresh label, announced at the end of the program. -/
def createLabel (program : Program) : Label × Program :=
  let (label, program) := program.freshLabel
  (label, program.emit (.note (.createLabel label)))

/-- Cuts the program after its first `count` instructions and gives back the rest. -/
def splitOff (program : Program) (count : Nat) : List Instruction × Program :=
  (program.instructions.drop count,
    { program with instructions := program.instructions.take count })

end Program
end Wordcode
