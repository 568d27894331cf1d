import Wordcode.Instruction
import Wordcode.Word

/-!
# Memory cells

A cell of memory holds one word of data or one instruction in the form the machine
executes: a `Decoded` instruction, in which the labels have given way to addresses.
-/

namespace Wordcode

/-- An operand as the machine sees it. -/
inductive Slot where
  | register (index : Nat)
  | value (value : Nat)
  /-- A label that is placed nowhere. It cannot be read. -/
  | unresolved (label : Label)
  deriving DecidableEq, Repr

namespace Slot

/-- The slot of an operand. Immediates are masked, addresses are not. -/
def decode (resolution : Resolution) (mask : Nat) : Operand → Slot
  | .register index => .register index
  | .immediate n => .value (n &&& mask)
  | .label label =>
    match resolution.addressOf label with
    | some address => .value address
    | none => .unresolved label

/-- A slot as text. -/
def render : Slot → String
  | .register index => "R" ++ index.repr
  | .value n => n.repr
  | .unresolved label => label.render ++ "?"

end Slot

/-- An instruction ready to be executed. -/
structure Decoded where
  operation : Operation
  slots : List Slot
  deriving DecidableEq, Repr

namespace Decoded

/-- An instruction with its labels resolved and its immediates masked. -/
def ofInstruction (resolution : Resolution) (mask : Nat) (i : Instruction) : Decoded where
  operation := i.operation
  slots := i.operands.map (Slot.decode resolution mask)

/-- The slot at a position, the first of which is 1. -/
def slot? (code : Decoded) : Nat → Option Slot
  | 0 => none
  | position + 1 => code.slots[position]?

/-- A decoded instruction as text. -/
def render (code : Decoded) : String :=
  Instruction.renderApplied code.operation.name (code.slots.map Slot.render)

end Decoded

/-- One word of memory. -/
inductive Cell where
  | data (word : Nat)
  | code (code : Decoded)
  deriving DecidableEq, Repr

namespace Cell

/-- What memory holds before anything is written to it. -/
def zero : Cell := .data 0

instance : Inhabited Cell := ⟨zero⟩

/-- A cell as text. -/
def render : Cell → String
  | .data word => word.repr
  | .code decoded => decoded.render

end Cell
end Wordcode
