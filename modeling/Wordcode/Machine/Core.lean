import Wordcode.Machine.Cell
import Wordcode.Machine.Fault

/-!
# Cores

A core has registers, of which register 0 always reads as zero, a flags accumulator
that keeps the last result in full width, a value stack and a call stack.
-/

namespace Wordcode

/-- The state of one core. The top of a stack is the head of its list. -/
structure Core where
  /-- The address of the next instruction. -/
  ip : Nat := 0
  registers : Array Nat
  /-- The last result before it was masked. -/
  flags : Nat := 0
  stack : List Nat := []
  calls : List Nat := []
  halted : Bool := false
  deriving DecidableEq, Repr

namespace Core

/-- A core before its first tick. -/
def initial (registers : Nat) : Core := { registers := Array.replicate registers 0 }

/-- The content of a register, or 0 for a register the core does not have. -/
def register (core : Core) (index : Nat) : Nat := core.registers[index]?.getD 0

/-- Reads a register for an instruction. -/
def read (core : Core) (index : Nat) : Except FaultKind Nat :=
  match core.registers[index]? with
  | none => .error (.registerOutOfRange index core.registers.size)
  | some word => .ok (if index = 0 then 0 else word)

/-- Writes a register for an instruction. What is written to register 0 is lost. -/
def write (core : Core) (index word : Nat) : Except FaultKind Core :=
  if index < core.registers.size then
    .ok (if index = 0 then core
      else { core with registers := core.registers.setIfInBounds index word })
  else .error (.registerOutOfRange index core.registers.size)

/-- A written register reads as what was written, unless it is register 0, and every
    other register reads as before. -/
theorem read_of_write {core core' : Core} {index word : Nat}
    (h : core.write index word = .ok core') (other : Nat) :
    core'.read other = if other = index ∧ index ≠ 0 then .ok word else core.read other := by
  unfold write at h
  split at h
  · next hi =>
    cases h
    by_cases h0 : index = 0
    · simp [h0]
    · by_cases ho : other = index
      · subst ho
        simp [read, h0, hi]
      · have hne : index ≠ other := fun e => ho e.symm
        simp [read, h0, ho, Array.getElem?_setIfInBounds_ne hne]
  · cases h

end Core

namespace Decoded

/-- The value that a core reads from the slot at a position. -/
def value (code : Decoded) (core : Core) (position : Nat) : Except FaultKind Nat :=
  match code.slot? position with
  | some (.register index) => core.read index
  | some (.value n) => .ok n
  | some (.unresolved label) => .error (.unresolvedLabel label)
  | none => .error (.invalidOperand code.operation position)

/-- The register that the slot at a position names. -/
def destination (code : Decoded) (position : Nat) : Except FaultKind Nat :=
  match code.slot? position with
  | some (.register index) => .ok index
  | _ => .error (.invalidOperand code.operation position)

end Decoded
end Wordcode
