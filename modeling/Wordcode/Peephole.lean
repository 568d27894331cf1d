import Wordcode.Program

/-!
# Peephole simplification

A pass over an instruction stream that leaves out what is not needed. What it keeps
is its own stack: where a `POP` follows a `PSH`, with only comments between them, both
give way to one instruction that moves the word, or to none if the word is pushed from
the register it is popped into.

Each simplification can be switched on and off.
-/

namespace Wordcode

/-- Which simplifications are done. -/
structure Peephole where
  /-- A push and the pop after it become a move. -/
  stackTraffic : Bool
  /-- A register is set to zero from the zero register. -/
  zeroImmediates : Bool
  /-- Announcements of labels are left out. -/
  createLabels : Bool
  /-- Comments are left out. -/
  comments : Bool
  /-- Pragmas and the bounds of macros are left out. -/
  pragmas : Bool
  deriving DecidableEq, Repr

namespace Peephole

/-- The simplifications that leave all notes in place. -/
def standard : Peephole := ⟨true, true, false, false, false⟩

/-- All simplifications. -/
def all : Peephole := ⟨true, true, true, true, true⟩

/-- No simplification. -/
def off : Peephole := ⟨false, false, false, false, false⟩

instance : Inhabited Peephole := ⟨standard⟩

/-- Whether a note is left out. -/
def drops (settings : Peephole) : Note → Bool
  | .createLabel _ => settings.createLabels
  | .comment _ => settings.comments
  | .pragma _ | .macroBegin _ | .macroEnd => settings.pragmas
  | .markLabel _ | .maxReg _ | .minRam _ => false

/-- An instruction that sets a register to zero does so from the zero register. -/
def canonical (settings : Peephole) : Instruction → Instruction
  | .code .imm [destination, .immediate 0] =>
    if settings.zeroImmediates then .code .mov [destination, .zero]
    else .code .imm [destination, .immediate 0]
  | i => i

/-- The instruction that puts a value into a register. -/
def transfer (destination : Operand) : Operand → Instruction
  | .register index => .code .mov [destination, .register index]
  | value => .code .imm [destination, value]

/-- What was kept, last first, taken apart at a push that only comments follow: the
    comments, the pushed operand and what was kept before. -/
def pendingPush? : List Instruction → Option (List Instruction × Operand × List Instruction)
  | .note (.comment text) :: kept =>
    (pendingPush? kept).map fun (comments, pushed, before) =>
      (.note (.comment text) :: comments, pushed, before)
  | .code .psh [pushed] :: kept => some ([], pushed, kept)
  | _ => none

/-- Takes in one more instruction after those kept, which stand last first. -/
def push (settings : Peephole) (kept : List Instruction) : Instruction → List Instruction
  | .note n => if settings.drops n then kept else .note n :: kept
  | .code .pop [popped] =>
    if settings.stackTraffic then
      match pendingPush? kept with
      | some (comments, pushed, before) =>
        if pushed = popped then comments ++ before
        else settings.canonical (transfer popped pushed) :: (comments ++ before)
      | none => .code .pop [popped] :: kept
    else .code .pop [popped] :: kept
  | i => settings.canonical i :: kept

/-- Simplifies a stream. -/
def apply (settings : Peephole) (stream : List Instruction) : List Instruction :=
  (stream.foldl settings.push []).reverse

end Peephole
end Wordcode
