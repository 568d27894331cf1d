import Wordcode.Config
import Wordcode.Machine.Cell

/-!
# Images

The *image* of an instruction stream is what it becomes in memory. Instructions are
placed one after the other from address 0, each taking its footprint, and a label is
bound to the address at which it is marked. Notes take no memory, but those that
state a need are checked against the configuration on the way.

* `Placement.add`: the first pass, which finds addresses and unmet needs;
* `Image.wordsOf`: the second pass, which writes the cells of one instruction;
* `Image.ofStream?`: both passes together.
-/

namespace Wordcode

/-- Why a stream cannot be placed in memory. -/
inductive LoadError where
  | programTooLarge (needed available : Nat)
  | duplicateMark (label : Label)
  | unresolvedData (label : Label)
  | insufficientRegisters (needed available : Nat)
  | insufficientRam (needed available : Nat)
  deriving DecidableEq, Repr

namespace LoadError

/-- The text of an error. -/
def message : LoadError → String
  | .programTooLarge needed available =>
    "program needs " ++ needed.repr ++ " words but the code store holds " ++ available.repr
  | .duplicateMark label => "label " ++ label.render ++ " is marked more than once"
  | .unresolvedData label => "data word refers to unresolved label " ++ label.render
  | .insufficientRegisters needed available =>
    "program uses register R" ++ needed.repr ++ " but only " ++ available.repr
      ++ " registers are configured"
  | .insufficientRam needed available =>
    "program needs " ++ needed.repr ++ " words of RAM but only " ++ available.repr
      ++ " are configured"

end LoadError

/-- How far a stream has been placed: the words taken so far and the addresses of the
    labels marked so far. -/
structure Placement where
  size : Nat := 0
  resolution : Resolution := {}
  deriving DecidableEq, Repr

namespace Placement

/-- The resolution after an instruction at the current end of the placement. -/
def resolve (config : Config) (placement : Placement) : Instruction → Except LoadError Resolution
  | .note (.markLabel label) =>
    match placement.resolution.bind label placement.size with
    | .ok resolution => .ok resolution
    | .error _ => .error (.duplicateMark label)
  | .note (.maxReg index) =>
    if index < config.registers then .ok placement.resolution
    else .error (.insufficientRegisters index config.registers)
  | .note (.minRam words) =>
    if words ≤ config.ramWords then .ok placement.resolution
    else .error (.insufficientRam words config.ramWords)
  | _ => .ok placement.resolution

/-- Places one more instruction. -/
def add (config : Config) (placement : Placement) (i : Instruction) :
    Except LoadError Placement := do
  return ⟨placement.size + i.footprint, ← placement.resolve config i⟩

/-- Places a stream from address 0. -/
def ofStream? (config : Config) (stream : List Instruction) : Except LoadError Placement :=
  stream.foldlM (add config) {}

end Placement

/-- A stream as it stands in memory. -/
structure Image where
  cells : List Cell
  resolution : Resolution
  deriving DecidableEq, Repr

namespace Image

/-- The number that a data instruction writes. A label stands for its address. -/
def datum (resolution : Resolution) : List Operand → Except LoadError Nat
  | [.immediate value] => .ok value
  | [.label label] =>
    match resolution.addressOf label with
    | some address => .ok address
    | none => .error (.unresolvedData label)
  | _ => .ok 0

/-- The cells of one instruction: its data, most significant word first, or the
    instruction itself. -/
def wordsOf (config : Config) (resolution : Resolution) : Instruction → Except LoadError (List Cell)
  | .note _ => .ok []
  | .code op operands =>
    match op with
    | .dw | .dd | .dq => do
      return (Word.split (← datum resolution operands) config.wordBits op.footprint).map .data
    | _ => .ok [.code (Decoded.ofInstruction resolution config.mask (.code op operands))]

/-- The image of a stream, if it fits the configuration. -/
def ofStream? (config : Config) (stream : List Instruction) : Except LoadError Image := do
  let placement ← Placement.ofStream? config stream
  if config.codeWords < placement.size then
    throw (.programTooLarge placement.size config.codeWords)
  let cells ← stream.mapM (wordsOf config placement.resolution)
  return ⟨cells.flatten, placement.resolution⟩

/-- The number of words of the image. -/
def size (image : Image) : Nat := image.cells.length

/-- A memory of the given size that starts with the given cells and is zero after them. -/
def fill (words : Nat) (cells : List Cell) : Array Cell :=
  (cells.take words ++ List.replicate (words - cells.length) Cell.zero).toArray

/-- A memory of the same size that starts with the given cells, as many of them as fit. -/
def overlay (memory : Array Cell) (cells : List Cell) : Array Cell :=
  (cells.take memory.size ++ memory.toList.drop cells.length).toArray

end Image
end Wordcode
