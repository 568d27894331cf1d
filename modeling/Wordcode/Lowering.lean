import Wordcode.Config
import Wordcode.Event
import Wordcode.Lowering.Expansion
import Wordcode.Peephole
import Wordcode.Text.Line

/-!
# Lowering

Lowering fits a program to the tier of its target. An instruction above that tier is
replaced by its expansion, which is lowered in turn; a comment says what was replaced.
An instruction without an expansion has no effect that could be replaced (`NOP`), and is
left out, or cannot be replaced (ports), and leaves a pragma that warns of it. One that
lacks the operands that its expansion works on is an error. At last the stream is
simplified by the peephole pass and states anew which registers it needs.

* `Lowering.instruction`: one instruction lowered;
* `Lowering.lower`: a program lowered;
* `Lowering.events`: what is reported on the way;
* `Lowered.listing`: a lowered program as assembly text.
-/

namespace Wordcode

/-- A program for a particular target. -/
structure Lowered where
  program : Program
  /-- How many registers the program needs, the zero register among them. -/
  registersRequired : Nat
  deriving DecidableEq, Repr

/-- Why a program cannot be lowered. -/
inductive LoweringError where
  /-- The given register is the last there can be. -/
  | noScratchRegister (index : Nat)
  /-- An operand that an expansion works on is missing, or of another kind. -/
  | expansion (op : Opcode) (error : OperandError)
  deriving DecidableEq, Repr

namespace LoweringError

/-- The text of an error. -/
def message : LoweringError → String
  | .noScratchRegister index =>
    "register R" ++ index.repr ++ " leaves no index for a scratch register"
  | .expansion op error => "expanding " ++ op.name ++ ": " ++ error.message

end LoweringError

namespace Lowering

/-! ## Instructions -/

/-- Whether a target of the given tier takes an instruction as it is. -/
def fits (target : Tier) : Instruction → Bool
  | .note _ => true
  | .code op _ => op.tier ≤ target

/-- Checks that an instruction can be expanded, if the target lacks it. What stands in an
    expansion always can, so it is enough to check the instructions of a program. -/
def check (target : Tier) : Instruction → Except LoweringError Unit
  | .note _ => .ok ()
  | .code op operands =>
    if fits target (.code op operands) then .ok ()
    else (Expansion.check op operands).mapError (.expansion op)

/-- What is left of an instruction that the target lacks and that has no expansion. -/
def residue (op : Opcode) (operands : List Operand) : List Instruction :=
  if op.tier = .customPragma then []
  else
    [.note (.pragma ("warning " ++ op.name ++ " is not supported by the target")),
      .note (.comment (Instruction.code op operands).render)]

/-- Lowers instructions one after the other. Each is given the first free label and
    gives back the first that is free after it. -/
def sequence (lowerOne : Nat → Instruction → List Instruction × Nat) :
    Nat → List Instruction → List Instruction × Nat
  | first, [] => ([], first)
  | first, i :: rest =>
    let (lowered, next) := lowerOne first i
    let (others, last) := sequence lowerOne next rest
    (lowered ++ others, last)

/-- Lowers an instruction that can be expanded at most `depth` times in a row. -/
def instructionAt (target : Tier) (context : Expansion.Context) :
    (depth : Nat) → (first : Nat) → Instruction → List Instruction × Nat
  | _, first, .note n => ([.note n], first)
  | depth, first, .code op operands =>
    if fits target (.code op operands) then ([.code op operands], first)
    else
      match depth, Expansion.expand? context first op operands with
      | depth + 1, some expansion =>
        let (lowered, next) :=
          sequence (instructionAt target context depth) (first + expansion.labels) expansion.body
        (.note (.comment (Instruction.code op operands).render) :: lowered, next)
      | _, _ => (residue op operands, first)

/-- How many times in a row an instruction can be expanded. -/
def depth : Instruction → Nat
  | .note _ => 0
  | .code op _ => op.depth

/-- Lowers an instruction. -/
def instruction (target : Tier) (context : Expansion.Context) (first : Nat) (i : Instruction) :
    List Instruction × Nat :=
  instructionAt target context (depth i) first i

/-- Lowers the instructions of a program. -/
def stream (target : Tier) (context : Expansion.Context) (program : Program) : Program :=
  let (instructions, next) :=
    sequence (instruction target context) program.labels.nextId program.instructions
  ⟨instructions, { program.labels with nextId := next }⟩

/-! ## Registers -/

/-- The register index that a note states. -/
def declared? : Instruction → Option Nat
  | .note (.maxReg index) => some index
  | _ => none

/-- The highest register index that a stream states. -/
def declared (stream : List Instruction) : Nat := (stream.filterMap declared?).foldl max 0

/-- The register index after a given one. -/
def next (index : Nat) : Except LoweringError Nat :=
  if index + 1 < Word.limit then .ok (index + 1) else .error (.noScratchRegister index)

/-- States the given register index wherever one is stated. -/
def declare (index : Nat) : Instruction → Instruction
  | .note (.maxReg _) => .note (.maxReg index)
  | i => i

/-! ## Programs -/

/-- The context in which a program is lowered: the scratch register comes after all
    that the program names or states. -/
def context (config : Config) (program : Program) : Except LoweringError Expansion.Context := do
  let scratch ← next (max program.highestRegister (declared program.instructions))
  return ⟨scratch, config.wordBits⟩

/-- Lowers a program to the tier of its target. -/
def lower (config : Config) (settings : Peephole) (program : Program) :
    Except LoweringError Lowered := do
  let context ← context config program
  forM program.instructions (check config.maxTier)
  let expanded := stream config.maxTier context program
  let instructions := settings.apply expanded.instructions
  let highest :=
    max (Instruction.highestRegister instructions) (declared program.instructions)
  let required ← next highest
  return ⟨⟨instructions.map (declare highest), expanded.labels⟩, required⟩

/-! ## Reports -/

/-- How many expansions the lowering of an instruction takes. -/
def expansionsAt (target : Tier) (context : Expansion.Context) : (depth : Nat) → Instruction → Nat
  | _, .note _ => 0
  | depth, .code op operands =>
    if fits target (.code op operands) then 0
    else
      match depth, Expansion.expand? context 0 op operands with
      | depth + 1, some expansion =>
        expansion.body.foldl (fun count i => count + expansionsAt target context depth i) 1
      | _, _ => 0

/-- How many expansions the lowering of a stream takes. -/
def expansions (target : Tier) (context : Expansion.Context) (stream : List Instruction) : Nat :=
  stream.foldl (fun count i => count + expansionsAt target context (depth i) i) 0

/-- What is reported of an instruction that has no expansion. -/
def residueEvents (target : Tier) (context : Expansion.Context) : Instruction → List Event
  | .note _ => []
  | .code op operands =>
    let i := Instruction.code op operands
    if fits target i || (Expansion.expand? context 0 op operands).isSome then []
    else if op.tier = .customPragma then
      [⟨.debug, "dropped", [("instruction", i.render)]⟩]
    else
      [⟨.warn, "no expansion for an instruction above the target tier",
        [("instruction", i.render), ("tier", target.name)]⟩]

/-- The warning about registers that the configuration does not have. -/
def registerWarnings (config : Config) (lowered : Lowered) : List Event :=
  if config.registers < lowered.registersRequired then
    [⟨.warn, "lowered program needs more registers than configured",
      [("registers_required", lowered.registersRequired.repr),
        ("configured", config.registers.repr)]⟩]
  else []

/-- The report of a finished lowering. -/
def loweredEvent (config : Config) (expanded : Nat) (lowered : Lowered) : Event :=
  ⟨.debug, "lowered",
    [("tier", config.maxTier.name), ("expanded", expanded.repr),
      ("instructions", lowered.program.instructions.length.repr),
      ("registers_required", lowered.registersRequired.repr)]⟩

/-- What is reported when a program is lowered. An error ends the reports, and so does an
    instruction that cannot be expanded. -/
def events (config : Config) (settings : Peephole) (program : Program) : List Event :=
  match context config program with
  | .error _ => []
  | .ok context =>
    let checked := program.instructions.takeWhile fun i => (check config.maxTier i).isOk
    checked.flatMap (residueEvents config.maxTier context) ++
      match lower config settings program with
      | .error _ => []
      | .ok lowered =>
        registerWarnings config lowered ++
          [loweredEvent config (expansions config.maxTier context program.instructions) lowered]

end Lowering

namespace Lowered

/-- The highest tier that assembly text can express. -/
def listingTier : Tier := .customPragma

/-- A lowered program as assembly text. -/
def listing (config : Config) (lowered : Lowered) : String :=
  Text.unlines
    (("// " ++ config.wordBits.repr ++ " bit words, " ++ lowered.registersRequired.repr
        ++ " registers")
      :: lowered.program.instructions.map Instruction.render)

end Lowered
end Wordcode
