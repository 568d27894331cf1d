import Wordcode.Event
import Wordcode.Machine.Effect
import Wordcode.Machine.Image

/-!
# Machines

A machine has one or more cores that share RAM, ROM and a port bus. A program is
loaded into RAM or into ROM, as configured, and every core starts it at address 0.

* `Machine.create`: a machine without a program;
* `Machine.load`: a program put into the place of all that memory held;
* `Machine.reset`: all cores before their first tick.
-/

namespace Wordcode

/-- The state of a machine. -/
structure Machine (Bus : Type) where
  config : Config
  ram : Array Cell
  rom : Array Cell
  cores : List Core
  /-- The core that is offered the next tick. -/
  nextCore : Nat := 0
  bus : Bus
  /-- The number of words of the loaded program. -/
  programLen : Nat := 0
  deriving DecidableEq, Repr

namespace Machine

variable {Bus : Type}

/-- A machine of a valid configuration, without a program. -/
def create (config : Config) (bus : Bus) : Except ConfigError (Machine Bus) :=
  match config.invalid? with
  | some error => .error error
  | none =>
    .ok {
      config, bus
      ram := Array.replicate config.ramWords Cell.zero
      rom := Array.replicate config.romWords Cell.zero
      cores := List.replicate config.cores (Core.initial config.registers) }

/-- The memory that the program is executed from. -/
def codeStore (m : Machine Bus) : Array Cell := if m.config.executeFromRom then m.rom else m.ram

/-- Whether every core is halted. -/
def isHalted (m : Machine Bus) : Bool := m.cores.all (·.halted)

/-- Every core as before its first tick. Memory stays as it is. -/
def reset (m : Machine Bus) : Machine Bus :=
  { m with
    cores := m.cores.map fun _ => Core.initial m.config.registers
    nextCore := 0 }

/-- The machine with zero in all memory. -/
def clear (m : Machine Bus) : Machine Bus :=
  { m with
    ram := Array.replicate m.config.ramWords Cell.zero
    rom := Array.replicate m.config.romWords Cell.zero }

/-- The machine with cells written over the beginning of the memory that is executed. -/
def overwrite (m : Machine Bus) (cells : List Cell) : Machine Bus :=
  if m.config.executeFromRom then { m with rom := Image.overlay m.rom cells }
  else { m with ram := Image.overlay m.ram cells }

/-- Loads a program into the machine that is the state. Labels are placed, the size is
    checked and the cells are written out before the machine is touched. -/
def loader (config : Config) (stream : List Instruction) :
    ExceptT LoadError (StateM (Machine Bus)) Unit := do
  let placement ← liftExcept (Placement.ofStream? config stream)
  if config.codeWords < placement.size then
    throw (.programTooLarge placement.size config.codeWords)
  let cells ← liftExcept (stream.mapM (Image.wordsOf config placement.resolution))
  modify clear
  modify (overwrite · cells.flatten)
  modify ({ · with programLen := placement.size })
  modify reset

/-- What loading a program makes of a machine, and whether it failed. -/
def load (m : Machine Bus) (stream : List Instruction) : Machine Bus × Except LoadError Unit :=
  let (outcome, m) := (loader m.config stream).run m
  (m, outcome)

/-- What is reported when a stream is loaded. -/
def loadEvents (m : Machine Bus) (stream : List Instruction) : List Event :=
  match Image.ofStream? m.config stream with
  | .error _ => []
  | .ok image =>
    [⟨.debug, "program loaded",
      [("words", image.size.repr), ("labels", image.resolution.size.repr),
        ("from_rom", Event.flag m.config.executeFromRom)]⟩]

end Machine
end Wordcode
