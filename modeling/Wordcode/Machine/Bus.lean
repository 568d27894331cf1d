/-!
# Port buses

A machine talks to the outside through numbered *ports*. It owns a bus, but what is behind
the ports is not its business: any type will do that says how a port is read and written
(`PortBus`). Two such types come with the machine:

* `NullBus`: a bus without ports, of which every use fails;
* `QueueBus`: a bus of ports that each have a queue of input that was fed to it, and keep
  all output that was written to it. Reading a port whose queue is empty gives 0.
-/

namespace Wordcode

/-- The bus does not support the use of this port. -/
structure PortError where
  port : Nat
  deriving DecidableEq, Repr

namespace PortError

/-- The text of an error. -/
def message (error : PortError) : String := "port " ++ error.port.repr ++ " is not supported"

end PortError

/-- What a machine needs to know of its bus. A use that fails may change the bus, too. -/
class PortBus (Bus : Type) where
  /-- Reads a port. -/
  read : Bus → Nat → Except PortError Nat × Bus
  /-- Writes a value to a port. -/
  write : Bus → Nat → Nat → Except PortError Unit × Bus

/-! ## No ports -/

/-- The bus without devices: no port is supported. -/
structure NullBus where
  deriving DecidableEq, Repr, Inhabited

instance : PortBus NullBus where
  read bus number := (.error ⟨number⟩, bus)
  write bus number _ := (.error ⟨number⟩, bus)

/-! ## Queues -/

/-- One port: what can still be read from it, oldest first, and what was written to
    it, oldest first. -/
structure Port where
  number : Nat
  input : List Nat := []
  output : List Nat := []
  deriving DecidableEq, Repr

/-- A bus of ports with queues. -/
structure QueueBus where
  ports : List Port := []
  deriving DecidableEq, Repr, Inhabited

namespace QueueBus

/-- The bus without ports. -/
def empty : QueueBus := {}

/-- The port of a number. -/
def port? (bus : QueueBus) (number : Nat) : Option Port :=
  bus.ports.find? (·.number == number)

/-- Adds a port, unless there is one of that number. -/
def withPort (bus : QueueBus) (number : Nat) : QueueBus :=
  match bus.port? number with
  | some _ => bus
  | none => ⟨bus.ports ++ [{ number }]⟩

/-- Puts a port in the place of the one that has its number. -/
def update (bus : QueueBus) (port : Port) : QueueBus :=
  ⟨bus.ports.map fun p => if p.number = port.number then port else p⟩

/-- Takes the oldest input of a port, or 0 if there is none. -/
def read (bus : QueueBus) (number : Nat) : Except PortError Nat × QueueBus :=
  match bus.port? number with
  | none => (.error ⟨number⟩, bus)
  | some port =>
    (.ok (port.input.headD 0), bus.update { port with input := port.input.tail })

/-- Writes a value to a port. -/
def write (bus : QueueBus) (number value : Nat) : Except PortError Unit × QueueBus :=
  match bus.port? number with
  | none => (.error ⟨number⟩, bus)
  | some port => (.ok (), bus.update { port with output := port.output ++ [value] })

/-- Queues input for a port. -/
def feed (bus : QueueBus) (number : Nat) (values : List Nat) : Except PortError QueueBus :=
  match bus.port? number with
  | none => .error ⟨number⟩
  | some port => .ok (bus.update { port with input := port.input ++ values })

/-- Everything that was written to a port. -/
def output (bus : QueueBus) (number : Nat) : List Nat :=
  match bus.port? number with
  | none => []
  | some port => port.output

end QueueBus

instance : PortBus QueueBus where
  read := QueueBus.read
  write := QueueBus.write

end Wordcode
