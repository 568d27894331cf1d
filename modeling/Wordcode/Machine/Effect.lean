import Wordcode.Config
import Wordcode.Machine.Arithmetic
import Wordcode.Machine.Bus
import Wordcode.Machine.Core

/-!
# Effects

Executing an instruction has two parts. First its operands are read, which yields an
`Effect`: what the instruction is about to do, with all values filled in. This part
changes nothing, so a fault in it leaves everything as it was. Then the effect is
performed on a `View`, all that one core can change: the core, the RAM and the bus.

Some instructions look at their destination only after they have changed something: a
result is in the flags, a word popped or a port read before it is known where to put it.
Their effects carry the outcome of that look, and a fault in it shows when it is due.

* `Decoded.effect`: what an instruction does in a given state of a core;
* `Effect.perform`: how an effect changes the view of a core.
-/

namespace Wordcode

/-- What an instruction is about to do. -/
inductive Effect where
  /-- Keeps a result in the flags and its masked part in a register. -/
  | compute (destination : Except FaultKind Nat) (result : Nat)
  /-- Keeps a result in the flags. -/
  | compare (result : Nat)
  /-- Puts a word into a register. -/
  | assign (destination word : Nat)
  /-- Puts a word into memory. -/
  | store (address word : Nat)
  | push (word : Nat)
  | pop (destination : Except FaultKind Nat)
  | jump (target : Nat)
  | call (target : Nat)
  /-- Goes back to where the last call came from. -/
  | leave
  | halt
  /-- Stops at a breakpoint, and can go on after it. -/
  | trap
  /-- Reads a port into a register. -/
  | receive (destination : Except FaultKind Nat) (port : Nat)
  /-- Writes a word to a port. -/
  | send (port word : Nat)
  | skip
  deriving Repr

/-- All that one core can change. -/
structure View (Bus : Type) where
  core : Core
  ram : Array Cell
  bus : Bus
  deriving DecidableEq, Repr

/-- How the execution of one instruction ended. -/
inductive Outcome where
  | executed
  | breakpoint
  | faulted (kind : FaultKind)
  deriving DecidableEq, Repr

/-! ## Reading the operands -/

namespace Decoded

/-- A result computed from the value in the second slot, for the first. -/
def unary (code : Decoded) (core : Core) (f : Nat → Nat) : Except FaultKind Effect := do
  return .compute (code.destination 1) (f (← code.value core 2))

/-- A result computed from the values in the second and third slot, for the first. -/
def binary (code : Decoded) (core : Core) (f : Nat → Nat → Nat) : Except FaultKind Effect := do
  let x ← code.value core 2
  let y ← code.value core 3
  return .compute (code.destination 1) (f x y)

/-- Like `binary`, for an operation without a result at a third value of 0. -/
def quotient (code : Decoded) (core : Core) (f : Nat → Nat → Nat) : Except FaultKind Effect := do
  let x ← code.value core 2
  let y ← code.value core 3
  if y = 0 then return .trap
  else return .compute (code.destination 1) (f x y)

/-- A jump to the first slot, which is read only if the jump is taken. -/
def branch (code : Decoded) (core : Core) (taken : Bool) : Except FaultKind Effect := do
  if taken then return .jump (← code.value core 1)
  else return .skip

/-- An address inside the RAM. -/
def address (ram : Array Cell) (value : Nat) : Except FaultKind Nat :=
  if value < ram.size then .ok value else .error (.memoryOutOfRange value ram.size)

/-- What an instruction of the given opcode does. -/
def effectOf (config : Config) (ram : Array Cell) (core : Core) (code : Decoded) :
    Opcode → Except FaultKind Effect
  | .add => code.binary core (· + ·)
  | .sub => code.binary core Arithmetic.difference
  | .inc => code.unary core (· + 1)
  | .dec => code.unary core (Arithmetic.difference · 1)
  | .mlt => code.binary core (· * ·)
  | .and => code.binary core (· &&& ·)
  | .or => code.binary core (· ||| ·)
  | .xor => code.binary core (· ^^^ ·)
  | .nand => code.binary core fun x y => Arithmetic.complement (x &&& y)
  | .nor => code.binary core fun x y => Arithmetic.complement (x ||| y)
  | .xnor => code.binary core fun x y => Arithmetic.complement (x ^^^ y)
  | .not => code.unary core Arithmetic.complement
  | .lsh => code.unary core (· * 2)
  | .rsh => code.unary core (· / 2)
  | .bsl => code.binary core Arithmetic.shiftLeft
  | .bsr => code.binary core Arithmetic.shiftRight
  | .div => code.quotient core (· / ·)
  | .mod => code.quotient core (· % ·)
  | .cmp => do
    let x ← code.value core 1
    let y ← code.value core 2
    return .compare (Arithmetic.difference x y)
  | .mov | .imm => do
    let word ← code.value core 2
    return .assign (← code.destination 1) (word &&& config.mask)
  | .load => do
    let location ← address ram (← code.value core 2)
    match ram[location]? with
    | some (.data word) => return .assign (← code.destination 1) word
    | _ => throw (.malformedData location)
  | .store => do
    let location ← address ram (← code.value core 1)
    return .store location ((← code.value core 2) &&& config.mask)
  | .psh => do
    if config.maxStack ≤ core.stack.length then throw (.stackOverflow config.maxStack)
    return .push (← code.value core 1)
  | .pop => do
    if core.stack.isEmpty then throw .stackUnderflow
    return .pop (code.destination 1)
  | .bra => code.branch core true
  | .brz => code.branch core (Arithmetic.isZero config.mask core.flags)
  | .bnz => code.branch core (!Arithmetic.isZero config.mask core.flags)
  | .brc => code.branch core (Arithmetic.isCarry config.mask core.flags)
  | .bnc => code.branch core (!Arithmetic.isCarry config.mask core.flags)
  | .brp => code.branch core (!Arithmetic.isNegative config.mask core.flags)
  | .brn => code.branch core (Arithmetic.isNegative config.mask core.flags)
  | .bev => do code.branch core (Arithmetic.isEven (← code.value core 2))
  | .bod => do code.branch core (!Arithmetic.isEven (← code.value core 2))
  | .cal => do
    if config.maxStack ≤ core.calls.length then throw (.callStackOverflow config.maxStack)
    return .call (← code.value core 1)
  | .ret => return .leave
  | .hlt => return .halt
  | .brk => return .trap
  | .inp => do
    return .receive (code.destination 1) (← code.value core 2)
  | .out => do
    let port ← code.value core 1
    return .send port (← code.value core 2)
  | .nop => return .skip
  -- data is no instruction
  | .dw | .dd | .dq => throw (.malformedData core.ip)

/-- What an instruction does in a given state of its core. -/
def effect (config : Config) (ram : Array Cell) (core : Core) (code : Decoded) :
    Except FaultKind Effect :=
  match code.operation with
  | .code op => code.effectOf config ram core op
  | .note _ => .ok .skip

end Decoded

/-! ## Performing the effect -/

variable {Bus : Type}

namespace View

/-- Ends an instruction by going to an address. -/
def goTo (view : View Bus) (target : Nat) : View Bus × Outcome :=
  ({ view with core := { view.core with ip := target } }, .executed)

/-- Ends an instruction by going to the next one. -/
def advance (view : View Bus) : View Bus × Outcome := view.goTo (view.core.ip + 1)

/-- Ends an instruction by putting a word into a register. -/
def assign (view : View Bus) (destination word : Nat) : View Bus × Outcome :=
  match view.core.write destination word with
  | .ok core => { view with core }.advance
  | .error kind => (view, .faulted kind)

/-- Ends an instruction by putting a word where it belongs, if there is such a place. -/
def assignTo (view : View Bus) (destination : Except FaultKind Nat) (word : Nat) :
    View Bus × Outcome :=
  match destination with
  | .ok index => view.assign index word
  | .error kind => (view, .faulted kind)

end View

variable [PortBus Bus]

namespace Effect

/-- Changes a view by an effect. A fault here comes after what precedes it: a result
    is in the flags, a popped word is gone, and input is consumed, even if there is no
    register to put them into. -/
def perform (mask : Nat) (view : View Bus) : Effect → View Bus × Outcome
  | .compute destination result =>
    { view with core := { view.core with flags := result } }.assignTo destination (result &&& mask)
  | .compare result => { view with core := { view.core with flags := result } }.advance
  | .assign destination word => view.assign destination word
  | .store address word =>
    { view with ram := view.ram.setIfInBounds address (.data word) }.advance
  | .push word => { view with core := { view.core with stack := word :: view.core.stack } }.advance
  | .pop destination =>
    match view.core.stack with
    | [] => (view, .faulted .stackUnderflow)
    | word :: stack => { view with core := { view.core with stack } }.assignTo destination word
  | .jump target => view.goTo target
  | .call target =>
    { view with core := { view.core with calls := (view.core.ip + 1) :: view.core.calls } }.goTo
      target
  | .leave =>
    match view.core.calls with
    -- a return from the outermost level ends the program
    | [] => { view with core := { view.core with halted := true } }.advance
    | site :: calls => { view with core := { view.core with calls } }.goTo site
  | .halt => { view with core := { view.core with halted := true } }.advance
  | .trap => (view.advance.1, .breakpoint)
  | .receive destination port =>
    match PortBus.read view.bus port with
    | (.ok word, bus) => { view with bus }.assignTo destination (word &&& mask)
    | (.error error, bus) => ({ view with bus }, .faulted (.unsupportedPort error.port))
  | .send port word =>
    match PortBus.write view.bus port word with
    | (.ok _, bus) => { view with bus }.advance
    | (.error error, bus) => ({ view with bus }, .faulted (.unsupportedPort error.port))
  | .skip => view.advance

end Effect

namespace Decoded

/-- Executes an instruction: reads its operands and performs its effect. -/
def execute (config : Config) (view : View Bus) (code : Decoded) : View Bus × Outcome :=
  match code.effect config view.ram view.core with
  | .ok effect => effect.perform config.mask view
  | .error kind => (view, .faulted kind)

end Decoded
end Wordcode
