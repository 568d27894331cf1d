import Wordcode.Machine.Basic

/-!
# The clock

A tick executes one instruction on one core. Cores take turns: the next core that is
not halted, counting from the one after the last core that ran, has the tick. A core
that faults is halted.

* `Machine.nextRunning?`: whose turn it is;
* `Machine.clock`: one tick;
* `Machine.clock_of_nextRunning?_eq_some`: what a tick of a core changes.
-/

namespace Wordcode

/-- What a tick did. -/
inductive Tick where
  /-- Every core is halted. -/
  | idle
  /-- One core ran. -/
  | ran (core : Nat) (outcome : Outcome)
  deriving DecidableEq, Repr

variable {Bus : Type}

namespace View

/-- Stops the core of the view. -/
def halt (view : View Bus) : View Bus := { view with core := { view.core with halted := true } }

variable [PortBus Bus]

/-- One instruction of a program of the given length. A core that runs off the end of
    the program halts. -/
def step (config : Config) (rom : Array Cell) (programLen : Nat) (view : View Bus) :
    View Bus × Outcome :=
  if programLen ≤ view.core.ip then (view.halt, .executed)
  else
    match (if config.executeFromRom then rom else view.ram)[view.core.ip]? with
    | some (.code code) => code.execute config view
    | _ => (view, .faulted (.malformedData view.core.ip))

/-- One instruction, after which a core that faulted is halted. -/
def tick (config : Config) (rom : Array Cell) (programLen : Nat) (view : View Bus) :
    View Bus × Outcome :=
  match view.step config rom programLen with
  | (view, .faulted kind) => (view.halt, .faulted kind)
  | result => result

end View

namespace Machine

/-- The core whose turn it is, with its index. -/
def nextRunning? (m : Machine Bus) : Option (Nat × Core) :=
  (List.range m.cores.length).findSome? fun offset =>
    let index := (m.nextCore + offset) % m.cores.length
    match m.cores[index]? with
    | some core => if core.halted then none else some (index, core)
    | none => none

variable [PortBus Bus]

/-- One tick. -/
def clock (m : Machine Bus) : Machine Bus × Tick :=
  match m.nextRunning? with
  | none => (m, .idle)
  | some (index, core) =>
    let { config, ram, rom, cores, bus, programLen, .. } := m
    let (view, outcome) := View.tick config rom programLen ⟨core, ram, bus⟩
    ({ config, rom, programLen
       ram := view.ram
       cores := cores.set index view.core
       nextCore := (index + 1) % cores.length
       bus := view.bus }, .ran index outcome)

/-- When no core can run, a tick changes nothing. -/
theorem clock_of_nextRunning?_eq_none {m : Machine Bus} (h : m.nextRunning? = none) :
    m.clock = (m, .idle) := by
  unfold clock
  rw [h]

/-- A tick of a core changes that core, the RAM and the bus as its view says, and the
    turn passes to the core after it. -/
theorem clock_of_nextRunning?_eq_some {m : Machine Bus} {index : Nat} {core : Core}
    (h : m.nextRunning? = some (index, core)) :
    m.clock =
      let ticked := View.tick m.config m.rom m.programLen ⟨core, m.ram, m.bus⟩
      ({ m with
          ram := ticked.1.ram
          cores := m.cores.set index ticked.1.core
          nextCore := (index + 1) % m.cores.length
          bus := ticked.1.bus }, .ran index ticked.2) := by
  unfold clock
  rw [h]

end Machine

/-- What is reported of a tick. -/
def Tick.events : Tick → List Event
  | .ran core (.faulted kind) =>
    [⟨.warn, "core faulted", [("core", core.repr), ("fault", kind.message)]⟩]
  | _ => []

end Wordcode
