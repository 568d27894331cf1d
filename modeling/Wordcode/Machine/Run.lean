import Wordcode.Machine.Clock

/-!
# Runs

A run is a sequence of ticks up to an event that ends it: every core is halted, a
breakpoint, a fault, or the end of the time that the configuration grants. How long
ticks take is not in the hands of the machine: it is told by a `Stopwatch`, of which
only this is known, that time goes on. In single-step mode a run is one tick long.
-/

namespace Wordcode

/-- Why a run stopped. -/
inductive StopReason where
  | halted
  | breakpoint
  | timeBudget
  | step
  deriving DecidableEq, Repr

/-- How a run ended: by stopping after a number of executed ticks, or by a fault. -/
inductive RunEnd where
  | stopped (reason : StopReason) (ticks : Nat)
  | faulted (fault : Fault)
  deriving DecidableEq, Repr

/-- What a machine is timed with when it runs: the milliseconds that have passed once a
    number of ticks is executed. -/
structure Stopwatch where
  elapsed : Nat → Nat
  /-- Time does not run backwards. -/
  elapsed_mono : ∀ {before later}, before ≤ later → elapsed before ≤ elapsed later
  /-- A number of ticks that takes no less than a time. -/
  enough : Nat → Nat
  le_elapsed_enough : ∀ time, time ≤ elapsed (enough time)

namespace Stopwatch

/-- As long as a time has not passed, there are fewer ticks than those that take it. -/
theorem lt_enough (watch : Stopwatch) {ticks time : Nat} (h : watch.elapsed ticks < time) :
    ticks < watch.enough time := by
  apply Nat.lt_of_not_le
  intro hle
  have hpassed : time ≤ watch.elapsed ticks :=
    Nat.le_trans (watch.le_elapsed_enough time) (watch.elapsed_mono hle)
  exact Nat.not_lt_of_le hpassed h

/-- The stopwatch of a machine that executes so many ticks in a millisecond. -/
def steady (perMillisecond : Nat) (h : 0 < perMillisecond) : Stopwatch where
  elapsed ticks := ticks / perMillisecond
  elapsed_mono h := Nat.div_le_div_right h
  enough time := time * perMillisecond
  le_elapsed_enough time := Nat.le_of_eq (Nat.mul_div_cancel time h).symm

end Stopwatch

namespace StopReason

/-- A reason as reports name it. -/
def name : StopReason → String
  | .halted => "Halted"
  | .breakpoint => "Breakpoint"
  | .timeBudget => "TimeBudget"
  | .step => "Step"

end StopReason

namespace Machine

variable {Bus : Type} [PortBus Bus]

/-- Runs with `ticks` executed ticks behind it, until `limit` milliseconds have passed. -/
def runFrom (watch : Stopwatch) (limit ticks : Nat) (m : Machine Bus) : Machine Bus × RunEnd :=
  match m.clock with
  | (m, .idle) => (m, .stopped .halted ticks)
  | (m, .ran _ .breakpoint) => (m, .stopped .breakpoint ticks)
  | (m, .ran core (.faulted kind)) => (m, .faulted ⟨core, kind⟩)
  | (m, .ran _ .executed) =>
    if m.isHalted then (m, .stopped .halted (ticks + 1))
    else if m.config.singleStep then (m, .stopped .step (ticks + 1))
    else if limit ≤ watch.elapsed (ticks + 1) then (m, .stopped .timeBudget (ticks + 1))
    else runFrom watch limit (ticks + 1) m
termination_by watch.enough limit - ticks
decreasing_by
  have := watch.lt_enough (Nat.lt_of_not_le ‹¬limit ≤ watch.elapsed (ticks + 1)›)
  omega

/-- Runs for as long as the configuration grants. The time is looked at only after a
    tick, so there is always one. -/
def run (watch : Stopwatch) (m : Machine Bus) : Machine Bus × RunEnd :=
  m.runFrom watch m.config.maxRunTime 0

/-- Where `advance` got: the number of executed ticks and the tick that ended it early,
    if one did. -/
structure Progress (Bus : Type) where
  machine : Machine Bus
  executed : Nat
  stop : Option Tick
  deriving DecidableEq, Repr

/-- Ticks until `count` ticks are executed or a tick does something else. The ticks
    executed before are counted as well. -/
def advance (executed : Nat) : (count : Nat) → Machine Bus → Progress Bus
  | 0, m => ⟨m, executed, none⟩
  | count + 1, m =>
    match m.clock with
    | (m, .ran _ .executed) => advance (executed + 1) count m
    | (m, tick) => ⟨m, executed, some tick⟩

end Machine

/-- What is reported of the end of a run. -/
def RunEnd.events : RunEnd → List Event
  | .stopped reason ticks =>
    [⟨.info, "run stopped", [("reason", reason.name), ("ticks", ticks.repr)]⟩]
  | .faulted fault => (Tick.ran fault.core (.faulted fault.kind)).events

end Wordcode
