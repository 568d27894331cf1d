import Wordcode.Machine.Run
import Wordcode.Proofs.Scheduling

/-!
# The end of a run

A run makes ticks until one of them ends it. Which one this is, and what the run is ended with,
can be said of each tick by itself: of what it does, of whether it leaves a core running and of
the time that has passed once it is done. The run is ended by the first tick of which there is
something to say, and there always is one, since time goes on.

* `Machine.ending?`: what a tick ends a run with, if it does;
* `Machine.exists_run_eq`: a run goes on up to the first tick that ends it;
* `Machine.exists_of_run_eq_stopped`: what the reason for which a run stops tells about it.
-/

namespace Wordcode

namespace Machine

variable {Bus : Type} [PortBus Bus] {watch : Stopwatch} {limit start n : Nat} {m m' : Machine Bus}

/-- What a run is ended with by the tick that follows `n` others, if by this one. The ticks are
    counted from `start`. -/
def ending? (watch : Stopwatch) (limit start : Nat) (m : Machine Bus) (n : Nat) : Option RunEnd :=
  match (m.after n).clock.2 with
  | .idle => some (.stopped .halted (start + n))
  | .ran _ .breakpoint => some (.stopped .breakpoint (start + n))
  | .ran core (.faulted kind) => some (.faulted ⟨core, kind⟩)
  | .ran _ .executed =>
    if (m.after (n + 1)).isHalted then some (.stopped .halted (start + n + 1))
    else if m.config.singleStep then some (.stopped .step (start + n + 1))
    else if limit ≤ watch.elapsed (start + n + 1) then some (.stopped .timeBudget (start + n + 1))
    else none

theorem config_clock (m : Machine Bus) : m.clock.1.config = m.config := by
  cases h : m.nextRunning? with
  | none => rw [clock_of_nextRunning?_eq_none h]
  | some next => rw [clock_of_nextRunning?_eq_some h]

/-- The tick that follows one tick is the first of what is left of the run. -/
theorem ending?_succ (watch : Stopwatch) (limit start : Nat) (m : Machine Bus) (n : Nat) :
    ending? watch limit start m (n + 1) = ending? watch limit (start + 1) m.clock.1 n := by
  have hcount : start + (n + 1) = start + 1 + n := by omega
  rw [ending?, ending?, after, after, config_clock, hcount]

/-- A run goes on after ticks that are executed and leave a core running, before its time has
    passed. -/
theorem ending?_eq_none_iff :
    ending? watch limit start m n = none ↔
      (∃ core, (m.after n).clock.2 = .ran core .executed) ∧ (m.after (n + 1)).isHalted = false ∧
        m.config.singleStep = false ∧ watch.elapsed (start + n + 1) < limit := by
  rw [ending?]
  rcases (m.after n).clock.2 with _ | ⟨core, _ | _ | kind⟩
  case ran.executed =>
    cases (m.after (n + 1)).isHalted <;> cases m.config.singleStep <;> simp
  all_goals simp

/-- A run is ended by its first tick, or it goes on with the rest. -/
theorem runFrom_eq (watch : Stopwatch) (limit start : Nat) (m : Machine Bus) :
    runFrom watch limit start m =
      match ending? watch limit start m 0 with
      | some e => (m.clock.1, e)
      | none => runFrom watch limit (start + 1) m.clock.1 := by
  have hconfig := config_clock m
  rw [runFrom, ending?, after, after, after, Nat.add_zero, ← hconfig]
  rcases m.clock with ⟨next, _ | ⟨core, _ | _ | kind⟩⟩
  case ran.executed =>
    dsimp only
    split_ifs <;> rfl
  all_goals rfl

/-- A run goes on up to the first tick that ends it. -/
theorem exists_runFrom_eq (watch : Stopwatch) (limit start : Nat) (m : Machine Bus) :
    ∃ n e, runFrom watch limit start m = (m.after (n + 1), e) ∧
      ending? watch limit start m n = some e ∧ ∀ k < n, ending? watch limit start m k = none := by
  rw [runFrom_eq]
  cases hfirst : ending? watch limit start m 0 with
  | some e => exact ⟨0, e, rfl, hfirst, fun k hk => absurd hk (Nat.not_lt_zero k)⟩
  | none =>
    have hroom := watch.lt_enough (ending?_eq_none_iff.1 hfirst).2.2.2
    obtain ⟨n, e, hrun, hend, hbefore⟩ := exists_runFrom_eq watch limit (start + 1) m.clock.1
    refine ⟨n + 1, e, hrun, by rwa [ending?_succ], fun k hk => ?_⟩
    cases k with
    | zero => exact hfirst
    | succ k =>
      rw [ending?_succ]
      exact hbefore k (Nat.lt_of_succ_lt_succ hk)
termination_by watch.enough limit - start

/-- **A run goes on up to the first tick that ends it**, and what it is ended with is what there
    is to say of this tick. -/
theorem exists_run_eq (watch : Stopwatch) (m : Machine Bus) :
    ∃ n e, m.run watch = (m.after (n + 1), e) ∧
      ending? watch m.config.maxRunTime 0 m n = some e ∧
      ∀ k < n, ending? watch m.config.maxRunTime 0 m k = none :=
  exists_runFrom_eq watch m.config.maxRunTime 0 m

/-- What the reason for which a run stops says of its last tick, the one that follows `n` others. -/
def Justifies (watch : Stopwatch) (limit : Nat) (m : Machine Bus) (n ticks : Nat) :
    StopReason → Prop
  | .halted => (m.after (n + 1)).isHalted = true
  | .breakpoint => ∃ core, (m.after n).clock.2 = .ran core .breakpoint
  | .timeBudget => limit ≤ watch.elapsed ticks
  | .step => m.config.singleStep = true

/-- The reason that is given for the end of a run holds of the tick that ends it. -/
theorem justifies_of_ending? {reason : StopReason} {ticks : Nat}
    (h : ending? watch limit start m n = some (.stopped reason ticks)) :
    Justifies watch limit m n ticks reason := by
  rw [ending?] at h
  split at h
  · next hidle =>
    cases h
    have hnone := clock_eq_idle_iff.1 hidle
    rw [Justifies, after_succ, clock_of_nextRunning?_eq_none hnone]
    exact nextRunning?_eq_none_iff.1 hnone
  · next core hbreak =>
    cases h
    exact ⟨core, hbreak⟩
  · cases h
  · split_ifs at h with hhalted hstep htime
    · cases h
      exact hhalted
    · cases h
      exact hstep
    · cases h
      exact htime

/-- **What the reason for which a run stops tells about it**: it holds of the last tick, and all
    ticks before were executed, left a core running and were done in time. -/
theorem exists_of_run_eq_stopped {reason : StopReason} {ticks : Nat}
    (h : m.run watch = (m', .stopped reason ticks)) :
    ∃ n, m' = m.after (n + 1) ∧ Justifies watch m.config.maxRunTime m n ticks reason ∧
      ∀ k < n, (∃ core, (m.after k).clock.2 = .ran core .executed) ∧
        (m.after (k + 1)).isHalted = false ∧ m.config.singleStep = false ∧
        watch.elapsed (k + 1) < m.config.maxRunTime := by
  obtain ⟨n, e, hrun, hend, hbefore⟩ := exists_run_eq watch m
  obtain ⟨rfl, rfl⟩ := Prod.mk.inj (h.symm.trans hrun)
  refine ⟨n, rfl, justifies_of_ending? hend, fun k hk => ?_⟩
  simpa using ending?_eq_none_iff.1 (hbefore k hk)

end Machine
end Wordcode
