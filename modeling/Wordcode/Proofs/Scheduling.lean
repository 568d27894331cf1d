import Wordcode.Proofs.Execution

/-!
# Turns

Which core has a tick depends on the cores that are halted, and these change during a run: by
instructions, by faults and at the end of the program. What decides is how far each core is,
going around, from the one that is offered the next tick, its *wait*. The turn goes to the
running core of least wait, the waits of the cores behind it get shorter by the same number, and
its own becomes the longest of all.

So between two turns of a core, every other core that was running has its turn, since it comes
first in the order of waits, and has it only once, since afterwards it waits longer than the
core that is looked at. Nothing is assumed about the machine.

* `Machine.turn`: the core that a tick of a run goes to;
* `Machine.first_of_nextRunning?`: the running core of least wait has the turn;
* `Machine.wait_clock`: what a tick does to the waits;
* `Machine.Round`: how far two cores are between two turns of one of them;
* `Machine.roundRobin`: the cores take turns.
-/

namespace Wordcode

variable {Bus : Type}

/-- The core that has a tick, however the tick ends for it. -/
def Tick.core? : Tick → Option Nat
  | .ran core _ => some core
  | .idle => none

theorem exists_of_findSome?_range {α : Type} {f : Nat → Option α} {n : Nat} {a : α}
    (h : (List.range n).findSome? f = some a) :
    ∃ k < n, f k = some a ∧ ∀ j < k, f j = none := by
  induction n with
  | zero => cases h
  | succ n ih =>
    rw [List.range_succ, List.findSome?_append, Option.or_eq_some_iff] at h
    rcases h with h | ⟨hbefore, h⟩
    · obtain ⟨k, hk, hf⟩ := ih h
      exact ⟨k, Nat.lt_succ_of_lt hk, hf⟩
    · rw [List.findSome?_eq_none_iff] at hbefore
      refine ⟨n, Nat.lt_succ_self n, by simpa using h, fun j hj => ?_⟩
      exact hbefore j (List.mem_range.2 hj)

namespace Machine

/-- The core that has the tick after `k` ticks. -/
def turn [PortBus Bus] (m : Machine Bus) (k : Nat) : Option Nat := (m.after k).clock.2.core?

/-- A machine has a core of the given index, and it is not halted. -/
def Running (m : Machine Bus) (d : Nat) : Prop :=
  ∃ core, m.cores[d]? = some core ∧ core.halted = false

/-- How many cores are offered the next tick before the given one, going around. -/
def wait (m : Machine Bus) (d : Nat) : Nat :=
  let next := m.nextCore % m.cores.length
  if next ≤ d then d - next else d + m.cores.length - next

variable {m : Machine Bus} {c d : Nat} {core : Core}

theorem Running.lt (h : m.Running d) : d < m.cores.length := by
  obtain ⟨core, hcore, -⟩ := h
  exact (List.getElem?_eq_some_iff.1 hcore).1

theorem after_succ [PortBus Bus] (m : Machine Bus) (n : Nat) :
    m.after (n + 1) = (m.after n).clock.1 :=
  m.after_add n 1

/-! ## The order of waits -/

theorem wait_lt (h : d < m.cores.length) : m.wait d < m.cores.length := by
  have hnext := Nat.mod_lt m.nextCore (Nat.zero_lt_of_lt h)
  unfold wait
  dsimp only
  split <;> omega

theorem wait_injective {e : Nat} (hd : d < m.cores.length) (he : e < m.cores.length)
    (h : m.wait d = m.wait e) : d = e := by
  have hnext := Nat.mod_lt m.nextCore (Nat.zero_lt_of_lt hd)
  unfold wait at h
  dsimp only at h
  split at h <;> split at h <;> omega

/-- A core is as many places after the one that is offered the tick as it waits. -/
theorem add_mod_eq_iff {k : Nat} (hk : k < m.cores.length) (hd : d < m.cores.length) :
    (m.nextCore + k) % m.cores.length = d ↔ m.wait d = k := by
  have hnext := Nat.mod_lt m.nextCore (Nat.zero_lt_of_lt hk)
  rw [Nat.add_mod_eq_ite, Nat.mod_eq_of_lt hk]
  unfold wait
  dsimp only
  split <;> split <;> omega

/-- The turn goes to a running core, and no running core waits for less time. -/
theorem first_of_nextRunning? (h : m.nextRunning? = some (c, core)) :
    (m.cores[c]? = some core ∧ core.halted = false) ∧ ∀ d, m.Running d → m.wait c ≤ m.wait d := by
  obtain ⟨k, hk, hck, hbefore⟩ := exists_of_findSome?_range h
  dsimp only at hck
  split at hck
  · next core' hcore =>
    split at hck
    · cases hck
    · next hrun =>
      cases hck
      refine ⟨⟨hcore, by simpa using hrun⟩, fun d hd => ?_⟩
      rw [(add_mod_eq_iff hk (List.getElem?_eq_some_iff.1 hcore).1).1 rfl]
      by_contra hlt
      obtain ⟨running, hrunning, hhalted⟩ := hd
      have hdlt := (List.getElem?_eq_some_iff.1 hrunning).1
      have hnone := hbefore (m.wait d) (Nat.lt_of_not_le hlt)
      simp [(add_mod_eq_iff (wait_lt hdlt) hdlt).2 rfl, hrunning, hhalted] at hnone
  · cases hck

/-- No core has the turn exactly if all are halted. -/
theorem nextRunning?_eq_none_iff : m.nextRunning? = none ↔ m.isHalted = true := by
  rw [isHalted, List.all_eq_true]
  constructor
  · intro h core hcore
    obtain ⟨d, hd, rfl⟩ := List.getElem_of_mem hcore
    rw [nextRunning?, List.findSome?_eq_none_iff] at h
    have hnone := h (m.wait d) (List.mem_range.2 (wait_lt hd))
    simpa [(add_mod_eq_iff (wait_lt hd) hd).2 rfl, List.getElem?_eq_getElem hd] using hnone
  · intro h
    rcases hn : m.nextRunning? with _ | ⟨c, core⟩
    · rfl
    · obtain ⟨⟨hcore, hrun⟩, -⟩ := first_of_nextRunning? hn
      rw [h core (List.mem_of_getElem? hcore)] at hrun
      cases hrun

/-! ## One tick -/

variable [PortBus Bus]

theorem core?_clock (m : Machine Bus) : m.clock.2.core? = m.nextRunning?.map Prod.fst := by
  rcases hn : m.nextRunning? with _ | ⟨c, core⟩
  · rw [clock_of_nextRunning?_eq_none hn]
    rfl
  · rw [clock_of_nextRunning?_eq_some hn]
    rfl

theorem clock_eq_idle_iff : m.clock.2 = .idle ↔ m.nextRunning? = none := by
  rcases hn : m.nextRunning? with _ | ⟨c, core⟩
  · rw [clock_of_nextRunning?_eq_none hn]
    simp
  · rw [clock_of_nextRunning?_eq_some hn]
    simp

theorem exists_of_core?_clock (h : m.clock.2.core? = some c) :
    ∃ core, m.nextRunning? = some (c, core) := by
  rw [core?_clock] at h
  obtain ⟨⟨_, core⟩, hn, rfl⟩ := Option.map_eq_some_iff.1 h
  exact ⟨core, hn⟩

theorem running_of_core?_clock (h : m.clock.2.core? = some c) : m.Running c := by
  obtain ⟨core, hn⟩ := exists_of_core?_clock h
  exact ⟨core, (first_of_nextRunning? hn).1⟩

/-- Every other running core waits longer than the one that has the tick. -/
theorem wait_lt_of_core?_clock (h : m.clock.2.core? = some c) (hd : m.Running d) (hne : c ≠ d) :
    m.wait c < m.wait d := by
  obtain ⟨core, hn⟩ := exists_of_core?_clock h
  have hle := (first_of_nextRunning? hn).2 d hd
  refine Nat.lt_of_le_of_ne hle fun hw => hne ?_
  exact wait_injective (running_of_core?_clock h).lt hd.lt hw

/-- While a core is running, some core has the tick. -/
theorem exists_core?_clock (h : m.Running d) : ∃ c, m.clock.2.core? = some c := by
  rcases hn : m.nextRunning? with _ | ⟨c, core⟩
  · obtain ⟨core, hcore, hrun⟩ := h
    rw [nextRunning?_eq_none_iff, isHalted, List.all_eq_true] at hn
    rw [hn core (List.mem_of_getElem? hcore)] at hrun
    cases hrun
  · exact ⟨c, by rw [core?_clock, hn]; rfl⟩

theorem length_cores_clock (m : Machine Bus) : m.clock.1.cores.length = m.cores.length := by
  rcases hn : m.nextRunning? with _ | ⟨c, core⟩
  · rw [clock_of_nextRunning?_eq_none hn]
  · rw [clock_of_nextRunning?_eq_some hn]
    exact List.length_set

/-- A tick changes no core but the one that has it. -/
theorem cores_clock_of_ne (h : m.clock.2.core? ≠ some d) :
    m.clock.1.cores[d]? = m.cores[d]? := by
  rcases hn : m.nextRunning? with _ | ⟨c, core⟩
  · rw [clock_of_nextRunning?_eq_none hn]
  · rw [clock_of_nextRunning?_eq_some hn]
    refine List.getElem?_set_ne fun hcd => h ?_
    rw [core?_clock, hn, hcd]
    rfl

theorem Running.clock (h : m.Running d) (hne : m.clock.2.core? ≠ some d) :
    m.clock.1.Running d := by
  rw [Running, cores_clock_of_ne hne]
  exact h

/-- A tick shortens the wait of the cores behind the one that has it, and those before it are
    now behind all of them. -/
theorem wait_clock (h : m.clock.2.core? = some c) (hd : d < m.cores.length) :
    m.clock.1.wait d + (m.wait c + 1) =
      if m.wait c < m.wait d then m.wait d else m.wait d + m.cores.length := by
  have hc := (running_of_core?_clock h).lt
  have hnext := Nat.mod_lt m.nextCore (Nat.zero_lt_of_lt hd)
  obtain ⟨core, hn⟩ := exists_of_core?_clock h
  have hturn : m.clock.1.nextCore % m.cores.length = (c + 1) % m.cores.length := by
    rw [clock_of_nextRunning?_eq_some hn]
    exact Nat.mod_mod _ _
  unfold wait
  simp only [length_cores_clock, hturn]
  by_cases hlast : c + 1 = m.cores.length
  · rw [hlast, Nat.mod_self]
    grind
  · rw [Nat.mod_eq_of_lt (show c + 1 < m.cores.length by omega)]
    grind

/-! ## Runs -/

theorem length_cores_after (m : Machine Bus) (n : Nat) :
    (m.after n).cores.length = m.cores.length := by
  induction n with
  | zero => rfl
  | succ n ih => rw [after_succ, length_cores_clock, ih]

theorem turn_add (m : Machine Bus) (i k : Nat) : m.turn (i + k) = (m.after i).turn k := by
  rw [turn, after_add, turn]

/-- A core that is running has been running before. -/
theorem Running.of_after {n : Nat} (h : (m.after n).Running d) : m.Running d := by
  induction n with
  | zero => exact h
  | succ n ih =>
    rw [after_succ] at h
    by_cases hturn : (m.after n).clock.2.core? = some d
    · exact ih (running_of_core?_clock hturn)
    · rw [Running, cores_clock_of_ne hturn] at h
      exact ih h

/-- A halted core stays as it is. -/
theorem cores_after_of_halted (hcore : m.cores[d]? = some core) (hhalted : core.halted = true)
    (n : Nat) : (m.after n).cores[d]? = some core := by
  induction n with
  | zero => exact hcore
  | succ n ih =>
    rw [after_succ, cores_clock_of_ne, ih]
    intro hturn
    obtain ⟨core', hcore', hrun⟩ := running_of_core?_clock hturn
    rw [ih] at hcore'
    cases hcore'
    rw [hhalted] at hrun
    cases hrun

/-- A running core has a turn before it has waited for longer than its wait. -/
theorem exists_turn_of_running (h : m.Running d) : ∃ k ≤ m.wait d, m.turn k = some d := by
  -- by induction on the wait, which every tick of another core shortens
  induction hw : m.wait d using Nat.strongRecOn generalizing m with
  | ind w ih =>
    obtain ⟨c, hc⟩ := exists_core?_clock h
    by_cases hcd : c = d
    · exact ⟨0, Nat.zero_le _, hcd ▸ hc⟩
    · have hlt := wait_lt_of_core?_clock hc h hcd
      have hshorter := wait_clock hc h.lt
      rw [if_pos hlt] at hshorter
      have hne : m.clock.2.core? ≠ some d := by
        rw [hc]
        exact fun he => hcd (Option.some.inj he)
      obtain ⟨k, hk, hturn⟩ := ih (m.clock.1.wait d) (by omega) (h.clock hne) rfl
      exact ⟨k + 1, by omega, hturn⟩

/-- How core `d` has fared before tick `k`, if core `c` had tick `i` and none since: it is to have
    its turn before `c`, or has had it, once, and is to have the next one after `c`. -/
inductive Round (m : Machine Bus) (c d i k : Nat) : Prop
  | due : (m.after k).Running d → (m.after k).wait d < (m.after k).wait c →
      (∀ l, i < l → l < k → m.turn l ≠ some d) → Round m c d i k
  | served : (m.after k).wait c < (m.after k).wait d →
      (∃! l, i < l ∧ l < k ∧ m.turn l = some d) → Round m c d i k

namespace Round

variable {i k : Nat}

/-- After its turn, a core waits for all others. -/
theorem start (hturn : m.turn i = some c) (hne : d ≠ c) (hd : (m.after i).Running d) :
    Round m c d i (i + 1) := by
  have hc := running_of_core?_clock hturn
  have hlt := wait_lt_of_core?_clock hturn hd hne.symm
  have hwait := wait_clock hturn hd.lt
  have hlast := wait_clock hturn hc.lt
  have hbound := wait_lt hd.lt
  rw [if_pos hlt] at hwait
  rw [if_neg (Nat.lt_irrefl _)] at hlast
  refine .due ?_ ?_ fun l _ _ => by omega
  · rw [after_succ]
    refine hd.clock fun he => hne ?_
    exact Option.some.inj (he.symm.trans hturn)
  · rw [after_succ]
    omega

/-- A tick of another core than `c` goes to a core that waits for less time than `c`. If that is
    `d`, its turn is no longer due, and else nothing changes. -/
theorem step (h : Round m c d i k) (hik : i < k) (hc : (m.after k).Running c)
    (hd : d < m.cores.length) (hturn : m.turn k ≠ some c) : Round m c d i (k + 1) := by
  rw [← m.length_cores_after k] at hd
  obtain ⟨e, he⟩ := exists_core?_clock hc
  have hec := wait_lt_of_core?_clock he hc fun hec => hturn (hec ▸ he)
  have hwaitc := wait_clock he hc.lt
  have hwaitd := wait_clock he hd
  have hbound := wait_lt hc.lt
  rw [if_pos hec] at hwaitc
  cases h with
  | due hrun hlt hnone =>
    by_cases hed : e = d
    · subst hed
      rw [if_neg (Nat.lt_irrefl _)] at hwaitd
      refine .served ?_ ⟨k, ⟨hik, Nat.lt_succ_self k, he⟩, ?_⟩
      · rw [after_succ]
        omega
      · rintro l ⟨hil, hlk, hl⟩
        by_contra hne
        exact hnone l hil (by omega) hl
    · have hfirst := wait_lt_of_core?_clock he hrun hed
      have hother : m.turn k ≠ some d := fun hk => hed (Option.some.inj (he.symm.trans hk))
      rw [if_pos hfirst] at hwaitd
      refine .due ?_ ?_ fun l hil hlk => ?_
      · rw [after_succ]
        exact hrun.clock hother
      · rw [after_succ]
        omega
      · rcases Nat.lt_succ_iff_lt_or_eq.1 hlk with hlk | rfl
        · exact hnone l hil hlk
        · exact hother
  | served hlt hone =>
    have hother : m.turn k ≠ some d := by
      intro hk
      rw [Option.some.inj (he.symm.trans hk)] at hec
      omega
    rw [if_pos (Nat.lt_trans hec hlt)] at hwaitd
    refine .served ?_ ?_
    · rw [after_succ]
      omega
    · obtain ⟨l, ⟨hil, hlk, hl⟩, hunique⟩ := hone
      refine ⟨l, ⟨hil, Nat.lt_succ_of_lt hlk, hl⟩, ?_⟩
      rintro l' ⟨hil', hlk', hl'⟩
      rcases Nat.lt_succ_iff_lt_or_eq.1 hlk' with hlk' | rfl
      · exact hunique l' ⟨hil', hlk', hl'⟩
      · exact absurd hl' hother

/-- As long as `c` has no other turn. -/
theorem of_turn {j : Nat} (hij : i < j) (hturn : m.turn i = some c) (hc : (m.after j).Running c)
    (hbetween : ∀ k, i < k → k < j → m.turn k ≠ some c) (hne : d ≠ c)
    (hd : (m.after i).Running d) : Round m c d i j := by
  have hlt : d < m.cores.length := m.length_cores_after i ▸ hd.lt
  have hround : ∀ n, i + 1 + n ≤ j → Round m c d i (i + 1 + n) := by
    intro n
    induction n with
    | zero => exact fun _ => start hturn hne hd
    | succ n ih =>
      intro hn
      have hrun : (m.after (i + 1 + n)).Running c := by
        rw [← Nat.add_sub_of_le (Nat.le_of_succ_le hn), after_add] at hc
        exact hc.of_after
      exact (ih (by omega)).step (by omega) hrun hlt (hbetween _ (by omega) (by omega))
  obtain ⟨n, rfl⟩ := Nat.exists_eq_add_of_lt hij
  rw [Nat.add_right_comm] at hround ⊢
  exact hround n (Nat.le_refl _)

end Round

/-- The cores of a machine take turns. -/
structure RoundRobin (m : Machine Bus) : Prop where
  /-- No halted core has a turn. -/
  running : ∀ k c, m.turn k = some c → (m.after k).Running c
  /-- Between a turn of a core and its next one, every other core that was running before has
      exactly one turn. -/
  once : ∀ c i j, i < j → m.turn i = some c → m.turn j = some c →
    (∀ k, i < k → k < j → m.turn k ≠ some c) →
      ∀ d, d ≠ c → (m.after i).Running d → ∃! k, i < k ∧ k < j ∧ m.turn k = some d
  /-- Of as many ticks as there are cores, a core that is running has one. -/
  soon : ∀ i d, (m.after i).Running d →
    ∃ k, i ≤ k ∧ k < i + m.cores.length ∧ m.turn k = some d
  /-- A halted core stays as it is. -/
  halted : ∀ (k d : Nat) (core : Core), (m.after k).cores[d]? = some core → core.halted = true →
    ∀ n, (m.after (k + n)).cores[d]? = some core
  /-- A tick is idle exactly if every core is halted. -/
  idle : ∀ k, (m.after k).clock.2 = .idle ↔ (m.after k).isHalted = true
  /-- An idle tick changes nothing. -/
  still : ∀ k, (m.after k).clock.2 = .idle → (m.after k).clock.1 = m.after k

/-- In every run of every machine the cores take turns, whichever of them halt on the way. -/
theorem roundRobin (m : Machine Bus) : m.RoundRobin where
  running k c hturn := running_of_core?_clock hturn
  once c i j hij hi hj hbetween d hne hd := by
    have hc := running_of_core?_clock hj
    cases Round.of_turn hij hi hc hbetween hne hd with
    -- a core that is due before `c` would have tick `j` in its place
    | due hrun hlt _ =>
      have := wait_lt_of_core?_clock hj hrun hne.symm
      omega
    | served _ hone => exact hone
  soon i d hd := by
    obtain ⟨k, hk, hturn⟩ := exists_turn_of_running hd
    have hwait := wait_lt hd.lt
    rw [length_cores_after] at hwait
    exact ⟨i + k, by omega, by omega, by rw [turn_add]; exact hturn⟩
  halted k d core hcore hhalted n := by
    rw [after_add]
    exact cores_after_of_halted hcore hhalted n
  idle k := clock_eq_idle_iff.trans nextRunning?_eq_none_iff
  still k hidle := by
    rw [clock_of_nextRunning?_eq_none (clock_eq_idle_iff.1 hidle)]

/-- A machine of three cores, the first of which finds input. -/
def trio : Config where
  registers := 3
  ramWords := 16
  romWords := 4
  executeFromRom := true
  cores := 3

/-- Reads a cell whose address is the input. For the first core that is a fault; the others stop
    at a breakpoint and then halt. -/
def departing : Machine QueueBus :=
  (blank trio { ports := [{ number := 0, input := [16] }] }).loaded
    [.code .inp [.register 1, .immediate 0], .code .load [.register 2, .register 1],
      .code .brk [], .code .hlt []]

theorem roundRobin_departing :
    departing.RoundRobin ∧
      (List.range 11).map departing.turn =
        [some 0, some 1, some 2, some 0, some 1, some 2, some 1, some 2, some 1, some 2, none] ∧
      (departing.ticks 11).countP Tick.isFault = 1 ∧ departing.breakpoints 11 = 2 :=
  ⟨departing.roundRobin, by decide +kernel, by decide +kernel, by decide +kernel⟩

end Machine
end Wordcode
