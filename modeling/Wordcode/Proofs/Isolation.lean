import Mathlib.Logic.Function.Iterate
import Wordcode.Proofs.Integrity
import Wordcode.Proofs.Scheduling

/-!
# Cores that do not meet

Cores share memory and the bus, and nothing else. A program that stores nothing and uses no port
leaves both as they are, and then a core cannot tell that there are others: a tick of it is
a function of its own state, and whose turn it is decides only how often that function has been
applied. In particular the only core of a machine, which has every tick, goes through the same
states.

* `Opcode.changesShared`: the instructions through which cores can meet;
* `Machine.alone`: a tick of a core, as a function of the core;
* `Machine.Isolated`: no instruction of the program changes what is shared;
* `Machine.Isolated.after_eq`: a run changes nothing but cores and turns;
* `Machine.Isolated.cores_after`: a core depends on the number of its ticks only;
* `Machine.noninterference`: every core is as the only core of a machine would be.
-/

namespace Wordcode

variable {Bus : Type}

/-! ## Instructions -/

/-- Whether an instruction changes memory or works on a port. -/
def Opcode.changesShared : Opcode → Bool
  | .store | .inp | .out => true
  | _ => false

namespace View

/-- Writing a register changes the core only. -/
theorem assign_eq_with_core (v : View Bus) (t word : Nat) :
    (v.assign t word).1 = { v with core := (v.assign t word).1.core } := by
  unfold assign
  split <;> rfl

theorem assignTo_eq_with_core (v : View Bus) (destination : Except FaultKind Nat) (word : Nat) :
    (v.assignTo destination word).1 =
      { v with core := (v.assignTo destination word).1.core } := by
  cases destination with
  | ok t => exact v.assign_eq_with_core t word
  | error kind => rfl

variable [PortBus Bus]

/-- An instruction that changes nothing shared changes its core only. -/
theorem execute_eq_with_core (config : Config) (v : View Bus) {d : Decoded} {op : Opcode}
    (hop : d.operation = .code op) (h : op.changesShared = false) :
    (d.execute config v).1 = { v with core := (d.execute config v).1.core } := by
  rcases Decoded.execute_cases config v hop with ⟨kind, hx⟩ | ⟨e, hy, hx⟩
  · rw [hx]
  rw [hx]
  cases hy with
  | @compute _ result =>
    exact assignTo_eq_with_core { v with core := { v.core with flags := result } } _ _
  | assign => exact v.assign_eq_with_core _ _
  -- memory may be read, since nobody changes it
  | load => exact v.assign_eq_with_core _ _
  | store | receive | send => cases h
  | pop hs =>
    rcases hstack : v.core.stack with _ | ⟨word, stack⟩
    · exact absurd hstack hs
    · simp only [Effect.perform, hstack]
      exact assignTo_eq_with_core { v with core := { v.core with stack } } _ word
  | leave =>
    simp only [Effect.perform]
    split <;> rfl
  | _ => rfl

/-- A tick that executes no instruction but such that change nothing shared changes its core
    only. -/
theorem tick_eq_with_core (config : Config) (rom : Array Cell) (size : Nat) (v : View Bus)
    (h : ∀ (a : Nat) (decoded : Decoded),
      (if config.executeFromRom then rom else v.ram)[a]? = some (.code decoded) →
        ∃ op, decoded.operation = .code op ∧ op.changesShared = false) :
    (v.tick config rom size).1 = { v with core := (v.tick config rom size).1.core } := by
  rcases v.tick_cases config rom size with hu | ⟨decoded, -, hcode, hu⟩
  · rw [hu]
    rfl
  · obtain ⟨op, hop, hshared⟩ := h _ decoded hcode
    have hexecute := execute_eq_with_core config v hop hshared
    rcases hu with hu | hu
    · rw [hu]
      exact hexecute
    · rw [hu, halt, hexecute]

end View

/-! ## Ticks -/

namespace Machine

/-- A core after a tick that it has to itself. -/
def alone [PortBus Bus] (m : Machine Bus) (core : Core) : Core :=
  if core.halted then core else (View.tick m.config m.rom m.programLen ⟨core, m.ram, m.bus⟩).1.core

/-- How many of a number of ticks a core has. -/
def selections [PortBus Bus] (m : Machine Bus) (i n : Nat) : Nat :=
  (m.ticks n).countP fun tick => tick.core? = some i

/-- No instruction that can be executed changes memory or works on a port. -/
def Isolated (m : Machine Bus) : Prop :=
  ∀ (a : Nat) (decoded : Decoded), m.codeStore[a]? = some (.code decoded) →
    ∃ op, decoded.operation = .code op ∧ op.changesShared = false

variable [PortBus Bus]

theorem selections_succ (m : Machine Bus) (i n : Nat) :
    m.selections i (n + 1) =
      m.clock.1.selections i n + if m.clock.2.core? = some i then 1 else 0 := by
  rw [selections, ticks, List.countP_cons]
  simp [selections]

variable {m : Machine Bus}

/-- A tick is what its core would do alone. -/
theorem cores_clock (m : Machine Bus) (i : Nat) :
    m.clock.1.cores[i]? =
      if m.clock.2.core? = some i then m.cores[i]?.map m.alone else m.cores[i]? := by
  split
  · next hturn =>
    obtain ⟨core, hn⟩ := exists_of_core?_clock hturn
    obtain ⟨⟨hcore, hrun⟩, -⟩ := first_of_nextRunning? hn
    have hi := (List.getElem?_eq_some_iff.1 hcore).1
    rw [clock_of_nextRunning?_eq_some hn, hcore]
    simp [List.getElem?_set_self hi, alone, hrun]
  · next hturn => exact cores_clock_of_ne hturn

/-- The only core of a machine has every tick until it is halted. -/
theorem cores_clock_single {core : Core} (hm : m.cores = [core]) :
    m.clock.1.cores = [m.alone core] := by
  obtain ⟨core', hcore'⟩ : ∃ core', m.clock.1.cores = [core'] := by
    rw [← List.length_eq_one_iff, length_cores_clock, hm]
    rfl
  have hclock := m.cores_clock 0
  rw [hcore', hm] at hclock
  split at hclock
  · rw [hcore', Option.some.inj hclock]
  · next hturn =>
    have hhalted : core.halted = true := by
      by_contra hrun
      have hrunning : m.Running 0 := ⟨core, by rw [hm]; rfl, by simpa using hrun⟩
      obtain ⟨c, hc⟩ := exists_core?_clock hrunning
      have hlt := (running_of_core?_clock hc).lt
      rw [hm, List.length_singleton, Nat.lt_one_iff] at hlt
      exact hturn (hlt ▸ hc)
    rw [hcore', Option.some.inj hclock, alone, if_pos hhalted]

namespace Isolated

/-- A tick changes nothing but cores and turns. -/
theorem clock_eq (h : m.Isolated) :
    m.clock.1 = { m with cores := m.clock.1.cores, nextCore := m.clock.1.nextCore } := by
  rcases hn : m.nextRunning? with _ | ⟨c, core⟩
  · rw [clock_of_nextRunning?_eq_none hn]
  · have htick := View.tick_eq_with_core m.config m.rom m.programLen ⟨core, m.ram, m.bus⟩ h
    have hram := congrArg View.ram htick
    have hbus := congrArg View.bus htick
    dsimp only at hram hbus
    rw [clock_of_nextRunning?_eq_some hn]
    dsimp only
    rw [hram, hbus]

theorem clock (h : m.Isolated) : m.clock.1.Isolated := by
  rw [h.clock_eq]
  exact h

theorem alone_clock (h : m.Isolated) : m.clock.1.alone = m.alone := by
  rw [h.clock_eq]
  rfl

/-! ## Runs -/

/-- A run changes nothing but cores and turns. -/
theorem after_eq (h : m.Isolated) (n : Nat) :
    m.after n = { m with cores := (m.after n).cores, nextCore := (m.after n).nextCore } := by
  induction n generalizing m with
  | zero => rfl
  | succ n ih =>
    rw [after, ih h.clock, h.clock_eq]

/-- A core is determined by the number of ticks it has had. -/
theorem cores_after (h : m.Isolated) (i n : Nat) :
    (m.after n).cores[i]? = m.cores[i]?.map m.alone^[m.selections i n] := by
  induction n generalizing m with
  | zero => simp [after, selections, ticks]
  | succ n ih =>
    rw [after, ih h.clock, h.alone_clock, cores_clock, selections_succ]
    by_cases hturn : m.clock.2.core? = some i
    · rw [if_pos hturn, if_pos hturn, Option.map_map, ← Function.iterate_succ]
    · rw [if_neg hturn, if_neg hturn, Nat.add_zero]

/-- The only core of a machine has all of its ticks. -/
theorem cores_after_single (h : m.Isolated) {core : Core} (hm : m.cores = [core]) (n : Nat) :
    (m.after n).cores = [m.alone^[n] core] := by
  induction n generalizing m core with
  | zero => exact hm
  | succ n ih =>
    rw [after, ih h.clock (cores_clock_single hm), h.alone_clock, ← Function.iterate_succ_apply]

end Isolated

/-! ## Loaded programs -/

omit [PortBus Bus] in
/-- After a reset all cores are alike. -/
theorem reset_eq (m : Machine Bus) :
    m.reset =
      { m with
        cores := List.replicate m.cores.length (Core.initial m.config.registers)
        nextCore := 0 } := by
  rw [reset, List.map_const']

omit [PortBus Bus] in
theorem reset_reset (m : Machine Bus) : m.reset.reset = m.reset := by
  rw [reset_eq m.reset, reset_eq m]
  simp

/-- A reset undoes a run of an isolated machine. -/
theorem Isolated.reset_after (h : m.Isolated) (n : Nat) : (m.after n).reset = m.reset := by
  rw [reset_eq, reset_eq, length_cores_after, h.after_eq]

omit [PortBus Bus] in
theorem isolated_install {stream : List Instruction} {image : Image}
    (h : Image.ofStream? m.config stream = .ok image)
    (hstream : ∀ op operands, .code op operands ∈ stream → op.changesShared = false) :
    (m.install image).Isolated := by
  intro a decoded ha
  obtain ⟨op, operands, hmem, rfl⟩ := (executes_install h).cells a decoded ha
  exact ⟨op, rfl, hstream op operands hmem⟩

/-- What a core does alone does not depend on the number of cores. -/
theorem alone_install_blank (config : Config) (bus : Bus) (image : Image) (count : Nat) :
    ((blank { config with cores := count } bus).install image).alone =
      ((blank config bus).install image).alone := rfl

omit [PortBus Bus] in
theorem cores_install_blank (config : Config) (bus : Bus) (image : Image) :
    ((blank config bus).install image).cores =
      List.replicate config.cores (Core.initial config.registers) := by
  simp [install, reset, blank]

/-- If a program stores nothing and uses no port, its cores do not interfere: each of them is as
    the only core of a machine that has as many ticks as it, and a tick of one changes no other.
    As memory and bus stay as they are, the same holds of the run after any reset. -/
theorem noninterference {config : Config} {bus : Bus} {stream : List Instruction}
    {m₀ m : Machine Bus}
    (hstream : ∀ op operands, .code op operands ∈ stream → op.changesShared = false)
    (hcreate : create config bus = .ok m₀) (hload : m₀.load stream = (m, .ok ())) :
    (∃ s₀ s, create { config with cores := 1 } bus = .ok s₀ ∧ s₀.load stream = (s, .ok ()) ∧
      ∀ i < config.cores, ∀ n, ∃ core, (m.after n).cores[i]? = some core ∧
        (s.after (m.selections i n)).cores = [core]) ∧
    (∀ n i outcome, (m.after n).clock.2 = .ran i outcome →
      ∀ j ≠ i, (m.after (n + 1)).cores[j]? = (m.after n).cores[j]?) ∧
    ∀ n, (m.after n).reset = m := by
  obtain ⟨hvalid, rfl⟩ := create_eq_ok_iff.1 hcreate
  obtain ⟨image, himage, rfl⟩ := load_eq_ok_iff.1 hload
  have hm := isolated_install himage hstream
  refine ⟨?_, fun n i outcome hturn j hj => ?_, fun n => ?_⟩
  · have hs := isolated_install (m := blank { config with cores := 1 } bus) himage hstream
    refine ⟨blank { config with cores := 1 } bus, _, create_eq_ok_iff.2 ⟨?_, rfl⟩,
      load_eq_ok_iff.2 ⟨image, himage, rfl⟩, fun i hi n => ?_⟩
    · exact ⟨hvalid.wordBits_pos, hvalid.wordBits_le, hvalid.registers_pos, Nat.one_pos,
        hvalid.codeWords_pos⟩
    · have hcores := cores_install_blank config bus image
      have hcore := cores_install_blank { config with cores := 1 } bus image
      refine ⟨_, ?_, hs.cores_after_single hcore _⟩
      -- both cores start alike, and do the same with as many ticks
      rw [hm.cores_after, hcores, List.getElem?_replicate_of_lt hi, alone_install_blank]
      rfl
  · rw [after_succ]
    refine cores_clock_of_ne ?_
    rw [hturn]
    exact fun he => hj (Option.some.inj he).symm
  · rw [hm.reset_after]
    exact reset_reset _

/-- A machine of two cores. -/
def pair : Config := { registers := 2, ramWords := 8, cores := 2 }

/-- Counts down from 2, stops at a breakpoint, and then faults: nothing was pushed. -/
def faltering : List Instruction :=
  let again := Label.anonymous 0
  [.code .imm [.register 1, .immediate 2], .note (.markLabel again),
    .code .dec [.register 1, .register 1], .code .bnz [.label again], .code .brk [],
    .code .pop [.register 1]]

/-- After 13 ticks the first core has had the tick in which it faults, and the second has not. -/
theorem noninterference_faltering :
    (∀ op operands, .code op operands ∈ faltering → op.changesShared = false) ∧
      ((blank pair QueueBus.empty).load faltering).2.isOk = true ∧
      let m := (blank pair QueueBus.empty).loaded faltering
      (∃ s₀ s, create { pair with cores := 1 } QueueBus.empty = .ok s₀ ∧
        s₀.load faltering = (s, .ok ()) ∧
        ∀ i < 2, ∀ n, ∃ core, (m.after n).cores[i]? = some core ∧
          (s.after (m.selections i n)).cores = [core]) ∧
      m.selections 0 13 = 7 ∧ m.selections 1 13 = 6 ∧
      (m.after 13).cores.map Core.halted = [true, false] ∧ m.breakpoints 13 = 2 := by
  have hstream : ∀ op operands, .code op operands ∈ faltering → op.changesShared = false := by
    intro op operands h
    simp only [faltering, List.mem_cons, Instruction.code.injEq, List.not_mem_nil] at h
    grind [Opcode.changesShared]
  have hload : ((blank pair QueueBus.empty).load faltering).2.isOk = true := by decide +kernel
  have h := noninterference hstream (show create pair QueueBus.empty = _ by decide +kernel)
    (load_eq_loaded hload)
  exact ⟨hstream, hload, h.1, by decide +kernel, by decide +kernel, by decide +kernel,
    by decide +kernel⟩

end Machine
end Wordcode
