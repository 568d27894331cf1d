import Wordcode.Proofs.Integrity
import Wordcode.Proofs.Scheduling

/-!
# Faults leave no trace

An instruction reads all of its operands before it does anything. What can still fail after that
is the use of a port and the write to the destination, and the latter comes too late: the result
is in the flags by then, the popped word is gone and the input is consumed.

So a fault changes nothing as long as there is always a place for the result, and a failed use of
the bus changes nothing on the bus. The first is a matter of the instructions in memory: one that
was built with operands that suit its opcode names a register as its destination, and if the
machine has this register, the write cannot fail. Which instructions are in memory is decided by
what was loaded, since nothing that runs puts an instruction there.

* `Effect.perform_of_isFault`: an effect with a place for its result fails before it begins;
* `View.tick_of_isFault`: a tick that faults halts the core and does nothing else;
* `Machine.Equipped`: all instructions in memory suit the machine, whatever is done with it
  (`Machine.Equipped.acts`);
* `Machine.clock_of_fault`: what a machine is after a fault.
-/

namespace Wordcode

open Instruction

/-! ## Buses -/

/-- A use of the bus that fails leaves the bus as it was. -/
class LawfulPortBus (Bus : Type) [PortBus Bus] : Prop where
  eq_of_read {bus bus' : Bus} {port : Nat} {error : PortError} :
    PortBus.read bus port = (.error error, bus') → bus' = bus
  eq_of_write {bus bus' : Bus} {port word : Nat} {error : PortError} :
    PortBus.write bus port word = (.error error, bus') → bus' = bus

instance : LawfulPortBus NullBus where
  eq_of_read h := (Prod.mk.inj h).2.symm
  eq_of_write h := (Prod.mk.inj h).2.symm

/-- A bus with queues looks for the port first. -/
instance : LawfulPortBus QueueBus where
  eq_of_read {bus _ port _} h := by
    simp only [PortBus.read, QueueBus.read] at h
    split at h <;> cases h
    rfl
  eq_of_write {bus _ port _ _} h := by
    simp only [PortBus.write, QueueBus.write] at h
    split at h <;> cases h
    rfl

variable {Bus : Type}

/-! ## Instructions -/

theorem View.isFault_assignTo {v : View Bus} {destination : Except FaultKind Nat} {word : Nat}
    (h : ∃ t < v.core.registers.size, destination = .ok t) :
    (v.assignTo destination word).2.isFault = false := by
  obtain ⟨t, ht, rfl⟩ := h
  rw [assignTo_ok, assign_of_lt ht]
  rfl

variable [PortBus Bus]

/-- An effect with a place for its result fails before it changes anything. -/
theorem Effect.perform_of_isFault [LawfulPortBus Bus] {e : Effect} {v : View Bus} {mask : Nat}
    (h : e.Writes v.core.registers.size) (hf : (e.perform mask v).2.isFault = true) :
    (e.perform mask v).1 = v := by
  have hassign (core : Core) (bus : Bus) (hcore : core.registers = v.core.registers)
      {destination : Except FaultKind Nat} (hd : ∃ t < v.core.registers.size, destination = .ok t)
      (word : Nat) :
      (({ v with core, bus } : View Bus).assignTo destination word).2.isFault = false :=
    View.isFault_assignTo (hcore ▸ hd)
  cases e with
  | compute destination result =>
    have := hassign { v.core with flags := result } v.bus rfl (h _ rfl) (result &&& mask)
    exact absurd hf (Bool.eq_false_iff.1 this)
  | assign t word =>
    have := hassign v.core v.bus rfl (h _ rfl) word
    exact absurd hf (Bool.eq_false_iff.1 this)
  | pop destination =>
    simp only [perform] at hf ⊢
    split at hf
    · rfl
    · next word stack _ =>
      have := hassign { v.core with stack } v.bus rfl (h _ rfl) word
      exact absurd hf (Bool.eq_false_iff.1 this)
  | receive destination port =>
    rcases hr : PortBus.read v.bus port with ⟨error | word, bus⟩ <;>
      simp only [perform, hr] at hf ⊢
    · rw [LawfulPortBus.eq_of_read hr]
    · have := hassign v.core bus rfl (h _ rfl) (word &&& mask)
      exact absurd hf (Bool.eq_false_iff.1 this)
  | send port word =>
    rcases hr : PortBus.write v.bus port word with ⟨error | _, bus⟩ <;>
      simp only [perform, hr] at hf ⊢
    · rw [LawfulPortBus.eq_of_write hr]
    · cases hf
  | leave =>
    simp only [perform] at hf
    split at hf <;> cases hf
  | _ => cases hf

/-- An instruction in memory that comes from a suited one. -/
def Decoded.IsSuited (count : Nat) (d : Decoded) : Prop :=
  ∃ resolution mask op operands, Suited count op operands ∧
    d = .ofInstruction resolution mask (.code op operands)

namespace Decoded

variable {config : Config} {ram : Array Cell} {core : Core} {d : Decoded} {e : Effect}

/-- An effect puts a word where the first slot says, and only instructions with a place for a
    register there have such an effect. -/
theorem destination_of_effectOf {op : Opcode} {destination : Except FaultKind Nat}
    (h : d.effectOf config ram core op = .ok e) (he : e.destination? = some destination) :
    op.slots[0]? = some .register ∧ d.destination 1 = destination := by
  cases yields_of_effectOf h with
  | compute _ hs =>
    cases he
    exact ⟨hs, rfl⟩
  | assign _ hs hd =>
    cases he
    exact ⟨hs, hd⟩
  | load _ hd =>
    cases he
    exact ⟨rfl, hd⟩
  | pop | receive =>
    cases he
    exact ⟨rfl, rfl⟩
  | _ => cases he

/-- A suited instruction changes nothing if it faults. -/
theorem execute_of_isFault [LawfulPortBus Bus] {v : View Bus}
    (hd : d.IsSuited v.core.registers.size) (hf : (d.execute config v).2.isFault = true) :
    (d.execute config v).1 = v := by
  obtain ⟨resolution, mask, op, operands, hsuited, rfl⟩ := hd
  unfold execute at hf ⊢
  split at hf
  · next e he =>
    refine Effect.perform_of_isFault (fun destination hdestination => ?_) hf
    obtain ⟨hslot, rfl⟩ : op.slots[0]? = some .register ∧ _ :=
      destination_of_effectOf he hdestination
    exact hsuited.destination hslot
  · rfl

end Decoded

/-- A tick that faults halts the core, and does nothing else. -/
theorem View.tick_of_isFault [LawfulPortBus Bus] {config : Config} {rom : Array Cell} {size : Nat}
    {v : View Bus}
    (hd : ∀ (a : Nat) (decoded : Decoded),
      (if config.executeFromRom then rom else v.ram)[a]? = some (.code decoded) →
        decoded.IsSuited v.core.registers.size)
    (hf : (v.tick config rom size).2.isFault = true) :
    (v.tick config rom size).1 = v.halt := by
  rcases v.tick_cases config rom size with hu | ⟨decoded, hip, hcode, -⟩
  · exact hu
  · have hstep : v.step config rom size = decoded.execute config v := by
      rw [step, if_neg (by omega), hcode]
    rcases hx : decoded.execute config v with ⟨u, outcome⟩
    have hkept (hfault : (decoded.execute config v).2.isFault = true) :=
      Decoded.execute_of_isFault (hd _ decoded hcode) hfault
    rw [hx] at hkept
    rw [tick, hstep, hx] at hf ⊢
    cases outcome with
    | faulted kind => exact congrArg halt (hkept rfl)
    | executed | breakpoint => cases hf

/-! ## Machines -/

/-- Every instruction of a stream has operands that suit its opcode, and none of them is a register
    from `count` on. -/
def Suits (count : Nat) (stream : List Instruction) : Prop :=
  ∀ op operands, .code op operands ∈ stream → Suited count op operands

namespace Machine

omit [PortBus Bus] in
/-- Every core has all registers of the configuration, and every instruction in memory suits
    them. -/
structure Equipped (m : Machine Bus) : Prop where
  cores : ∀ core ∈ m.cores, core.registers.size = m.config.registers
  cells : ∀ (a : Nat) (decoded : Decoded), m.codeStore[a]? = some (.code decoded) →
    decoded.IsSuited m.config.registers

variable {m m₀ s : Machine Bus} {stream : List Instruction}

omit [PortBus Bus] in
theorem equipped_of_load (h : m₀.load stream = (m, .ok ()))
    (hs : Suits m₀.config.registers stream) : m.Equipped := by
  obtain ⟨image, hi, rfl⟩ := load_eq_ok_iff.1 h
  have hx := executes_install hi
  refine ⟨hx.cores, fun a decoded ha => ?_⟩
  obtain ⟨op, operands, hmem, rfl⟩ := hx.cells a decoded ha
  exact ⟨_, _, op, operands, hs op operands hmem, rfl⟩

namespace Equipped

theorem clock (h : m.Equipped) : m.clock.1.Equipped := by
  obtain ⟨hconfig, hcores, hcells⟩ := keeps_clock m
  refine ⟨fun core hc => ?_, fun a decoded ha => ?_⟩
  · obtain ⟨core', hc', hsize⟩ := hcores core hc
    rw [hsize, h.cores core' hc', hconfig]
  · rw [hconfig]
    exact h.cells a decoded (hcells a decoded ha)

/-- A machine stays equipped, if what is loaded suits it. -/
theorem act (h : m.Equipped) {action : Action Bus}
    (ha : ∀ stream, action = .load stream → Suits m.config.registers stream) :
    (m.act action).Equipped ∧ (m.act action).config = m.config := by
  cases action with
  | load stream =>
    rw [Machine.act]
    rcases hl : m.load stream with ⟨m', error | _⟩
    · obtain ⟨-, rfl⟩ := load_eq_error_iff.1 hl
      exact ⟨h, rfl⟩
    · refine ⟨equipped_of_load hl (ha stream rfl), ?_⟩
      obtain ⟨image, -, rfl⟩ := load_eq_ok_iff.1 hl
      rfl
  | clock => exact ⟨h.clock, (keeps_clock m).1⟩
  | reset =>
    refine ⟨⟨fun core hc => ?_, h.cells⟩, rfl⟩
    obtain ⟨_, -, rfl⟩ := List.mem_map.1 hc
    exact Array.size_replicate
  | host bus => exact ⟨⟨h.cores, h.cells⟩, rfl⟩

theorem acts (h : m.Equipped) {actions : List (Action Bus)}
    (ha : ∀ stream, .load stream ∈ actions → Suits m.config.registers stream) :
    (m.acts actions).Equipped := by
  induction actions generalizing m with
  | nil => exact h
  | cons action actions ih =>
    obtain ⟨hm, hconfig⟩ := h.act fun stream (hs : action = .load stream) =>
      ha stream (by simp [hs])
    refine ih hm fun stream hs => ?_
    rw [hconfig]
    exact ha stream (List.mem_cons_of_mem _ hs)

/-- After a fault the machine is as before, but for the core that is halted and the turn. -/
theorem clock_of_isFault [LawfulPortBus Bus] (h : m.Equipped) {c : Nat} {core : Core}
    (hn : m.nextRunning? = some (c, core)) (hf : m.clock.2.isFault = true) :
    m.clock.1 =
      { m with
        cores := m.cores.set c { core with halted := true }
        nextCore := (c + 1) % m.cores.length } := by
  have hsize := h.cores core (mem_of_nextRunning? hn)
  rw [clock_of_nextRunning?_eq_some hn] at hf ⊢
  have htick := View.tick_of_isFault (v := ⟨core, m.ram, m.bus⟩) (hsize ▸ h.cells) hf
  dsimp only
  rw [htick]
  rfl

end Equipped

/-- Let a machine be loaded with a program of well-formed instructions that name no register it
    lacks, and then be clocked, reset, worked on by its host and loaded with other such programs,
    in any order. If a tick faults, the fault is that of the core whose turn it was; this core is
    halted, the turn passes on, and nothing else is changed, in this core or anywhere. -/
theorem clock_of_fault [LawfulPortBus Bus] (hload : m₀.load stream = (m, .ok ()))
    (hstream : Suits m₀.config.registers stream) {actions : List (Action Bus)}
    (hactions : ∀ stream, .load stream ∈ actions → Suits m₀.config.registers stream)
    (hs : m.acts actions = s) {c : Nat} {kind : FaultKind}
    (hf : s.clock.2 = .ran c (.faulted kind)) :
    ∃ core, s.nextRunning? = some (c, core) ∧ s.cores[c]? = some core ∧ core.halted = false ∧
      s.clock.1 =
        { s with
          cores := s.cores.set c { core with halted := true }
          nextCore := (c + 1) % s.cores.length } := by
  have hm := equipped_of_load hload hstream
  have hconfig : m.config = m₀.config := by
    obtain ⟨image, -, rfl⟩ := load_eq_ok_iff.1 hload
    rfl
  have hequipped : s.Equipped := hs ▸ hm.acts (by rwa [hconfig])
  obtain ⟨core, hn⟩ := exists_of_core?_clock (m := s) (c := c) (by rw [hf]; rfl)
  obtain ⟨⟨hcore, hrun⟩, -⟩ := first_of_nextRunning? hn
  exact ⟨core, hn, hcore, hrun, hequipped.clock_of_isFault hn (by rw [hf]; rfl)⟩

/-- Reads a port that there is, keeps what it read on the stack and in the flags, and then reads
    one that there is not. -/
def missing : List Instruction :=
  [.code .inp [.register 1, .immediate 3], .code .psh [.register 1],
    .code .add [.register 1, .register 1, .immediate 250], .code .inp [.register 1, .immediate 4]]

/-- Two cores get as far as the port that is missing. In between, a program that is too large is
    refused, and the host feeds the port that there is. -/
def feeding : List (Action QueueBus) :=
  [.host { ports := [{ number := 3, input := [8, 9] }] }, .clock, .clock,
    .load (List.replicate 9 (.code .nop [])), .clock, .clock, .clock, .clock,
    .host { ports := [{ number := 3, input := [5] }] }]

/-- The second core still runs when the first one fails at the port that is missing: nothing but the
    first core changes, and it keeps the flags and the stack that it had. -/
theorem clock_of_fault_missing :
    let m₀ := blank { registers := 2, ramWords := 8, cores := 2 } QueueBus.empty
    let s := (m₀.loaded missing).acts feeding
    (m₀.load missing).2.isOk = true ∧ Suits 2 missing ∧
      (∀ stream, .load stream ∈ feeding → Suits 2 stream) ∧
      s.clock.2 = .ran 0 (.faulted (.unsupportedPort 4)) ∧
      s.cores[0]? = some { ip := 3, registers := #[0, 2], flags := 258, stack := [8] } ∧
      ∃ core, s.nextRunning? = some (0, core) ∧ s.cores[0]? = some core ∧ core.halted = false ∧
        s.clock.1 =
          { s with
            cores := s.cores.set 0 { core with halted := true }
            nextCore := (0 + 1) % s.cores.length } := by
  intro m₀ s
  have hok : (m₀.load missing).2.isOk = true := by decide +kernel
  have hsuits : Suits 2 missing := by
    intro op operands h
    simp only [missing, List.mem_cons, Instruction.code.injEq, List.not_mem_nil, or_false] at h
    rcases h with ⟨rfl, rfl⟩ | ⟨rfl, rfl⟩ | ⟨rfl, rfl⟩ | ⟨rfl, rfl⟩ <;>
      exact ⟨by decide, fun j hj => by simp at hj; omega⟩
  have hactions : ∀ stream, .load stream ∈ feeding → Suits 2 stream := by
    intro stream hmem op operands h
    simp only [feeding, List.mem_cons, List.not_mem_nil, or_false, false_or, reduceCtorEq,
      Action.load.injEq] at hmem
    subst hmem
    cases List.eq_of_mem_replicate h
    exact ⟨by decide, fun j hj => absurd hj List.not_mem_nil⟩
  have hf : s.clock.2 = .ran 0 (.faulted (.unsupportedPort 4)) := by decide +kernel
  exact ⟨hok, hsuits, hactions, hf, by decide +kernel,
    clock_of_fault (load_eq_loaded hok) hsuits hactions rfl hf⟩

end Machine
end Wordcode
