import Wordcode.Proofs.Lowering.Calls
import Wordcode.Proofs.Scheduling
import Wordcode.Source.Assembly

/-!
# Returns from the outermost level

A core that returns although it was not called halts. A lowered return takes its address from the
value stack, and where there is none it faults: the lowered program does not halt as the program
does. That is all there is to it. A program with calls only halts when it is lowered, unless it
ends by such a return, and then the lowered program faults in its place.

* `Machine.HaltsWithin.faultless_ticks`: a machine that halts without a fault never faults;
* `Lowering.Plan.tick_leave`: the fault in the place of a return;
* `Lowering.Plan.ticks`: a run up to the first return without a call;
* `Lowering.exists_halts_lower_iff`: which programs halt when they are lowered;
* `Lowering.lowered_return_faults`: the shortest program that does not.
-/

namespace Wordcode

variable {Bus : Type}

open Instruction

/-! ## Faults -/

/-- A machine that halts without a fault never faults. -/
theorem Machine.HaltsWithin.faultless_ticks [PortBus Bus] {m : Machine Bus} {n : Nat}
    (h : m.HaltsWithin n) (n' : Nat) : ∀ tick ∈ m.ticks n', tick.isFault = false := by
  induction n' generalizing m n with
  | zero => exact fun _ ht => absurd ht List.not_mem_nil
  | succ n' ih =>
    cases n with
    | zero =>
      -- All cores are halted already, and so they are after the tick.
      have hclock : m.clock = (m, .idle) :=
        clock_of_nextRunning?_eq_none (nextRunning?_eq_none_iff.2 h.halted)
      rw [ticks, hclock, List.forall_mem_cons]
      exact ⟨rfl, ih h⟩
    | succ n =>
      have hfirst := h.faultless _ List.mem_cons_self
      rw [ticks, List.forall_mem_cons]
      exact ⟨hfirst, ih (m := m.clock.1) (n := n)
        ⟨h.halted, fun tick ht => h.faultless tick (List.mem_cons_of_mem _ ht)⟩⟩

namespace Code

variable {code : Code} {v v' : View Bus} {o : Outcome} {os : List Outcome}

theorem tick_of_fault [PortBus Bus] {decoded : Decoded} {kind : FaultKind}
    (h : code.fetch v.core.ip = some (.code decoded))
    (he : decoded.execute code.config v = (v', .faulted kind)) :
    code.tick v = (v'.halt, .faulted kind) := by
  rw [tick, View.tick, step_of_fetch h]
  simp only [he]

/-- The core is about to return although it was not called. -/
def Leaves (code : Code) (v : View Bus) : Prop :=
  v.core.halted = false ∧ v.core.calls = [] ∧
    code.fetch v.core.ip = some (.code (code.decode .ret []))

variable [PortBus Bus]

/-- Along ticks, the core comes to a return although it was not called. -/
def LeavesWithin (code : Code) (v : View Bus) (os : List Outcome) : Prop :=
  ∃ k < os.length, ∃ u, code.Ticks v (os.take k) u ∧ code.Leaves u

theorem not_leavesWithin_nil : ¬code.LeavesWithin v [] := fun ⟨_, hk, _⟩ => absurd hk (by simp)

/-- It comes to such a return by its first tick, or by one after that. -/
theorem leavesWithin_cons (hh : v.core.halted = false) (ht : code.tick v = (v', o)) :
    code.LeavesWithin v (o :: os) ↔ code.Leaves v ∨ code.LeavesWithin v' os := by
  constructor
  · rintro ⟨k, hk, u, hts, hu⟩
    cases k with
    | zero =>
      cases hts
      exact .inl hu
    | succ k =>
      rw [List.take_succ_cons] at hts
      cases hts with
      | cons _ ht' hts =>
        rw [ht] at ht'
        cases ht'
        exact .inr ⟨k, Nat.lt_of_succ_lt_succ hk, u, hts, hu⟩
  · rintro (hv | ⟨k, hk, u, hts, hu⟩)
    · exact ⟨0, Nat.zero_lt_succ _, v, .nil v, hv⟩
    · exact ⟨k + 1, Nat.succ_lt_succ hk, u, .cons hh ht hts, hu⟩

end Code

/-! ## Ticks -/

namespace Lowering

open Pieces

variable {code code' : Code} {settings : Peephole} {context : Expansion.Context} {first : Nat}
  {stream : List Instruction} {v w v' : View Bus} {os : List Outcome}

theorem Plan.carries (h : Plan code code' settings context first stream) :
    code.Carries stream :=
  source_simplifiedBlocks settings context first stream ▸ h.original

variable [PortBus Bus]

/-- Without an address on the value stack, a lowered return faults. -/
theorem Plan.tick_leave (h : Plan code code' settings context first stream)
    (hm : Mirrored code (simplifiedBlocks settings context first stream) context.scratch v w)
    (hl : code.Leaves v) : ∃ w', code'.tick w = (w', .faulted .stackUnderflow) := by
  obtain ⟨-, hcalls, hfetch⟩ := hl
  have hstack : w.core.stack = [] := by
    have hsites := hm.sites
    rwa [hcalls, List.forall₂_nil_left_iff] at hsites
  rcases cases_of_corresponds hm.ip fun _ => extent_of_mem_simplifiedBlocks with
    ⟨hv, -⟩ | ⟨before, p, after, hp, hv, hw, hpos⟩
  · rw [Code.size_le_of_fetch (by rw [h.original.size, hv])] at hfetch
    cases hfetch
  obtain ⟨i, hmem, n, rfl⟩ := mem_simplifiedBlocks (p := p) (by rw [hp]; simp)
  obtain ⟨hold, hold'⟩ := holds_piece h.original h.lowered hp
  rw [← hv] at hold
  -- Nothing but a return stands where one is fetched.
  obtain rfl : i = .code .ret [] := by
    cases i with
    | note => exact absurd hpos (Nat.lt_irrefl 0)
    | code op operands =>
      cases hdata : op.isData with
      | true =>
        obtain ⟨word, hword⟩ := (stands_data_iff hdata).1 hold.1
        cases hfetch.symm.trans hword
      | false =>
        have hcell := hfetch.symm.trans ((Code.holds_code_cons hdata).1 hold).1
        rw [Option.some.injEq, Cell.code.injEq] at hcell
        cases show Operation.code .ret = .code op from congrArg Decoded.operation hcell
        obtain rfl : operands = [] := List.map_eq_nil_iff.1 (congrArg Decoded.slots hcell).symm
        rfl
  rw [← hw, instruction_return] at hold'
  have hblock := hold'.alone_note
  rw [flatMap_alone_code (by decide)] at hblock
  have heffect : (code'.decode .pop [.register context.scratch]).effectOf code'.config w.ram w.core
      .pop = .error .stackUnderflow := by
    simp only [Decoded.effectOf, hstack]
    rfl
  have hx : (code'.decode .pop [.register context.scratch]).execute code'.config w =
      (w, .faulted .stackUnderflow) := by
    simp only [Decoded.execute, Decoded.effect, Code.decode_operation, heffect]
  exact ⟨_, Code.tick_of_fault ((Code.holds_code_cons rfl).1 hblock).1 hx⟩

/-- Up to the first return without a call, every tick is matched. There, the lowered program
    faults. -/
theorem Plan.ticks (h : Plan code code' settings context first stream)
    (hts : code.Ticks v os v') (hf : ∀ o ∈ os, o.isFault = false)
    (hwithin : v.Within code.config.registers code.config.mask)
    (hm : Mirrored code (simplifiedBlocks settings context first stream) context.scratch v w) :
    ∃ os' w', (∀ o ∈ os', o.isFault = false) ∧
      ((¬code.LeavesWithin v os ∧ code'.Ticks w os' w' ∧
          Mirrored code (simplifiedBlocks settings context first stream) context.scratch v' w') ∨
        (code.LeavesWithin v os ∧ code'.Ticks w (os' ++ [.faulted .stackUnderflow]) w')) := by
  induction hts generalizing w with
  | nil v =>
    exact ⟨[], w, fun _ ho => absurd ho List.not_mem_nil,
      .inl ⟨Code.not_leavesWithin_nil, .nil w, hm⟩⟩
  | @cons v v₁ v' o os hh ht hts ih =>
    rw [List.forall_mem_cons] at hf
    rw [Code.leavesWithin_cons hh ht]
    by_cases hl : code.Leaves v
    · obtain ⟨w', hw'⟩ := h.tick_leave hm hl
      exact ⟨[], w', fun _ ho => absurd ho List.not_mem_nil,
        .inr ⟨.inl hl, .single (hm.halted.trans hh) hw'⟩⟩
    · obtain ⟨os₀, w₁, hw₁, hobs, hm₁⟩ :=
        h.tick hm hwithin.size (fun hfetch hcalls => hl ⟨hh, hcalls, hfetch⟩) hh ht hf.1
      have hf₀ : ∀ o ∈ os₀, o.isFault = false :=
        Outcome.isFault_of_observed_eq hobs (List.forall_mem_singleton.2 hf.1)
      obtain ⟨os', w', hf', hrest⟩ := ih hf.2 (hwithin.tick h.carries h.direct ht hf.1) hm₁
      refine ⟨os₀ ++ os', w', List.forall_mem_append.2 ⟨hf₀, hf'⟩, ?_⟩
      rcases hrest with ⟨hstays, hw', hm'⟩ | ⟨hleaves, hw'⟩
      · exact .inl ⟨by simp [hl, hstays], hw₁.append hw', hm'⟩
      · rw [List.append_assoc]
        exact .inr ⟨.inr hleaves, hw₁.append hw'⟩

end Lowering

/-! ## Runs -/

namespace Machine

variable {m : Machine Bus} {code : Code} {stream : List Instruction} {u v v' : View Bus}
  {os : List Outcome} {n : Nat}

/-- A machine sees a return without a call where its program has one. -/
theorem Runs.leaves_iff (h : m.Runs code) (hc : code.Carries stream)
    (hw : ∀ i ∈ stream, i.WellFormed) :
    (m.ofView u).leaves u.core = true ↔ code.Leaves u := by
  refine ⟨fun hl => ?_, fun ⟨hh, hcalls, hfetch⟩ => h.leaves_of_fetch hh hcalls hfetch⟩
  simp only [leaves, ofView, Bool.and_eq_true, Bool.not_eq_true', List.isEmpty_iff] at hl
  obtain ⟨⟨⟨hh, hcalls⟩, hlt⟩, hcell⟩ := hl
  split at hcell
  · next d hd =>
    have hfetch : code.fetch u.core.ip = some (.code d) := by
      rw [Code.fetch, ← h.size, if_pos (of_decide_eq_true hlt), ← h.rom, hd]
    obtain ⟨op, operands, hmem, -, rfl⟩ := hc.cells _ _ hfetch
    cases eq_of_beq hcell
    obtain rfl := List.eq_nil_of_length_eq_zero (hw _ hmem).length_operands
    exact ⟨hh, hcalls, hfetch⟩
  · cases hcell

variable [PortBus Bus]

/-- Clocks that let a core halt bring it to a return without a call if its ticks do. -/
theorem Runs.leavesWithin_iff (h : m.Runs code) (hc : code.Carries stream)
    (hw : ∀ i ∈ stream, i.WellFormed) (hv : m = m.ofView v) (hts : code.Ticks v os v')
    (hlen : os.length ≤ n) (hh : v'.core.halted = true) :
    code.LeavesWithin v os ↔
      ∃ k < n, ∃ core ∈ (m.after k).cores, (m.after k).leaves core = true := by
  have hafter {os' : List Outcome} {u : View Bus} (h' : code.Ticks v os' u) :
      m.after os'.length = m.ofView u := by
    have := (after_of_ticks h h').1
    rwa [← hv] at this
  constructor
  · rintro ⟨k, hk, u, hu, hl⟩
    have hak := hafter hu
    rw [List.length_take, Nat.min_eq_left (Nat.le_of_lt hk)] at hak
    refine ⟨k, by omega, u.core, by rw [hak]; exact List.mem_singleton_self _, ?_⟩
    rwa [hak, h.leaves_iff hc hw]
  · rintro ⟨k, hk, core, hcore, hl⟩
    by_cases hlt : k < os.length
    · obtain ⟨u, hu⟩ := hts.exists_take k
      have hak := hafter hu
      rw [List.length_take, Nat.min_eq_left (Nat.le_of_lt hlt)] at hak
      rw [hak] at hcore hl
      cases List.mem_singleton.1 hcore
      exact ⟨k, hlt, u, hu, (h.leaves_iff hc hw).1 hl⟩
    · -- After its ticks, the core is halted.
      have hak : m.after k = m.ofView v' := by
        rw [show k = os.length + (k - os.length) by omega, after_add, hafter hts,
          (ofView_of_halted hh _).1]
      rw [hak] at hcore hl
      cases List.mem_singleton.1 hcore
      cases hh.symm.trans ((h.leaves_iff hc hw).1 hl).1

end Machine

namespace Lowering

open Pieces

variable {config : Config} {settings : Peephole} {program : Program} {lowered : Lowered}
  {m m₁ m₂ : Machine Bus} {n : Nat}

/-- A program with calls only and the lowered one, loaded into the same machine. -/
theorem exists_plan (hlower : lower config settings program = .ok lowered)
    (htier : config.maxTier = .core) (hm : m.SingleCore)
    (hwell : ∀ i ∈ program.instructions, i.WellFormed)
    (hdirect : ∀ i ∈ program.instructions, i.Direct) (hcalls : CallsOnly program.instructions)
    (hregisters : lowered.registersRequired ≤ m.config.registers)
    (hl₁ : m.load program.instructions = (m₁, .ok ()))
    (hl₂ : m.load lowered.program.instructions = (m₂, .ok ())) :
    ∃ code code', Plan code code' settings ⟨scratch program, config.wordBits⟩
        program.labels.nextId program.instructions ∧ code.config = m.config ∧
      m₁.Runs code ∧ m₁ = m₁.ofView (.initial m.config m.bus) ∧
      m₂.Runs code' ∧ m₂ = m₂.ofView (.initial m.config m.bus) := by
  obtain ⟨code, hcode, hc, hr, hinit⟩ := Machine.exists_code_of_load hm hl₁
  obtain ⟨code', hcode', hc', hr', hinit'⟩ := Machine.exists_code_of_load hm hl₂
  obtain ⟨highest, hhighest, hrequired, hinstructions, -⟩ := exists_of_lower hlower
  rw [expanded, htier, stream, ← hcalls.target_simplifiedBlocks hwell] at hhighest hinstructions
  rw [hinstructions] at hc'
  refine ⟨code, code', ⟨hcode'.trans hcode.symm, ?_, hc'.of_declare, hdirect, hwell, hcalls,
    fun i hi => scratch_not_mem hi, Nat.succ_ne_zero _, fun i hi j hj => ?_⟩, hcode, hr, hinit, hr',
    hinit'⟩
  · rwa [source_simplifiedBlocks]
  · have hle := le_highestRegister hi hj
    rw [hcode]
    omega

variable [PortBus Bus]

/-- A program with calls only that halts does so when it is lowered exactly if it does not end by
    a return from the outermost level. If it does, the lowered program faults there. -/
theorem exists_halts_lower_iff (hlower : lower config settings program = .ok lowered)
    (htier : config.maxTier = .core) (hm : m.SingleCore)
    (hwell : ∀ i ∈ program.instructions, i.WellFormed)
    (hdirect : ∀ i ∈ program.instructions, i.Direct) (hcalls : CallsOnly program.instructions)
    (hregisters : lowered.registersRequired ≤ m.config.registers)
    (hl₁ : m.load program.instructions = (m₁, .ok ()))
    (hl₂ : m.load lowered.program.instructions = (m₂, .ok ())) (hn : m₁.HaltsWithin n) :
    ((∃ n', m₂.HaltsWithin n') ↔
        ∀ k < n, ∀ core ∈ (m₁.after k).cores, (m₁.after k).leaves core = false) ∧
      ((∃ k < n, ∃ core ∈ (m₁.after k).cores, (m₁.after k).leaves core = true) →
        ∃ n', (∀ tick ∈ m₂.ticks n', tick.isFault = false) ∧
          m₂.ticks (n' + 1) = m₂.ticks n' ++ [.ran 0 (.faulted .stackUnderflow)]) := by
  obtain ⟨code, code', h, hcode, hr, hinit, hr', hinit'⟩ :=
    exists_plan hlower htier hm hwell hdirect hcalls hregisters hl₁ hl₂
  obtain ⟨os, v', idle, hts, hlen, ha, htk⟩ := Machine.exists_ticks hr (.initial m.config m.bus) n
  rw [← hinit] at ha htk
  have hhalt : v'.core.halted = true := by
    rw [← Machine.isHalted_ofView m₁, ← ha]
    exact hn.halted
  have hfault (o : Outcome) (ho : o ∈ os) : o.isFault = false :=
    hn.faultless (.ran 0 o) (by rw [htk]; simp [ho])
  have hafter {os' : List Outcome} {u : View Bus}
      (hts' : code'.Ticks (.initial m.config m.bus) os' u) :
      m₂.after os'.length = m₂.ofView u ∧ m₂.ticks os'.length = os'.map (.ran 0) := by
    have := Machine.after_of_ticks hr' hts'
    rwa [← hinit'] at this
  obtain ⟨os', w', hf', hrun⟩ := h.ticks hts hfault (hcode ▸ .initial m.config m.bus)
    ⟨⟨rfl, fun _ _ => rfl, rfl, rfl, fun _ => rfl, rfl, rfl⟩, corresponds_zero, .nil⟩
  rw [hr.leavesWithin_iff h.carries hwell hinit hts (n := n) (by omega) hhalt] at hrun
  rcases hrun with ⟨hstays, hts', hm'⟩ | ⟨hleaves, hts'⟩
  · obtain ⟨ha', htk'⟩ := hafter hts'
    have hhalts : m₂.HaltsWithin os'.length := by
      refine ⟨?_, ?_⟩
      · rw [ha', Machine.isHalted_ofView]
        exact hm'.halted.trans hhalt
      · rw [htk', List.forall_mem_map]
        exact hf'
    exact ⟨iff_of_true ⟨_, hhalts⟩ (by simpa using hstays), fun hleaves => absurd hleaves hstays⟩
  · obtain ⟨u, hu⟩ := hts'.exists_take os'.length
    rw [List.take_left] at hu
    have htk' := (hafter hts').2
    rw [List.length_append, List.map_append, ← (hafter hu).2] at htk'
    refine ⟨iff_of_false ?_ (by simpa using hleaves), fun _ => ⟨os'.length, ?_, htk'⟩⟩
    · rintro ⟨n', hhalts⟩
      exact absurd (hhalts.faultless_ticks _ (.ran 0 (.faulted .stackUnderflow))
        (htk' ▸ List.mem_append_right _ List.mem_cons_self)) (by decide)
    · rw [(hafter hu).2, List.forall_mem_map]
      exact hf'

/-- A subprogram is called, and then the program returns itself. -/
def departing : Program where
  instructions :=
    [.code .cal [.label (.anonymous 0)],
      .code .ret [],
      .note (.markLabel (.anonymous 0)),
      .code .inc [.register 1, .register 1],
      .code .ret []]
  labels := { nextId := 1 }

/-- A target of the least tier that executes from ROM. -/
def departingConfig : Config :=
  { romWords := 16, executeFromRom := true, maxTier := .core }

/-- A machine for programs that return, and for what becomes of them. -/
def departingMachine : Machine QueueBus := .blank departingConfig .empty

/-- The machine with a program. -/
def native (program : Program) : Machine QueueBus := departingMachine.loaded program.instructions

/-- The machine with what becomes of a program. -/
def descended (program : Program) : Machine QueueBus :=
  departingMachine.loaded (lowering departingConfig .all program).program.instructions

/-- A program that returns from outside of calls halts, and what it is lowered to ends with a
    fault. -/
theorem exists_halts_lower_iff_departing :
    (native departing).HaltsWithin 4 ∧
      ∃ n', (∀ tick ∈ (descended departing).ticks n', tick.isFault = false) ∧
        (descended departing).ticks (n' + 1) =
          (descended departing).ticks n' ++ [.ran 0 (.faulted .stackUnderflow)] := by
  have hm : departingMachine.SingleCore := Machine.singleCore_blank (by decide) rfl rfl
  have hlower := lower_eq_ok_lowering
    (show (lower departingConfig .all departing).isOk = true by decide +kernel)
  have hcalls : CallsOnly departing.instructions := by
    refine ⟨by simp [departing], fun op operands h => ?_⟩
    simp only [departing, List.mem_cons, Instruction.code.injEq, List.not_mem_nil, or_false,
      reduceCtorEq, false_or] at h
    rcases h with ⟨rfl, -⟩ | ⟨rfl, -⟩ | ⟨rfl, -⟩ | ⟨rfl, -⟩ <;> decide
  have hregisters : (lowering departingConfig .all departing).registersRequired ≤ 8 := by
    decide +kernel
  have hl₁ : departingMachine.load departing.instructions = (native departing, .ok ()) :=
    Machine.load_eq_loaded (by decide +kernel)
  have hl₂ : departingMachine.load (lowering departingConfig .all departing).program.instructions =
      (descended departing, .ok ()) :=
    Machine.load_eq_loaded (by decide +kernel)
  have hn : (native departing).HaltsWithin 4 := by decide +kernel
  have hfaults := (exists_halts_lower_iff hlower rfl hm (by decide) (by decide) hcalls hregisters
    hl₁ hl₂ hn).2
  exact ⟨hn, hfaults (by decide +kernel)⟩

/-- A return from the outermost level, and nothing else. -/
def lone : Program where
  instructions := [.note (.maxReg 0), .note (.minRam 0), .code .ret []]

/-- The shortest program that halts, and that faults when it is lowered. -/
theorem lowered_return_faults :
    Source.assembleText "RET" = .ok lone ∧
      lower departingConfig .all lone = .ok (lowering departingConfig .all lone) ∧
      (lowering departingConfig .all lone).registersRequired ≤ departingConfig.registers ∧
      departingMachine.load lone.instructions = (native lone, .ok ()) ∧
      departingMachine.load (lowering departingConfig .all lone).program.instructions =
        (descended lone, .ok ()) ∧
      (native lone).HaltsWithin 1 ∧ ∀ n, ¬(descended lone).HaltsWithin n := by
  refine ⟨by decide +kernel, lower_eq_ok_lowering (by decide +kernel), by decide +kernel,
    Machine.load_eq_loaded (by decide +kernel), Machine.load_eq_loaded (by decide +kernel),
    by decide +kernel, fun n hn => ?_⟩
  have hfault : (descended lone).ticks 1 = [.ran 0 (.faulted .stackUnderflow)] := by decide +kernel
  have hfaultless := hn.faultless_ticks 1
  rw [hfault, List.forall_mem_singleton] at hfaultless
  cases hfaultless

end Lowering
end Wordcode
