import Wordcode.Proofs.Peephole.Rewriting
import Wordcode.Proofs.Simulation

/-!
# Peephole simplification keeps runs

A program and the one that results from a rewrite of its stream execute the same
instructions, except at the place of the rewrite. There the first pushes a word and pops it
again, while the second waits for it, and then puts the word where it is to go.

* `Peephole.Related`: the two programs are at corresponding addresses, or the first is
  between a push and its pop;
* `Peephole.Related.tick`: every tick of the first is matched by at most one of the second;
* `Peephole.halts_apply`: a simplified program loads and halts if the program does, in the
  same state and after the same breakpoints.
-/

namespace Wordcode

variable {Bus : Type}

open Instruction

/-! ## Moving words -/

/-- Putting into a register what it reads as changes nothing. -/
theorem Core.put_read {core : Core} {t word : Nat} (h : core.read t = .ok word) :
    t < core.registers.size ∧ core.put t word = core := by
  unfold read at h
  split at h
  · cases h
  · next content hc =>
    have ht := (Array.getElem?_eq_some_iff.1 hc).1
    refine ⟨ht, ?_⟩
    by_cases h0 : t = 0
    · rw [put, if_pos h0]
    · rw [if_neg h0] at h
      cases h
      have hsame : core.registers.setIfInBounds t word = core.registers := by
        refine Array.ext_getElem? fun j => ?_
        by_cases hj : j = t
        · rw [hj, Array.getElem?_setIfInBounds_self_of_lt ht, hc]
        · rw [Array.getElem?_setIfInBounds_ne (Ne.symm hj)]
      rw [put, if_neg h0, hsame]

theorem View.assign_read {v : View Bus} {t word : Nat} (h : v.core.read t = .ok word) :
    v.assign t word = ({ v with core := { v.core with ip := v.core.ip + 1 } }, .executed) := by
  obtain ⟨ht, hput⟩ := Core.put_read h
  rw [assign_of_lt ht, hput]

namespace Decoded

variable [PortBus Bus] {resolution : Resolution} {mask : Nat} {config : Config} {core : Core}
  {v u : View Bus} {o : Outcome} {x : Operand}

/-- A register that is set to zero can be set from the zero register. -/
theorem execute_mov_zero (h : 0 < v.core.registers.size)
    (hx : (ofInstruction resolution mask (.code .imm [x, .immediate 0])).execute config v = (u, o))
    (hf : o.isFault = false) :
    (ofInstruction resolution mask (.code .mov [x, .zero])).execute config v = (u, o) := by
  obtain ⟨e, he, hx⟩ := exists_effectOf_of_execute rfl hx hf
  obtain ⟨word, hword, he⟩ := bind_eq_ok_iff.1 he
  obtain ⟨t, ht, he⟩ := bind_eq_ok_iff.1 he
  have hzero : (ofInstruction resolution mask (.code .mov [x, .zero])).value v.core 2 =
      .ok word := by
    rw [← hword]
    simp [value, slot?, ofInstruction, operands, Operand.zero, Slot.decode, Core.read, h]
  have he' : (ofInstruction resolution mask (.code .mov [x, .zero])).effectOf config v.ram v.core
      .mov = .ok e :=
    bind_eq_ok_iff.2 ⟨word, hzero, bind_eq_ok_iff.2
      ⟨t, destination_ofInstruction_iff.2 (destination_ofInstruction_iff.1 ht), he⟩⟩
  rw [execute_of_effectOf rfl he', hx]

/-- An instruction in canonical form does the same, where there is a zero register. -/
theorem execute_canonical (resolution : Resolution) (mask : Nat) (settings : Peephole)
    {op : Opcode} (hop : op.isData = false) (operands : List Operand) :
    ∃ op' operands', settings.canonical (.code op operands) = .code op' operands' ∧
      op'.isData = false ∧
      ∀ (config : Config) (v u : View Bus) (o : Outcome), 0 < v.core.registers.size →
        (ofInstruction resolution mask (.code op operands)).execute config v = (u, o) →
        o.isFault = false →
        (ofInstruction resolution mask (.code op' operands')).execute config v = (u, o) := by
  unfold Peephole.canonical
  split
  · next destination he =>
    cases he
    split
    · exact ⟨.mov, _, rfl, rfl, fun _ _ _ _ => execute_mov_zero⟩
    · exact ⟨.imm, _, rfl, rfl, fun _ _ _ _ _ hx _ => hx⟩
  · exact ⟨op, operands, rfl, hop, fun _ _ _ _ _ hx _ => hx⟩

/-- A pop that does not fault puts the top of the stack into a register. -/
theorem assign_of_execute_pop {word : Nat} {stack : List Nat} (hs : v.core.stack = word :: stack)
    (hx : (ofInstruction resolution mask (.code .pop [x])).execute config v = (u, o))
    (hf : o.isFault = false) :
    ∃ t, x = .register t ∧
      ({ v with core := { v.core with stack } } : View Bus).assign t word = (u, o) := by
  obtain ⟨e, he, hx⟩ := exists_effectOf_of_execute rfl hx hf
  obtain ⟨-, rfl⟩ := effectOf_pop_eq_ok_iff.1 he
  simp only [Effect.perform, hs] at hx
  obtain ⟨t, ht, hx⟩ := View.exists_of_assignTo hx hf
  exact ⟨t, destination_ofInstruction_iff.1 ht, hx⟩

/-- What an operand reads as does not depend on the instruction it stands in. -/
theorem value_of_slot? {d d' : Decoded} {p p' word : Nat} (hs : d'.slot? p' = d.slot? p)
    (h : d.value core p = .ok word) : d'.value core p' = .ok word := by
  rw [value] at h ⊢
  rw [hs]
  split at h
  · exact h
  · exact h
  · cases h
  · cases h

/-- A move cuts what it reads to the mask. -/
theorem execute_move {op : Opcode} (hop : op = .mov ∨ op = .imm) {t word : Nat}
    (h : (ofInstruction resolution mask (.code .psh [x])).value v.core 1 = .ok word) :
    (ofInstruction resolution mask (.code op [.register t, x])).execute config v =
      v.assign t (word &&& config.mask) := by
  have hvalue : (ofInstruction resolution mask (.code op [.register t, x])).value v.core 2 =
      .ok word :=
    value_of_slot? (d := ofInstruction resolution mask (.code .psh [x])) (p := 1) rfl h
  have heffect : (ofInstruction resolution mask (.code op [.register t, x])).effectOf config
      v.ram v.core op = .ok (.assign t (word &&& config.mask)) := by
    rcases hop with rfl | rfl <;> exact bind_eq_ok_iff.2 ⟨word, hvalue, rfl⟩
  rw [execute_of_effectOf rfl heffect]
  rfl

/-- What takes the place of a push and a pop puts the pushed word into the register, as far as
    the mask goes. -/
theorem exists_execute_transfer {word t : Nat}
    (h : (ofInstruction resolution mask (.code .psh [x])).value v.core 1 = .ok word) :
    ∃ op operands, Peephole.transfer (.register t) x = .code op operands ∧ op.isData = false ∧
      ∀ config : Config, (ofInstruction resolution mask (.code op operands)).execute config v =
        v.assign t (word &&& config.mask) := by
  cases x with
  | register j => exact ⟨.mov, _, rfl, rfl, fun _ => execute_move (.inl rfl) h⟩
  | immediate n => exact ⟨.imm, _, rfl, rfl, fun _ => execute_move (.inr rfl) h⟩
  | label l => exact ⟨.imm, _, rfl, rfl, fun _ => execute_move (.inr rfl) h⟩

end Decoded

/-! ## Ticks -/

namespace Peephole

open Pieces

/-- A stream of which some pieces are simplified, and the other instructions stay. -/
def Simplified (pieces : Pieces) : Prop :=
  ∀ p ∈ pieces, (∃ i, p = ([i], [i])) ∨ Simplifies p.1 p.2

variable {code code' : Code} {pieces : Pieces} {v v' w : View Bus} {o : Outcome}

/-- The two programs are in the same state, at corresponding addresses. -/
abbrev Matched (code : Code) (pieces : Pieces) : View Bus → View Bus → Prop :=
  View.Matches code.config.mask True (fun _ => True) (Corresponds pieces)

/-- The first program has pushed a word, in a piece where the second is still to begin. -/
structure Pending (code : Code) (pieces : Pieces) (v w : View Bus) (pushed popped : Operand)
    (word : Nat) (stack : List Nat) (before : Pieces) : Prop where
  piece : ∃ comments new after, Comments comments ∧
    pieces = before ++ (.code .psh [pushed] :: (comments ++ [.code .pop [popped]]), new) :: after ∧
    (new = comments ++ [transfer popped pushed] ∨ pushed = popped ∧ new = comments)
  running : v.core.halted = false
  ip : v.core.ip = extent (source before) + 1
  target : w.core.ip = extent (target before)
  stack_eq : v.core.stack = word :: stack
  value : (code.decode .psh [pushed]).value v.core 1 = .ok word
  matched : Matched code pieces
    { v with core := { v.core with ip := extent (source before), stack } } w

/-- Where the two programs can be at the same time. -/
inductive Related (code : Code) (pieces : Pieces) (v w : View Bus) : Prop
  | matched : Matched code pieces v w → Related code pieces v w
  | pending {pushed popped : Operand} {word : Nat} {stack : List Nat} {before : Pieces} :
      Pending code pieces v w pushed popped word stack before → Related code pieces v w

theorem Simplified.relocates (h : Simplified pieces) (hs : code.Carries (source pieces))
    (ht : code'.Carries (Pieces.target pieces)) (hconfig : code'.config = code.config) :
    code.Relocates code' (Corresponds pieces) := by
  refine Pieces.relocates hconfig hs ht fun p hp l hl => ?_
  rcases h p hp with ⟨i, rfl⟩ | hp
  · cases List.mem_singleton.1 hl
    exact ⟨rfl, rfl⟩
  · have hmem : l.id ∈ marks p.1 := mem_marks_iff.2 ⟨l, hl, rfl⟩
    rw [hp.marks_eq_nil.1] at hmem
    cases hmem

theorem Simplified.extent_eq_zero (h : Simplified pieces) {p : List Instruction × List Instruction}
    (hp : p ∈ pieces) (h0 : extent p.1 = 0) : extent p.2 = 0 := by
  rcases h p hp with ⟨i, rfl⟩ | hp
  · exact h0
  · exact Nat.eq_zero_of_le_zero (h0 ▸ hp.extent_le)

variable [PortBus Bus]

/-- The first program begins a pair, and the second waits. -/
theorem Matched.push (hs : code.Carries (source pieces))
    (ht : code'.Carries (Pieces.target pieces)) (hm : Matched code pieces v w)
    {before after : Pieces}
    {comments new : List Instruction} {pushed popped : Operand} (hc : Comments comments)
    (hp : pieces =
      before ++ (.code .psh [pushed] :: (comments ++ [.code .pop [popped]]), new) :: after)
    (hnew : new = comments ++ [transfer popped pushed] ∨ pushed = popped ∧ new = comments)
    (hv : v.core.ip = extent (source before)) (hw : w.core.ip = extent (Pieces.target before))
    (hh : v.core.halted = false) (hx : code.tick v = (v', o)) (hf : o.isFault = false) :
    o = .executed ∧ Related code pieces v' w := by
  have hold := (holds_piece hs ht hp).1
  rw [← hv] at hold
  have hfetch := ((Code.holds_code_cons rfl).1 hold).1
  obtain ⟨e, he, hx⟩ := Decoded.exists_effectOf_of_execute Code.decode_operation
    (Code.execute_of_tick hfetch hx hf) hf
  obtain ⟨-, word, hword, rfl⟩ := Decoded.effectOf_psh_eq_ok_iff.1 he
  cases hx
  exact ⟨rfl, .pending ⟨⟨comments, new, after, hc, hp, hnew⟩, hh, congrArg (· + 1) hv, hw, rfl,
    hword,
    ⟨hm.size, hm.register, hm.halted, hm.flags, hm.carry, hm.ram, hm.bus⟩,
    by rw [← hv]; exact hm.ip, hm.stack, hm.calls⟩⟩

/-- The first program ends a pair, and the second does what takes its place. -/
theorem Pending.pop (hs : code.Carries (source pieces))
    (ht : code'.Carries (Pieces.target pieces)) (hconfig : code'.config = code.config)
    (hdirect : ∀ i ∈ source pieces, i.Direct) {pushed popped : Operand} {word : Nat}
    {stack : List Nat} {before : Pieces}
    (h : Pending code pieces v w pushed popped word stack before)
    (hle : word ≤ code.config.mask) (hh : v.core.halted = false) (hx : code.tick v = (v', o))
    (hf : o.isFault = false) :
    ∃ os w', code'.Ticks w os w' ∧ Outcome.observed os = Outcome.observed [o] ∧
      Matched code pieces v' w' := by
  obtain ⟨⟨comments, new, after, hc, hp, hnew⟩, -, hip, htarget, hstack, hvalue, hm⟩ := h
  have hzero := hc.extent_eq_zero
  obtain ⟨hold, hold'⟩ := holds_piece hs ht hp
  have hnext := corresponds_next hp
  rw [← htarget] at hold' hnext
  -- what the pop does
  have hfetch : code.fetch v.core.ip = some (.code (code.decode .pop [popped])) := by
    have := (Code.holds_append.1 ((Code.holds_code_cons rfl).1 hold).2).2
    rw [hzero, Nat.add_zero, ← hip] at this
    exact ((Code.holds_code_cons rfl).1 this).1
  obtain ⟨t, rfl, hassign⟩ :=
    Decoded.assign_of_execute_pop hstack (Code.execute_of_tick hfetch hx hf) hf
  rcases hnew with rfl | ⟨rfl, rfl⟩
  · have ha : ({ v with core := { v.core with stack } } : View Bus).Agrees code.config.mask True
        (fun _ => True) w :=
      ⟨hm.size, hm.register, hm.halted, hm.flags, hm.carry, hm.ram, hm.bus⟩
    have hfree : ∀ l, pushed ≠ .label l := by
      have : (Instruction.code .psh [pushed]).Direct := hdirect _ (by rw [hp]; simp)
      rintro l rfl
      simp [Direct, Opcode.isBranch] at this
    have hvalue' : (code'.decode .psh [pushed]).value w.core 1 = .ok word := by
      rw [Code.decode_congr hconfig (by simpa using fun l => (hfree l).symm),
        ha.value rfl rfl fun _ _ => trivial]
      exact hvalue
    obtain ⟨op, operands, htransfer, hop, hexecute⟩ :=
      Decoded.exists_execute_transfer (v := w) (t := t) hvalue'
    replace hexecute := hexecute code.config
    rw [Config.and_mask_of_le hle] at hexecute
    obtain ⟨w', hw', ha', hv, hv'⟩ := ha.assign hassign hf
    have hfetch' : code'.fetch w.core.ip = some (.code (code'.decode op operands)) := by
      have := (Code.holds_append.1 hold').2
      rw [hzero, Nat.add_zero, htransfer] at this
      exact ((Code.holds_code_cons hop).1 this).1
    have hhalted : w.core.halted = false := hm.halted.trans hh
    refine ⟨[o], w', .single hhalted
      (Code.tick_of_execute hfetch' (hconfig ▸ hexecute.trans hw') hf), rfl, ha', ?_, ?_, ?_⟩
    · rw [hv.ip, hv'.ip]
      simpa [hip, hzero, footprint_transfer, Opcode.footprint] using hnext
    · rw [hv.stack, hv'.stack]
      exact hm.stack
    · rw [hv.calls, hv'.calls]
      exact hm.calls
  · have hread : ({ v with core := { v.core with stack } } : View Bus).core.read t = .ok word :=
      hvalue
    rw [View.assign_read hread] at hassign
    cases hassign
    refine ⟨[], w, .nil w, rfl, ⟨hm.size, hm.register, hm.halted, hm.flags, hm.carry, hm.ram,
      hm.bus⟩, ?_, hm.stack, hm.calls⟩
    simpa [hip, hzero, Opcode.footprint] using hnext

/-- Every tick of the first program is matched by at most one of the second. -/
theorem Related.tick (hsimp : Simplified pieces) (hs : code.Carries (source pieces))
    (ht : code'.Carries (Pieces.target pieces)) (hconfig : code'.config = code.config)
    (hdirect : ∀ i ∈ source pieces, i.Direct) (h : Related code pieces v w)
    (hwithin : v.Within code.config.registers code.config.mask) (hh : v.core.halted = false)
    (hx : code.tick v = (v', o)) (hf : o.isFault = false) :
    ∃ os w', code'.Ticks w os w' ∧ Outcome.observed os = Outcome.observed [o] ∧
      Related code pieces v' w' := by
  have hr := hsimp.relocates hs ht hconfig
  cases h with
  | pending h =>
    have hle := hwithin.stack _ (h.stack_eq ▸ List.mem_cons_self)
    obtain ⟨os, w', hw', hobs, hm⟩ := h.pop hs ht hconfig hdirect hle hh hx hf
    exact ⟨os, w', hw', hobs, .matched hm⟩
  | matched hm =>
    have hhalted : w.core.halted = false := hm.halted.trans hh
    rcases cases_of_corresponds hm.ip fun p hp => hsimp.extent_eq_zero hp with
      ⟨hv, hw⟩ | ⟨before, ⟨old, new⟩, after, hp, hv, hw, hpos⟩
    · obtain ⟨hw', hm'⟩ := tick_end hs ht hm hv hw hx
      exact ⟨[o], _, .single hhalted hw', rfl, .matched hm'⟩
    · rcases hsimp (old, new) (by simp [hp]) with ⟨i, he⟩ | hold
      · cases he
        cases i with
        | note n => simp at hpos
        | code op operands =>
          obtain ⟨w', hw', hm'⟩ := tick_same hs ht hr hp hm hv hw
            (hdirect _ (by rw [hp]; simp)) (fun _ => trivial) (fun _ _ => trivial) hx hf
          exact ⟨[o], w', .single hhalted hw', rfl, .matched hm'⟩
      · have hold : Simplifies old new := hold
        cases hold with
        | drop => simp at hpos
        | zero destination =>
          obtain ⟨hold, hold'⟩ := holds_piece hs ht hp
          rw [← hv] at hold
          rw [← hw] at hold'
          have hnext := corresponds_next hp
          rw [← hv, ← hw] at hnext
          obtain ⟨w', hw', hm'⟩ := hm.execute hr (hdirect _ (by rw [hp]; simp)) (fun _ => trivial)
            (fun _ _ => trivial) hnext
            (Code.execute_of_tick ((Code.holds_code_cons rfl).1 hold).1 hx hf) hf
          have hpos : 0 < w.core.registers.size := by
            rw [hm.size, hwithin.size]
            exact code.valid.registers_pos
          refine ⟨[o], w', .single hhalted ?_, rfl, .matched hm'⟩
          exact Code.tick_of_execute ((Code.holds_code_cons rfl).1 hold').1
            (hconfig ▸ Decoded.execute_mov_zero hpos hw' hf) hf
        | move pushed popped hc =>
          -- A push has no counterpart: the second program does all of the pair at the pop.
          obtain ⟨rfl, hrel⟩ := Matched.push hs ht hm hc hp (.inl rfl) hv hw hh hx hf
          exact ⟨[], w, .nil w, rfl, hrel⟩
        | cancel operand hc =>
          obtain ⟨rfl, hrel⟩ := Matched.push hs ht hm hc hp (.inr ⟨rfl, rfl⟩) hv hw hh hx hf
          exact ⟨[], w, .nil w, rfl, hrel⟩

end Peephole

/-! ## Runs -/

/-- Two machines whose cores have computed the same. -/
structure Machine.Alike (m m' : Machine Bus) : Prop where
  registers : m'.cores.map Core.registers = m.cores.map Core.registers
  flags : m'.cores.map Core.flags = m.cores.map Core.flags
  stack : m'.cores.map Core.stack = m.cores.map Core.stack
  ram : m'.ram = m.ram
  bus : m'.bus = m.bus

namespace Machine.Alike

theorem refl (m : Machine Bus) : m.Alike m := ⟨rfl, rfl, rfl, rfl, rfl⟩

theorem trans {m₁ m₂ m₃ : Machine Bus} (h : m₁.Alike m₂) (h' : m₂.Alike m₃) : m₁.Alike m₃ where
  registers := h'.registers.trans h.registers
  flags := h'.flags.trans h.flags
  stack := h'.stack.trans h.stack
  ram := h'.ram.trans h.ram
  bus := h'.bus.trans h.bus

end Machine.Alike

namespace Peephole

variable {m m₁ : Machine Bus} {stream stream' : List Instruction} {n : Nat}

theorem Matched.alike {code : Code} {pieces : Pieces} {v w : View Bus} (h : Matched code pieces v w)
    (m₁ m₂ : Machine Bus) : (m₁.ofView v).Alike (m₂.ofView w) where
  registers := congrArg (fun r => [r]) (Array.ext_getElem? fun j => h.register j trivial)
  flags := congrArg (fun f => [f]) (h.carry trivial)
  stack := congrArg (fun s => [s]) h.stack
  ram := h.ram
  bus := h.bus

variable [PortBus Bus]

/-- A rewritten program halts if the program does. -/
theorem Rewrites.halts (h : Rewrites stream stream') (hm : m.SingleCore)
    (hdirect : ∀ i ∈ stream, i.Direct) (hl : m.load stream = (m₁, .ok ())) (hn : m₁.HaltsWithin n) :
    ∃ m₂ n', m.load stream' = (m₂, .ok ()) ∧ m₂.HaltsWithin n' ∧ (m₁.after n).Alike (m₂.after n') ∧
      m₂.breakpoints n' = m₁.breakpoints n := by
  obtain ⟨m₂, hl₂⟩ := Machine.exists_load_iff.2 (h.loadable (Machine.exists_load_iff.1 ⟨m₁, hl⟩))
  obtain ⟨code, hcode, hc, hr, hinit⟩ := Machine.exists_code_of_load hm hl
  obtain ⟨code', hcode', hc', hr', hinit'⟩ := Machine.exists_code_of_load hm hl₂
  have hconfig : code'.config = code.config := hcode'.trans hcode.symm
  obtain @⟨old, new, before, after, hs⟩ := h
  -- Both programs are cut at the one place where they differ.
  let pieces : Pieces := Pieces.same before ++ (old, new) :: Pieces.same after
  have hsource : pieces.source = before ++ (old ++ after) := by simp [pieces]
  have htarget : pieces.target = before ++ (new ++ after) := by simp [pieces]
  have hsimp : Simplified pieces := by
    intro p hp
    simp only [pieces, Pieces.same, List.mem_append, List.mem_map, List.mem_cons] at hp
    rcases hp with ⟨i, -, rfl⟩ | rfl | ⟨i, -, rfl⟩
    · exact .inl ⟨i, rfl⟩
    · exact .inr hs
    · exact .inl ⟨i, rfl⟩
  rw [← hsource] at hc hdirect
  rw [← htarget] at hc'
  have hwithin : (View.initial m.config m.bus).Within code.config.registers code.config.mask :=
    hcode ▸ .initial m.config m.bus
  obtain ⟨point, -, -, hhalts, hbreak, hpoints⟩ :=
    hn.simulate (Related code pieces)
      (fun v o => v.Within code.config.registers code.config.mask ∧ o.isFault = false)
      hr hr' hinit hinit'
      (.matched ⟨⟨rfl, fun _ _ => rfl, rfl, rfl, fun _ => rfl, rfl, rfl⟩, Pieces.corresponds_zero,
        rfl, .nil⟩)
      (fun v w v' o hR hh hx ha => hR.tick hsimp hc hc' hconfig hdirect ha.1 hh hx ha.2)
      (fun v w hR hh => by
        cases hR with
        | matched hm => exact hm.halted.trans hh
        | pending hp => exact absurd (hp.running.symm.trans hh) (by decide))
      (fun os u o hts hfs _ _ ho => ⟨hwithin.ticks hc hdirect hts hfs, hn.faultless _ ho⟩)
  refine ⟨m₂, point n, hl₂, hhalts, ?_, hbreak⟩
  obtain ⟨u, u', hu, hu', hR⟩ := hpoints n (Nat.le_refl n)
  rw [hu, hu']
  cases hR with
  | matched hm => exact hm.alike m₁ m₂
  | pending hp =>
    -- A core that has pushed and not yet popped is still running.
    have hhalted := hn.halted
    rw [hu, Machine.isHalted_ofView, hp.running] at hhalted
    cases hhalted

/-- Where a program in ROM loads, and halts without a fault, its simplification does so too:
    in the same state, and after the same breakpoints. -/
theorem halts_apply (settings : Peephole) (hm : m.SingleCore) (hdirect : ∀ i ∈ stream, i.Direct)
    (hl : m.load stream = (m₁, .ok ())) (hn : m₁.HaltsWithin n) :
    ∃ m₂ n', m.load (settings.apply stream) = (m₂, .ok ()) ∧ m₂.HaltsWithin n' ∧
      (m₁.after n).Alike (m₂.after n') ∧ m₂.breakpoints n' = m₁.breakpoints n := by
  suffices h : ∀ stream', Relation.ReflTransGen Rewrites stream stream' →
      (∀ i ∈ stream', i.Direct) ∧ ∃ m₂ n', m.load stream' = (m₂, .ok ()) ∧ m₂.HaltsWithin n' ∧
        (m₁.after n).Alike (m₂.after n') ∧ m₂.breakpoints n' = m₁.breakpoints n from
    (h _ (rewrites_apply settings stream)).2
  intro stream' h
  induction h with
  | refl => exact ⟨hdirect, m₁, n, hl, hn, .refl _, rfl⟩
  | tail _ hstep ih =>
    obtain ⟨hd, m₂, n₂, hl₂, hn₂, ha₂, hb₂⟩ := ih
    obtain ⟨m₃, n₃, hl₃, hn₃, ha₃, hb₃⟩ := hstep.halts hm hd hl₂ hn₂
    exact ⟨hstep.direct hd, m₃, n₃, hl₃, hn₃, ha₂.trans ha₃, hb₃.trans hb₂⟩

/-- A countdown in which a pair of stack operations encloses another. -/
def countdown : List Instruction :=
  [.code .imm [.register 1, .immediate 3],
    .note (.markLabel (.anonymous 0)),
    .code .psh [.register 1],
    .code .psh [.immediate 7],
    .note (.comment "the inner pair"),
    .code .pop [.register 2],
    .code .pop [.register 3],
    .code .dec [.register 1, .register 1],
    .code .bnz [.label (.anonymous 0)],
    .code .imm [.register 3, .immediate 0],
    .code .brk [],
    .code .hlt []]

/-- A machine for the countdown. -/
def countdownMachine : Machine QueueBus :=
  .blank { registers := 4, romWords := 16, executeFromRom := true } .empty

theorem halts_apply_countdown :
    countdownMachine.SingleCore ∧ (∀ i ∈ countdown, i.Direct) ∧
      countdownMachine.load countdown = (countdownMachine.loaded countdown, .ok ()) ∧
      (countdownMachine.loaded countdown).HaltsWithin 30 ∧
      ∃ m₂ n', countdownMachine.load (all.apply countdown) = (m₂, .ok ()) ∧ m₂.HaltsWithin n' ∧
        ((countdownMachine.loaded countdown).after 30).Alike (m₂.after n') ∧
        m₂.breakpoints n' = (countdownMachine.loaded countdown).breakpoints 30 := by
  have hm : countdownMachine.SingleCore := Machine.singleCore_blank (by decide) rfl rfl
  have hd : ∀ i ∈ countdown, i.Direct := by decide
  have hl : countdownMachine.load countdown = (countdownMachine.loaded countdown, .ok ()) :=
    Machine.load_eq_loaded (by decide +kernel)
  have hn : (countdownMachine.loaded countdown).HaltsWithin 30 := by decide +kernel
  exact ⟨hm, hd, hl, hn, halts_apply all hm hd hl hn⟩

end Peephole
end Wordcode
