import Wordcode.Proofs.Effects

/-!
# The same instruction in two programs

Two programs that contain the same instructions at different addresses. A *relocation*
says which address of the first corresponds to which address of the second. As long as
labels are used for nothing but to go to them (`Instruction.Direct`), addresses never
become words, and an instruction does the same in both programs.

* `View.Agrees`: two views differ at most in hidden registers, in flags beyond the word, in
  the stacks and in the address;
* `View.Matches`: they differ at most in hidden registers, in flags beyond the word, and
  in addresses that correspond to each other;
* `View.Matches.execute`: executing an instruction in both programs keeps them matched.
-/

namespace Wordcode

variable {Bus : Type}

open Instruction

/-! ## Labels as places to go -/

namespace Instruction

/-- Every branch and call goes to a label, and labels stand nowhere else. -/
def Direct : Instruction → Prop
  | .note _ => True
  | .code op operands =>
    if op.isBranch = true ∨ op = .cal then
      ∃ label rest, operands = .label label :: rest ∧ ∀ l, .label l ∉ rest
    else ∀ l, .label l ∉ operands

theorem forall_label?_eq_none_iff {operands : List Operand} :
    (∀ operand ∈ operands, operand.label? = none) ↔ ∀ l, .label l ∉ operands := by
  constructor
  · intro h l hl
    cases h _ hl
  · intro h operand ho
    cases operand with
    | label l => exact absurd ho (h l)
    | _ => rfl

instance (operands : List Operand) : Decidable (∀ l, .label l ∉ operands) :=
  decidable_of_iff _ forall_label?_eq_none_iff

instance (operands : List Operand) :
    Decidable (∃ label rest, operands = .label label :: rest ∧ ∀ l, .label l ∉ rest) :=
  match operands with
  | .label label :: rest =>
    decidable_of_iff (∀ l, .label l ∉ rest)
      ⟨fun h => ⟨label, rest, rfl, h⟩, fun ⟨_, _, he, h⟩ => by cases he; exact h⟩
  | [] => isFalse fun ⟨_, _, he, _⟩ => (nomatch he)
  | .register _ :: _ => isFalse fun ⟨_, _, he, _⟩ => (nomatch he)
  | .immediate _ :: _ => isFalse fun ⟨_, _, he, _⟩ => (nomatch he)

instance : DecidablePred Direct
  | .note _ => isTrue trivial
  | .code op operands =>
    inferInstanceAs (Decidable (if op.isBranch = true ∨ op = .cal then
      ∃ label rest, operands = .label label :: rest ∧ ∀ l, .label l ∉ rest
    else ∀ l, .label l ∉ operands))

end Instruction

/-- An instruction has a destination if its first operand is a register. -/
theorem Decoded.destination_ofInstruction_iff {resolution : Resolution} {mask t : Nat} {op : Opcode}
    {operand : Operand} {rest : List Operand} :
    (ofInstruction resolution mask (.code op (operand :: rest))).destination 1 = .ok t ↔
      operand = .register t := by
  simp only [destination, slot?, ofInstruction, operands, List.map_cons, List.getElem?_cons_zero]
  cases operand with
  | register j => simp [Slot.decode]
  | immediate n => simp [Slot.decode]
  | label l => cases h : resolution.addressOf l <;> simp [Slot.decode, h]

namespace Code

variable {code code' : Code} {op : Opcode} {operands : List Operand}

theorem decode_operation : (code.decode op operands).operation = .code op := rfl

theorem slots_decode :
    (code.decode op operands).slots =
      operands.map (Slot.decode code.resolution code.config.mask) := rfl

/-- Without labels, it does not matter where a program stands. -/
theorem map_slot_decode_congr (hc : code'.config = code.config)
    (h : ∀ l, .label l ∉ operands) :
    operands.map (Slot.decode code'.resolution code'.config.mask) =
      operands.map (Slot.decode code.resolution code.config.mask) := by
  refine List.map_congr_left fun operand ho => ?_
  cases operand with
  | label l => exact absurd ho (h l)
  | register j => rfl
  | immediate n => rw [Slot.decode, Slot.decode, hc]

theorem decode_congr (hc : code'.config = code.config) (h : ∀ l, .label l ∉ operands) :
    code'.decode op operands = code.decode op operands := by
  simp only [decode, Decoded.ofInstruction, Instruction.operands, map_slot_decode_congr hc h]

theorem register_mem_slots_decode {j : Nat} (h : .register j ∈ (code.decode op operands).slots) :
    .register j ∈ operands := by
  rw [slots_decode] at h
  obtain ⟨operand, ho, hs⟩ := List.mem_map.1 h
  cases operand with
  | register k => cases hs; exact ho
  | immediate n => cases hs
  | label l =>
    rw [Slot.decode] at hs
    split at hs <;> cases hs

theorem destination_eq_ok_iff {operand : Operand} {rest : List Operand} {t : Nat} :
    (code.decode op (operand :: rest)).destination 1 = .ok t ↔ operand = .register t :=
  Decoded.destination_ofInstruction_iff

/-- Unless it is an address, what an instruction names is a word. -/
theorem value_slot_le {p n : Nat} (h : ∀ l, .label l ∉ operands)
    (hs : (code.decode op operands).slot? p = some (.value n)) : n ≤ code.config.mask := by
  cases p with
  | zero => cases hs
  | succ p =>
    have hmem := List.mem_of_getElem? hs
    rw [slots_decode] at hmem
    obtain ⟨operand, ho, he⟩ := List.mem_map.1 hmem
    cases operand with
    | register j => cases he
    | immediate k =>
      cases he
      exact Word.and_mask_le _ _
    | label l => exact absurd ho (h l)

end Code

namespace View.Within

variable [PortBus Bus] {code : Code} {stream : List Instruction} {count : Nat} {v w : View Bus}

/-- In a program that uses labels only to go to them, words stay words. -/
theorem tick {o : Outcome} (hc : code.Carries stream) (hd : ∀ i ∈ stream, i.Direct)
    (h : v.Within count code.config.mask) (ht : code.tick v = (w, o)) (hf : o.isFault = false) :
    w.Within count code.config.mask := by
  rcases Code.cases_of_tick ht hf with ⟨-, rfl, -⟩ | ⟨decoded, hfetch, hx⟩
  · exact ⟨h.size, h.registers, h.stack, h.ram⟩
  · obtain ⟨op, operands, hmem, -, rfl⟩ := hc.cells _ _ hfetch
    have hw := h.execute (d := code.decode op operands) Code.decode_operation (Nat.le_refl _) ?_
    · rwa [hx] at hw
    · rintro rfl n hs
      have hfree : ∀ l, .label l ∉ operands := by
        simpa [Direct, Opcode.isBranch] using hd _ hmem
      exact Code.value_slot_le hfree hs

theorem ticks {os : List Outcome} (hc : code.Carries stream) (hd : ∀ i ∈ stream, i.Direct)
    (h : v.Within count code.config.mask) (ht : code.Ticks v os w)
    (hf : ∀ o ∈ os, o.isFault = false) : w.Within count code.config.mask := by
  induction ht with
  | nil v => exact h
  | cons _ ht _ ih =>
    exact ih (h.tick hc hd ht (hf _ List.mem_cons_self)) fun o ho =>
      hf o (List.mem_cons_of_mem _ ho)

end View.Within

/-! ## Agreement -/

/-- Two views with the same memory and bus, the same visible registers and the same flags
    as far as they fit the word. If they are `exact`, all of the flags are the same. -/
structure View.Agrees (mask : Nat) (exact : Prop) (visible : Nat → Prop) (v v' : View Bus) :
    Prop where
  size : v'.core.registers.size = v.core.registers.size
  register : ∀ j, visible j → v'.core.registers[j]? = v.core.registers[j]?
  halted : v'.core.halted = v.core.halted
  flags : v'.core.flags &&& mask = v.core.flags &&& mask
  carry : exact → v'.core.flags = v.core.flags
  ram : v'.ram = v.ram
  bus : v'.bus = v.bus

/-- The core goes on at the next address, with its stacks as they were. -/
structure View.Follows (v u : View Bus) : Prop where
  ip : u.core.ip = v.core.ip + 1
  stack : u.core.stack = v.core.stack
  calls : u.core.calls = v.core.calls

namespace Decoded

/-- Whether a branch is taken. -/
def condition (config : Config) (core : Core) (d : Decoded) : Opcode → Except FaultKind Bool
  | .bra => .ok true
  | .brz => .ok (Arithmetic.isZero config.mask core.flags)
  | .bnz => .ok (!Arithmetic.isZero config.mask core.flags)
  | .brc => .ok (Arithmetic.isCarry config.mask core.flags)
  | .bnc => .ok (!Arithmetic.isCarry config.mask core.flags)
  | .brp => .ok (!Arithmetic.isNegative config.mask core.flags)
  | .brn => .ok (Arithmetic.isNegative config.mask core.flags)
  | .bev => do return Arithmetic.isEven (← d.value core 2)
  | .bod => do return !Arithmetic.isEven (← d.value core 2)
  | _ => .ok false

/-- A branch first finds out whether it is taken, and reads where to go only then. -/
theorem effectOf_of_isBranch {config : Config} {ram : Array Cell} {core : Core} {d : Decoded}
    {op : Opcode} (h : op.isBranch = true) :
    d.effectOf config ram core op = d.condition config core op >>= d.branch core := by
  cases op with
  | bev | bod =>
    simp only [effectOf, condition]
    cases d.value core 2 <;> rfl
  | bra | brz | bnz | brc | bnc | brp | brn => rfl
  | _ => cases h

end Decoded

namespace View.Agrees

variable {config : Config} {mask : Nat} {exact : Prop} {visible : Nat → Prop}
  {v v' u : View Bus} {d d' : Decoded} {op : Opcode} {o : Outcome}

theorem read (h : v.Agrees mask exact visible v') {j : Nat} (hj : visible j) :
    v'.core.read j = v.core.read j := by
  rw [Core.read, Core.read, h.register j hj, h.size]

/-- The value of a slot is the same in both views if the slot is the same. -/
theorem value (h : v.Agrees mask exact visible v') (hop : d'.operation = d.operation) {p : Nat}
    (hs : d'.slot? p = d.slot? p) (hd : ∀ j, d.slot? p = some (.register j) → visible j) :
    d'.value v'.core p = d.value v.core p := by
  simp only [Decoded.value, hs, hop]
  split
  · next j hj => exact h.read (hd j hj)
  all_goals rfl

theorem visible_of_slot (hd : ∀ j, .register j ∈ d.slots → visible j) (p j : Nat)
    (hj : d.slot? p = some (.register j)) : visible j := by
  cases p with
  | zero => cases hj
  | succ p => exact hd j (List.mem_of_getElem? hj)

/-- A plain instruction has the same effect in both views. -/
theorem effectOf_plain (h : v.Agrees config.mask exact visible v')
    (hd : ∀ j, .register j ∈ d.slots → visible j) (hp : op.isPlain = true) :
    d.effectOf config v'.ram v'.core op = d.effectOf config v.ram v.core op := by
  have hv (p : Nat) : d.value v'.core p = d.value v.core p :=
    h.value rfl rfl (visible_of_slot hd p)
  have hr := h.ram
  cases op <;>
    simp_all [Decoded.effectOf, Decoded.unary, Decoded.binary, Decoded.quotient, Opcode.isPlain,
      Opcode.isBranch]

/-- Views that agree still do after the same assignment. -/
theorem assign {t word : Nat} (h : v.Agrees mask exact visible v')
    (hx : v.assign t word = (u, o)) (hf : o.isFault = false) :
    ∃ u', v'.assign t word = (u', o) ∧ u.Agrees mask exact visible u' ∧ v.Follows u ∧
      v'.Follows u' := by
  have ht := lt_of_assign hx hf
  rw [assign_of_lt ht] at hx
  cases hx
  have ht' : t < v'.core.registers.size := h.size ▸ ht
  refine ⟨_, assign_of_lt ht', ⟨?_, ?_, ?_, ?_, ?_, h.ram, h.bus⟩, ⟨?_, ?_, ?_⟩, ⟨?_, ?_, ?_⟩⟩
  · simpa using h.size
  · intro j hj
    by_cases hjt : j = t
    · subst hjt
      by_cases h0 : j = 0
      · simpa [Core.put, h0] using h.register 0 (h0 ▸ hj)
      · simp only [Core.registers_put_self word h0 ht, Core.registers_put_self word h0 ht']
    · simpa only [Core.registers_put_of_ne word hjt] using h.register j hj
  · simpa using h.halted
  · simpa using h.flags
  · simpa using h.carry
  all_goals simp

theorem assignTo {destination : Except FaultKind Nat} {word : Nat}
    (h : v.Agrees mask exact visible v') (hx : v.assignTo destination word = (u, o))
    (hf : o.isFault = false) :
    ∃ u', v'.assignTo destination word = (u', o) ∧ u.Agrees mask exact visible u' ∧ v.Follows u ∧
      v'.Follows u' := by
  obtain ⟨t, rfl, hx⟩ := exists_of_assignTo hx hf
  exact h.assign hx hf

theorem with_flags (h : v.Agrees mask exact visible v') (flags : Nat) :
    ({ v with core := { v.core with flags } } : View Bus).Agrees mask exact visible
      { v' with core := { v'.core with flags } } :=
  ⟨h.size, h.register, h.halted, rfl, fun _ => rfl, h.ram, h.bus⟩

theorem with_bus (h : v.Agrees mask exact visible v') (bus : Bus) :
    ({ v with bus } : View Bus).Agrees mask exact visible { v' with bus } :=
  ⟨h.size, h.register, h.halted, h.flags, h.carry, h.ram, rfl⟩

variable [PortBus Bus]

/-- A plain instruction keeps two views in agreement. -/
theorem execute_plain (h : v.Agrees config.mask exact visible v')
    (hd : ∀ j, .register j ∈ d.slots → visible j) (hop : d.operation = .code op)
    (hp : op.isPlain = true) (hx : d.execute config v = (u, o)) (hf : o.isFault = false) :
    ∃ u', d.execute config v' = (u', o) ∧ u.Agrees config.mask exact visible u' ∧
      v.Follows u ∧ v'.Follows u' := by
  obtain ⟨e, he, hx⟩ := Decoded.exists_effectOf_of_execute hop hx hf
  -- A plain instruction reads only what agrees, so it has the same effect in both views. It
  -- remains to perform that effect twice.
  rw [Decoded.execute_of_effectOf hop ((h.effectOf_plain hd hp).trans he)]
  cases Decoded.yields_of_effectOf he with
  | compute =>
    obtain ⟨u', hu', ha, hv, hv'⟩ := (h.with_flags _).assignTo hx hf
    exact ⟨u', hu', ha, ⟨hv.ip, hv.stack, hv.calls⟩, ⟨hv'.ip, hv'.stack, hv'.calls⟩⟩
  | compare =>
    cases hx
    exact ⟨_, rfl, ⟨h.size, h.register, h.halted, rfl, fun _ => rfl, h.ram, h.bus⟩,
      ⟨rfl, rfl, rfl⟩, ⟨rfl, rfl, rfl⟩⟩
  | assign | load => exact h.assign hx hf
  | store =>
    cases hx
    refine ⟨_, rfl, ⟨h.size, h.register, h.halted, h.flags, h.carry, ?_, h.bus⟩,
      ⟨rfl, rfl, rfl⟩, ⟨rfl, rfl, rfl⟩⟩
    simp only [h.ram]
  | halt =>
    cases hx
    exact ⟨_, rfl, ⟨h.size, h.register, rfl, h.flags, h.carry, h.ram, h.bus⟩,
      ⟨rfl, rfl, rfl⟩, ⟨rfl, rfl, rfl⟩⟩
  | trap _ | skip =>
    cases hx
    exact ⟨_, rfl, ⟨h.size, h.register, h.halted, h.flags, h.carry, h.ram, h.bus⟩,
      ⟨rfl, rfl, rfl⟩, ⟨rfl, rfl, rfl⟩⟩
  | @receive port =>
    rcases hr : PortBus.read v.bus port with ⟨error | word, bus⟩ <;>
      simp only [Effect.perform, hr, h.bus] at hx ⊢
    · cases hx
      cases hf
    · obtain ⟨u', hu', ha, hv, hv'⟩ := (h.with_bus bus).assignTo hx hf
      exact ⟨u', hu', ha, ⟨hv.ip, hv.stack, hv.calls⟩, ⟨hv'.ip, hv'.stack, hv'.calls⟩⟩
  | @send port word =>
    rcases hr : PortBus.write v.bus port word with ⟨error | _, bus⟩ <;>
      simp only [Effect.perform, hr, h.bus] at hx ⊢
    · cases hx
      cases hf
    · cases hx
      exact ⟨_, rfl, ⟨h.size, h.register, h.halted, h.flags, h.carry, h.ram, rfl⟩,
        ⟨rfl, rfl, rfl⟩, ⟨rfl, rfl, rfl⟩⟩
  -- Control and stacks are no matter of plain instructions.
  | jump hb _ | pass hb => exact absurd (Opcode.isPlain_of_isBranch hb) (by simp [hp])
  | _ => cases hp

end View.Agrees

/-! ## Relocation -/

/-- Two programs of the same configuration in which the addresses of labels correspond. -/
structure Code.Relocates (code code' : Code) (reloc : Nat → Nat → Prop) : Prop where
  config : code'.config = code.config
  label : ∀ l a, code.resolution.addressOf l = some a →
    ∃ a', code'.resolution.addressOf l = some a' ∧ reloc a a'

namespace Code

theorem value_label_eq_ok_iff {code : Code} {op : Opcode} {l : Label} {rest : List Operand}
    {core : Core} {a : Nat} :
    (code.decode op (.label l :: rest)).value core 1 = .ok a ↔
      code.resolution.addressOf l = some a := by
  simp only [Decoded.value, Decoded.slot?, slots_decode, List.map_cons, List.getElem?_cons_zero,
    Slot.decode]
  cases code.resolution.addressOf l <;> simp

end Code

section Relocates

variable {code code' : Code} {reloc : Nat → Nat → Prop} {exact : Prop} {visible : Nat → Prop}
  {v v' u : View Bus} {op : Opcode} {operands : List Operand} {o : Outcome}

/-- A branch to a label is taken in both views or in none. -/
theorem View.Agrees.execute_branch [PortBus Bus] (h : v.Agrees code.config.mask exact visible v')
    (hr : code.Relocates code' reloc) (hb : op.isBranch = true)
    (hcarry : op.readsCarry = true → exact) {l : Label} {rest : List Operand}
    (hl : ∀ l, .label l ∉ rest) (hvis : ∀ j, .register j ∈ rest → visible j)
    (hnext : reloc (v.core.ip + 1) (v'.core.ip + 1))
    (hx : (code.decode op (.label l :: rest)).execute code.config v = (u, o))
    (hf : o.isFault = false) :
    ∃ u', (code'.decode op (.label l :: rest)).execute code.config v' = (u', o) ∧
      u.Agrees code.config.mask exact visible u' ∧ reloc u.core.ip u'.core.ip ∧
      (u.core.stack = v.core.stack ∧ u.core.calls = v.core.calls) ∧
      u'.core.stack = v'.core.stack ∧ u'.core.calls = v'.core.calls := by
  have hslot (p : Nat) : (code'.decode op (.label l :: rest)).slot? (p + 2) =
      (code.decode op (.label l :: rest)).slot? (p + 2) := by
    simp only [Decoded.slot?, Code.slots_decode, List.map_cons, List.getElem?_cons_succ,
      Code.map_slot_decode_congr hr.config hl]
  have hvalue : (code'.decode op (.label l :: rest)).value v'.core 2 =
      (code.decode op (.label l :: rest)).value v.core 2 := by
    have hop : (code'.decode op (.label l :: rest)).operation =
        (code.decode op (.label l :: rest)).operation := rfl
    refine h.value hop (hslot 0) fun j hj => hvis j ?_
    have := Code.register_mem_slots_decode (List.mem_of_getElem? hj)
    simpa using this
  have hcond : (code'.decode op (.label l :: rest)).condition code.config v'.core op =
      (code.decode op (.label l :: rest)).condition code.config v.core op := by
    have hflags := h.flags
    have hexact := h.carry
    cases op <;>
      simp_all [Decoded.condition, Arithmetic.isZero, Arithmetic.isNegative, Opcode.readsCarry]
  obtain ⟨e, he, hx⟩ := Decoded.exists_effectOf_of_execute Code.decode_operation hx hf
  rw [Decoded.effectOf_of_isBranch hb] at he
  obtain ⟨taken, hc, he⟩ := bind_eq_ok_iff.1 he
  -- the second program has the effect that its own addresses give
  have hexecute {e' : Effect}
      (he' : (code'.decode op (.label l :: rest)).branch v'.core taken = .ok e') :
      (code'.decode op (.label l :: rest)).execute code.config v' =
        e'.perform code.config.mask v' := by
    refine Decoded.execute_of_effectOf Code.decode_operation ?_
    rw [Decoded.effectOf_of_isBranch hb]
    exact bind_eq_ok_iff.2 ⟨taken, hcond.trans hc, he'⟩
  rcases Decoded.branch_eq_ok_iff.1 he with ⟨rfl, a, ha, rfl⟩ | ⟨rfl, rfl⟩
  · obtain ⟨a', ha', hrel⟩ := hr.label l a (Code.value_label_eq_ok_iff.1 ha)
    rw [hexecute (Decoded.branch_eq_ok_iff.2
      (.inl ⟨rfl, a', Code.value_label_eq_ok_iff.2 ha', rfl⟩))]
    cases hx
    exact ⟨_, rfl, ⟨h.size, h.register, h.halted, h.flags, h.carry, h.ram, h.bus⟩, hrel,
      ⟨rfl, rfl⟩, rfl, rfl⟩
  · rw [hexecute (Decoded.branch_eq_ok_iff.2 (.inr ⟨rfl, rfl⟩))]
    cases hx
    exact ⟨_, rfl, ⟨h.size, h.register, h.halted, h.flags, h.carry, h.ram, h.bus⟩, hnext,
      ⟨rfl, rfl⟩, rfl, rfl⟩

/-- Two views that differ at most in hidden registers, in flags beyond the word and in
    addresses that correspond to each other. -/
structure View.Matches (mask : Nat) (exact : Prop) (visible : Nat → Prop)
    (reloc : Nat → Nat → Prop) (v v' : View Bus) : Prop
    extends View.Agrees mask exact visible v v' where
  ip : reloc v.core.ip v'.core.ip
  stack : v'.core.stack = v.core.stack
  calls : List.Forall₂ reloc v.core.calls v'.core.calls

namespace View.Matches

variable [PortBus Bus] {d : Decoded} {config : Config}

/-- A call of a label goes to where the label is in either program. -/
theorem execute_call (h : v.Matches code.config.mask exact visible reloc v')
    (hr : code.Relocates code' reloc) {l : Label} {rest : List Operand}
    (hnext : reloc (v.core.ip + 1) (v'.core.ip + 1))
    (hx : (code.decode .cal (.label l :: rest)).execute code.config v = (u, o))
    (hf : o.isFault = false) :
    ∃ u', (code'.decode .cal (.label l :: rest)).execute code.config v' = (u', o) ∧
      u.Matches code.config.mask exact visible reloc u' := by
  obtain ⟨e, he, hx⟩ := Decoded.exists_effectOf_of_execute Code.decode_operation hx hf
  obtain ⟨hlen, a, ha, rfl⟩ := Decoded.effectOf_cal_eq_ok_iff.1 he
  obtain ⟨a', ha', hrel⟩ := hr.label l a (Code.value_label_eq_ok_iff.1 ha)
  rw [Decoded.execute_of_effectOf Code.decode_operation (Decoded.effectOf_cal_eq_ok_iff.2
    ⟨h.calls.length_eq ▸ hlen, a', Code.value_label_eq_ok_iff.2 ha', rfl⟩)]
  cases hx
  exact ⟨_, rfl, ⟨h.size, h.register, h.halted, h.flags, h.carry, h.ram, h.bus⟩, hrel, h.stack,
    .cons hnext h.calls⟩

/-- The instructions on the stacks: pushing, popping and returning. -/
theorem execute_stack (h : v.Matches config.mask exact visible reloc v')
    (hop : d.operation = .code op) (hd : ∀ j, .register j ∈ d.slots → visible j)
    (hs : op = .psh ∨ op = .pop ∨ op = .ret) (hnext : reloc (v.core.ip + 1) (v'.core.ip + 1))
    (hx : d.execute config v = (u, o)) (hf : o.isFault = false) :
    ∃ u', d.execute config v' = (u', o) ∧ u.Matches config.mask exact visible reloc u' := by
  obtain ⟨e, he, hx⟩ := Decoded.exists_effectOf_of_execute hop hx hf
  rcases hs with rfl | rfl | rfl
  · obtain ⟨hlen, word, hv, rfl⟩ := Decoded.effectOf_psh_eq_ok_iff.1 he
    have hvalue := h.value rfl rfl (Agrees.visible_of_slot hd 1)
    rw [Decoded.execute_of_effectOf hop (Decoded.effectOf_psh_eq_ok_iff.2
      ⟨h.stack ▸ hlen, word, hvalue.trans hv, rfl⟩)]
    cases hx
    exact ⟨_, rfl, ⟨h.size, h.register, h.halted, h.flags, h.carry, h.ram, h.bus⟩, hnext,
      congrArg (word :: ·) h.stack, h.calls⟩
  · obtain ⟨hne, rfl⟩ := Decoded.effectOf_pop_eq_ok_iff.1 he
    rw [Decoded.execute_of_effectOf hop (Decoded.effectOf_pop_eq_ok_iff.2
      ⟨h.stack ▸ hne, rfl⟩)]
    obtain ⟨word, stack, hs⟩ := List.exists_cons_of_ne_nil hne
    simp only [Effect.perform, h.stack, hs] at hx ⊢
    have ha : ({ v with core := { v.core with stack } } : View Bus).Agrees config.mask exact visible
        { v' with core := { v'.core with stack } } :=
      ⟨h.size, h.register, h.halted, h.flags, h.carry, h.ram, h.bus⟩
    obtain ⟨u', hu', ha, hv, hv'⟩ := ha.assignTo hx hf
    exact ⟨u', hu', ha, by rw [hv.ip, hv'.ip]; exact hnext, by rw [hv.stack, hv'.stack],
      by rw [hv.calls, hv'.calls]; exact h.calls⟩
  · have he' : d.effectOf config v'.ram v'.core .ret = .ok e := he
    rw [Decoded.execute_of_effectOf hop he']
    cases he
    -- The return addresses differ, but they correspond to each other one by one.
    have hcalls := h.calls
    cases hs : v.core.calls with
    | nil =>
      rw [hs, List.forall₂_nil_left_iff] at hcalls
      simp only [Effect.perform, hs, hcalls] at hx ⊢
      cases hx
      exact ⟨_, rfl, ⟨h.size, h.register, rfl, h.flags, h.carry, h.ram, h.bus⟩, hnext, h.stack,
        .nil⟩
    | cons site calls =>
      rw [hs, List.forall₂_cons_left_iff] at hcalls
      obtain ⟨site', calls', hsite, hcalls, hs'⟩ := hcalls
      simp only [Effect.perform, hs, hs'] at hx ⊢
      cases hx
      exact ⟨_, rfl, ⟨h.size, h.register, h.halted, h.flags, h.carry, h.ram, h.bus⟩, hsite,
        h.stack, hcalls⟩

/-- Executing the same instruction in both programs keeps two views matched, if the
    addresses that follow it correspond to each other. -/
theorem execute (h : v.Matches code.config.mask exact visible reloc v')
    (hr : code.Relocates code' reloc) (hdirect : (Instruction.code op operands).Direct)
    (hcarry : op.readsCarry = true → exact) (hvis : ∀ j, .register j ∈ operands → visible j)
    (hnext : reloc (v.core.ip + 1) (v'.core.ip + 1))
    (hx : (code.decode op operands).execute code.config v = (u, o)) (hf : o.isFault = false) :
    ∃ u', (code'.decode op operands).execute code.config v' = (u', o) ∧
      u.Matches code.config.mask exact visible reloc u' := by
  have hvisible (j : Nat) (hj : .register j ∈ (code.decode op operands).slots) : visible j :=
    hvis j (Code.register_mem_slots_decode hj)
  cases hb : op.isBranch with
  | true =>
    obtain ⟨l, rest, rfl, hl⟩ : ∃ l rest, operands = .label l :: rest ∧ ∀ l, .label l ∉ rest := by
      simpa [Direct, hb] using hdirect
    obtain ⟨u', hu', ha, hip, ⟨hs, hc⟩, hs', hc'⟩ := h.toAgrees.execute_branch hr hb hcarry hl
      (fun j hj => hvis j (List.mem_cons_of_mem _ hj)) hnext hx hf
    exact ⟨u', hu', ha, hip, by rw [hs, hs', h.stack], by rw [hc, hc']; exact h.calls⟩
  | false =>
    by_cases hcal : op = .cal
    · subst hcal
      obtain ⟨l, rest, rfl, -⟩ : ∃ l rest, operands = .label l :: rest ∧ ∀ l, .label l ∉ rest := by
        simpa [Direct] using hdirect
      exact h.execute_call hr hnext hx hf
    · have hfree : ∀ l, .label l ∉ operands := by
        simpa [Direct, hb, hcal] using hdirect
      -- Without labels, the instruction is decoded to the same in both programs.
      rw [Code.decode_congr hr.config hfree]
      cases hp : op.isPlain with
      | true =>
        obtain ⟨u', hu', ha, hv, hv'⟩ :=
          h.toAgrees.execute_plain hvisible Code.decode_operation hp hx hf
        exact ⟨u', hu', ha, by rw [hv.ip, hv'.ip]; exact hnext,
          by rw [hv.stack, hv'.stack, h.stack], by rw [hv.calls, hv'.calls]; exact h.calls⟩
      | false =>
        refine h.execute_stack Code.decode_operation hvisible ?_ hnext hx hf
        obtain ⟨e, he, -⟩ := Decoded.exists_effectOf_of_execute Code.decode_operation hx hf
        cases op <;> simp_all [Opcode.isPlain, Opcode.isBranch, Decoded.effectOf]

end View.Matches

end Relocates
end Wordcode
