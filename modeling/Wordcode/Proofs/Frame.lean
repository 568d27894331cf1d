import Wordcode.Proofs.Relocation

/-!
# Frames

Code that works on registers, flags and the value stack only is understood best without
the machine around it. A `Frame` has what such code changes, and `Frame.exec` says how an
instruction that is followed by the next one changes it. Registers are total here: that
the registers of an instruction exist is asked for when it is executed.

* `Frame.view`: the view with a frame in the place of its registers, flags and stack;
* `Frame.exec`: the effect of an instruction on a frame;
* `Code.Reaches.exec`, `Code.Reaches.taken`, `Code.Reaches.passed`: a core does to its view
  what the instruction does to the frame.
-/

namespace Wordcode

variable {Bus : Type}

open Instruction

/-! ## Register files -/

/-- The words in the registers. Register 0 is zero. -/
@[ext] structure File where
  word : Nat → Nat
  zero : word 0 = 0

namespace File

/-- The file with a word in a register. Register 0 stays as it is. -/
def put (file : File) (t word : Nat) : File where
  word j := if j = t ∧ t ≠ 0 then word else file.word j
  zero := by
    rw [if_neg fun h => h.2 h.1.symm]
    exact file.zero

variable {file : File} {t j word : Nat}

@[grind =] theorem word_put (file : File) (t word j : Nat) :
    (file.put t word).word j = if j = t ∧ t ≠ 0 then word else file.word j := rfl

@[simp] theorem word_put_self (h : t ≠ 0) : (file.put t word).word t = word := by
  rw [word_put, if_pos ⟨rfl, h⟩]

@[simp] theorem word_put_of_ne (h : j ≠ t) : (file.put t word).word j = file.word j := by
  rw [word_put, if_neg fun h' => h h'.1]

end File

namespace Operand

/-- What an operand that is no label stands for. -/
def eval (mask : Nat) (file : File) : Operand → Nat
  | .register j => file.word j
  | .immediate n => n &&& mask
  | .label _ => 0

/-- Whether an operand is an immediate or one of the first `count` registers. -/
def Readable (count : Nat) : Operand → Prop
  | .register j => j < count
  | .immediate _ => True
  | .label _ => False

@[simp] theorem eval_register (mask : Nat) (file : File) (j : Nat) :
    (register j).eval mask file = file.word j := rfl

@[simp] theorem eval_immediate (mask : Nat) (file : File) (n : Nat) :
    (immediate n).eval mask file = n &&& mask := rfl

@[simp] theorem eval_zero (mask : Nat) (file : File) : zero.eval mask file = 0 := file.zero

@[simp] theorem readable_register {count j : Nat} : (register j).Readable count ↔ j < count :=
  Iff.rfl

@[simp] theorem readable_immediate (count n : Nat) : (immediate n).Readable count := trivial

theorem eval_congr {mask : Nat} {file file' : File} {x : Operand}
    (h : ∀ j, x = .register j → file'.word j = file.word j) :
    x.eval mask file' = x.eval mask file := by
  cases x with
  | register j => exact h j rfl
  | _ => rfl

/-- The value of an operand does not depend on other registers. -/
theorem eval_put_of_ne {mask t word : Nat} {file : File} {x : Operand} (h : x ≠ .register t) :
    x.eval mask (file.put t word) = x.eval mask file :=
  eval_congr fun _ hj => File.word_put_of_ne fun e => h (e ▸ hj)

end Operand

/-! ## Frames -/

/-- The state of a core as far as arithmetic changes it. -/
@[ext] structure Frame where
  ip : Nat
  flags : Nat
  stack : List Nat
  file : File

namespace Frame

/-- A view with the frame in the place of its registers, flags and stack. -/
def view (frame : Frame) (base : View Bus) : View Bus :=
  { base with
    core := { base.core with
      ip := frame.ip
      flags := frame.flags
      stack := frame.stack
      registers := base.core.registers.mapIdx fun j word =>
        if j = 0 then word else frame.file.word j } }

/-- The frame of a view. -/
def ofView (v : View Bus) : Frame where
  ip := v.core.ip
  flags := v.core.flags
  stack := v.core.stack
  file := ⟨fun j => if j = 0 then 0 else v.core.register j, if_pos rfl⟩

/-- Goes on to the next instruction with a word in a register. -/
@[simp] def assign (frame : Frame) (t word : Nat) : Frame :=
  { frame with ip := frame.ip + 1, file := frame.file.put t word }

/-- Goes on to the next instruction with a result in the flags and in a register. -/
@[simp] def compute (mask : Nat) (frame : Frame) (t result : Nat) : Frame :=
  { frame with flags := result }.assign t (result &&& mask)

/-- What an instruction does that is followed by the next one. -/
@[simp] def exec (mask : Nat) (frame : Frame) : Instruction → Frame
  | .code .psh [x] =>
    { frame with ip := frame.ip + 1, stack := x.eval mask frame.file :: frame.stack }
  | .code .pop [.register t] =>
    { frame with stack := frame.stack.tail }.assign t (frame.stack.headD 0)
  | .code .mov [.register t, x] | .code .imm [.register t, x] =>
    frame.assign t (x.eval mask frame.file &&& mask)
  | .code .cmp [x, y] =>
    { frame with
      ip := frame.ip + 1
      flags := Arithmetic.difference (x.eval mask frame.file) (y.eval mask frame.file) }
  | .code .add [.register t, x, y] =>
    frame.compute mask t (x.eval mask frame.file + y.eval mask frame.file)
  | .code .sub [.register t, x, y] =>
    frame.compute mask t
      (Arithmetic.difference (x.eval mask frame.file) (y.eval mask frame.file))
  | .code .inc [.register t, x] => frame.compute mask t (x.eval mask frame.file + 1)
  | .code .dec [.register t, x] =>
    frame.compute mask t (Arithmetic.difference (x.eval mask frame.file) 1)
  | .code .lsh [.register t, x] => frame.compute mask t (x.eval mask frame.file * 2)
  | .code .rsh [.register t, x] => frame.compute mask t (x.eval mask frame.file / 2)
  | _ => frame

/-- The instructions that `exec` describes, where there are `count` registers and the stack
    holds `depth` words. -/
def Legal (count depth : Nat) (frame : Frame) : Instruction → Prop
  | .code .psh [x] => x.Readable count ∧ frame.stack.length < depth
  | .code .pop [.register t] => t < count ∧ frame.stack ≠ []
  | .code .cmp [x, y] => x.Readable count ∧ y.Readable count
  | .code .add [.register t, x, y] | .code .sub [.register t, x, y] =>
    t < count ∧ x.Readable count ∧ y.Readable count
  | .code .mov [.register t, x] | .code .imm [.register t, x] | .code .inc [.register t, x]
  | .code .dec [.register t, x] | .code .lsh [.register t, x] | .code .rsh [.register t, x] =>
    t < count ∧ x.Readable count
  | _ => False

variable {frame : Frame} {base v : View Bus} {t word : Nat}

@[simp] theorem view_halted : (frame.view base).core.halted = base.core.halted := rfl

@[simp] theorem size_view : (frame.view base).core.registers.size = base.core.registers.size :=
  Array.size_mapIdx

theorem registers_view (j : Nat) :
    (frame.view base).core.registers[j]? =
      base.core.registers[j]?.map fun word => if j = 0 then word else frame.file.word j :=
  Array.getElem?_mapIdx

theorem read_view {j : Nat} (h : j < base.core.registers.size) :
    (frame.view base).core.read j = .ok (frame.file.word j) := by
  rw [Core.read, registers_view, Array.getElem?_eq_getElem h]
  by_cases h0 : j = 0
  · simp [h0, frame.file.zero]
  · simp [h0]

/-- A view is its own frame. -/
theorem view_ofView (v : View Bus) : (ofView v).view v = v := by
  have h : (v.core.registers.mapIdx fun j word => if j = 0 then word else (ofView v).file.word j) =
      v.core.registers := by
    refine Array.ext_getElem? fun j => ?_
    rw [Array.getElem?_mapIdx]
    cases hj : v.core.registers[j]? with
    | none => rfl
    | some word => by_cases h0 : j = 0 <;> simp [ofView, Core.register, h0, hj]
  rw [view, h]
  rfl

/-- Assigning to a register of a view is assigning to it in the frame. -/
theorem assign_view (frame : Frame) (h : t < base.core.registers.size) :
    (frame.view base).assign t word = ((frame.assign t word).view base, .executed) := by
  rw [View.assign_of_lt (by simpa using h)]
  have hregisters : ((frame.view base).core.put t word).registers =
      ((frame.assign t word).view base).core.registers := by
    refine Array.ext_getElem? fun j => ?_
    by_cases h0 : t = 0
    · rw [Core.put, if_pos h0, registers_view, registers_view]
      simp [assign, File.word_put, h0]
    · by_cases hj : j = t
      · subst hj
        rw [Core.registers_put_self word h0 (by simpa using h), registers_view,
          Array.getElem?_eq_getElem h]
        simp [assign, h0]
      · rw [Core.registers_put_of_ne word hj, registers_view, registers_view]
        simp [assign, hj]
  simp only [Prod.mk.injEq, and_true]
  rw [Core.put] at hregisters ⊢
  split at hregisters <;> simp_all [view, assign]

end Frame

/-! ## Executing frames -/

section Execution

variable {code : Code} {frame : Frame} {base : View Bus} {op : Opcode} {operands : List Operand}

theorem Code.value_view {p : Nat} {x : Operand} (hx : operands[p]? = some x)
    (h : x.Readable base.core.registers.size) :
    (code.decode op operands).value (frame.view base).core (p + 1) =
      .ok (x.eval code.config.mask frame.file) := by
  have hs : (code.decode op operands).slot? (p + 1) =
      some (Slot.decode code.resolution code.config.mask x) := by
    simp only [Decoded.slot?, slots_decode, List.getElem?_map, hx, Option.map_some]
  rw [Decoded.value, hs]
  cases x with
  | register j => exact Frame.read_view h
  | immediate n => rfl
  | label l => cases h

variable [PortBus Bus]

/-- A legal instruction does to a view what it does to the frame. -/
theorem Frame.execute_view
    (h : frame.Legal base.core.registers.size code.config.maxStack (.code op operands)) :
    (code.decode op operands).execute code.config (frame.view base) =
      ((frame.exec code.config.mask (.code op operands)).view base, .executed) := by
  -- the effect, with the values that the frame gives to the operands
  have hcompute {t : Nat} {rest : List Operand} {result : Nat} (ht : t < base.core.registers.size)
      (he : (code.decode op (.register t :: rest)).effectOf code.config (frame.view base).ram
        (frame.view base).core op =
          .ok (.compute ((code.decode op (.register t :: rest)).destination 1) result)) :
      (code.decode op (.register t :: rest)).execute code.config (frame.view base) =
        ((frame.compute code.config.mask t result).view base, .executed) := by
    rw [Decoded.execute_of_effectOf Code.decode_operation he, Code.destination_eq_ok_iff.2 rfl]
    exact assign_view { frame with flags := result } ht
  have hassign {t : Nat} {rest : List Operand} {word : Nat} (ht : t < base.core.registers.size)
      (he : (code.decode op (.register t :: rest)).effectOf code.config (frame.view base).ram
        (frame.view base).core op = .ok (.assign t word)) :
      (code.decode op (.register t :: rest)).execute code.config (frame.view base) =
        ((frame.assign t word).view base, .executed) := by
    rw [Decoded.execute_of_effectOf Code.decode_operation he]
    exact assign_view frame ht
  unfold Legal at h
  split at h
  · next x hi =>
    cases hi
    rw [Decoded.execute_of_effectOf Code.decode_operation (Decoded.effectOf_psh_eq_ok_iff.2
      ⟨h.2, _, Code.value_view (p := 0) rfl h.1, rfl⟩)]
    rfl
  · next t hi =>
    cases hi
    obtain ⟨word, stack, hs⟩ := List.exists_cons_of_ne_nil h.2
    rw [Decoded.execute_of_effectOf Code.decode_operation (Decoded.effectOf_pop_eq_ok_iff.2
      ⟨h.2, rfl⟩), Code.destination_eq_ok_iff.2 rfl]
    have hview : (frame.view base).core.stack = word :: stack := hs
    simp only [Effect.perform, hview, exec, hs, List.tail_cons, List.headD_cons]
    exact assign_view { frame with stack } h.1
  · next x y hi =>
    cases hi
    have he : (code.decode .cmp [x, y]).effectOf code.config (frame.view base).ram
        (frame.view base).core .cmp = .ok (.compare _) :=
      bind_eq_ok_iff.2 ⟨_, Code.value_view (p := 0) rfl h.1,
        bind_eq_ok_iff.2 ⟨_, Code.value_view (p := 1) rfl h.2, rfl⟩⟩
    rw [Decoded.execute_of_effectOf Code.decode_operation he]
    rfl
  iterate 2
    · next t x y hi =>
      cases hi
      exact hcompute h.1 (Decoded.binary_eq_ok_iff.2 ⟨_, Code.value_view (p := 1) rfl h.2.1, _,
        Code.value_view (p := 2) rfl h.2.2, rfl⟩)
  iterate 2
    · next t x hi =>
      cases hi
      exact hassign h.1 (bind_eq_ok_iff.2 ⟨_, Code.value_view (p := 1) rfl h.2,
        bind_eq_ok_iff.2 ⟨t, Code.destination_eq_ok_iff.2 rfl, rfl⟩⟩)
  iterate 4
    · next t x hi =>
      cases hi
      exact hcompute h.1 (Decoded.unary_eq_ok_iff.2 ⟨_, Code.value_view (p := 1) rfl h.2, rfl⟩)
  · cases h

/-- Whether a branch that depends on the flags alone is taken. -/
def Opcode.takes (mask flags : Nat) : Opcode → Bool
  | .bra => true
  | .brz => Arithmetic.isZero mask flags
  | .bnz => !Arithmetic.isZero mask flags
  | .brc => Arithmetic.isCarry mask flags
  | .bnc => !Arithmetic.isCarry mask flags
  | _ => false

/-- Whether a branch depends on no more than whether the last result was zero or a carry. -/
def Opcode.isJump : Opcode → Bool
  | .bra | .brz | .bnz | .brc | .bnc => true
  | _ => false

section Branch

variable {l : Label} {rest : List Operand}

/-- A branch whose condition holds goes to its label. -/
theorem Frame.execute_taken (hb : op.isBranch = true) {a : Nat}
    (ha : code.resolution.addressOf l = some a)
    (hcond : (code.decode op (.label l :: rest)).condition code.config (frame.view base).core op =
      .ok true) :
    (code.decode op (.label l :: rest)).execute code.config (frame.view base) =
      ({ frame with ip := a }.view base, .executed) := by
  have he : (code.decode op (.label l :: rest)).effectOf code.config (frame.view base).ram
      (frame.view base).core op = .ok (.jump a) := by
    rw [Decoded.effectOf_of_isBranch hb]
    exact bind_eq_ok_iff.2 ⟨true, hcond, Decoded.branch_eq_ok_iff.2
      (.inl ⟨rfl, a, Code.value_label_eq_ok_iff.2 ha, rfl⟩)⟩
  rw [Decoded.execute_of_effectOf Code.decode_operation he]
  rfl

/-- A branch whose condition does not hold is followed by the next instruction. -/
theorem Frame.execute_passed (hb : op.isBranch = true)
    (hcond : (code.decode op (.label l :: rest)).condition code.config (frame.view base).core op =
      .ok false) :
    (code.decode op (.label l :: rest)).execute code.config (frame.view base) =
      ({ frame with ip := frame.ip + 1 }.view base, .executed) := by
  have he : (code.decode op (.label l :: rest)).effectOf code.config (frame.view base).ram
      (frame.view base).core op = .ok .skip := by
    rw [Decoded.effectOf_of_isBranch hb]
    exact bind_eq_ok_iff.2 ⟨false, hcond, Decoded.branch_eq_ok_iff.2 (.inr ⟨rfl, rfl⟩)⟩
  rw [Decoded.execute_of_effectOf Code.decode_operation he]
  rfl

omit [PortBus Bus] in
/-- The condition of a jump, in any frame. -/
theorem Frame.condition_view (hop : op.isJump = true) :
    op.isBranch = true ∧
      (code.decode op (.label l :: rest)).condition code.config (frame.view base).core op =
        .ok (op.takes code.config.mask frame.flags) := by
  cases op with
  | bra | brz | bnz | brc | bnc => exact ⟨rfl, rfl⟩
  | _ => cases hop

end Branch

namespace Code.Reaches

variable {goal : View Bus → Prop} {l : Label}

theorem exec {frame' : Frame} (hh : base.core.halted = false)
    (hf : code.fetch frame.ip = some (.code (code.decode op operands)))
    (hl : frame.Legal base.core.registers.size code.config.maxStack (.code op operands))
    (he : frame.exec code.config.mask (.code op operands) = frame')
    (next : code.Reaches (frame'.view base) goal) : code.Reaches (frame.view base) goal :=
  .step hh (tick_of_execute hf (he ▸ Frame.execute_view hl) rfl) next

theorem taken (hh : base.core.halted = false) {a : Nat}
    (hf : code.fetch frame.ip = some (.code (code.decode op [.label l])))
    (ha : code.resolution.addressOf l = some a) (hop : op.isJump = true)
    (ht : op.takes code.config.mask frame.flags = true)
    (next : code.Reaches ({ frame with ip := a }.view base) goal) :
    code.Reaches (frame.view base) goal := by
  obtain ⟨hb, hcond⟩ := Frame.condition_view hop
  exact .step hh (tick_of_execute hf (Frame.execute_taken hb ha (ht ▸ hcond)) rfl) next

theorem passed (hh : base.core.halted = false)
    (hf : code.fetch frame.ip = some (.code (code.decode op [.label l])))
    (hop : op.isJump = true) (ht : op.takes code.config.mask frame.flags = false)
    (next : code.Reaches ({ frame with ip := frame.ip + 1 }.view base) goal) :
    code.Reaches (frame.view base) goal := by
  obtain ⟨hb, hcond⟩ := Frame.condition_view hop
  exact .step hh (tick_of_execute hf (Frame.execute_passed hb (ht ▸ hcond)) rfl) next

section Parity

variable {x : Operand} (hf : code.fetch frame.ip = some (.code (code.decode .bev [.label l, x])))
  (hx : x.Readable base.core.registers.size)

include hf hx

theorem even (hh : base.core.halted = false) {a : Nat} (ha : code.resolution.addressOf l = some a)
    (ht : Arithmetic.isEven (x.eval code.config.mask frame.file) = true)
    (next : code.Reaches ({ frame with ip := a }.view base) goal) :
    code.Reaches (frame.view base) goal := by
  refine .step hh (tick_of_execute hf (Frame.execute_taken rfl ha ?_) rfl) next
  rw [← ht]
  exact bind_eq_ok_iff.2 ⟨_, Code.value_view (p := 1) rfl hx, rfl⟩

theorem odd (hh : base.core.halted = false)
    (ht : Arithmetic.isEven (x.eval code.config.mask frame.file) = false)
    (next : code.Reaches ({ frame with ip := frame.ip + 1 }.view base) goal) :
    code.Reaches (frame.view base) goal := by
  refine .step hh (tick_of_execute hf (Frame.execute_passed rfl ?_) rfl) next
  rw [← ht]
  exact bind_eq_ok_iff.2 ⟨_, Code.value_view (p := 1) rfl hx, rfl⟩

end Parity

end Code.Reaches

end Execution
end Wordcode
