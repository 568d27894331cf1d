import Wordcode.Proofs.Execution

/-!
# What effects depend on and what they keep

The effects of instructions, seen from outside. Every opcode has effects of one of a few
kinds (`Decoded.Yields`), and from this kind alone follows what execution keeps and what
it depends on.

* `Decoded.yields_of_effectOf`: the kinds of effects of each opcode;
* `Core.put`: a register written;
* `View.Within`: there are so many registers, and no register, stack entry or data word
  exceeds a bound, which execution keeps (`View.Within.execute`).
-/

namespace Wordcode

variable {Bus : Type}

theorem pure_eq_ok_iff {ε α : Type} {a b : α} : (pure a : Except ε α) = .ok b ↔ b = a :=
  ⟨fun h => by cases h; rfl, fun h => by rw [h]; rfl⟩

theorem map_eq_ok_iff {ε α β : Type} {f : α → β} {x : Except ε α} {b : β} :
    f <$> x = .ok b ↔ ∃ a, x = .ok a ∧ b = f a := by
  cases x <;> simp [Functor.map, Except.map, eq_comm]

/-! ## Masks -/

namespace Config

theorem and_mask (config : Config) (n : Nat) : n &&& config.mask = n % (config.mask + 1) := by
  rw [mask, Word.and_mask, Word.mask_add_one]

theorem and_mask_of_le {config : Config} {n : Nat} (h : n ≤ config.mask) :
    n &&& config.mask = n := by
  rw [and_mask, Nat.mod_eq_of_lt (Nat.lt_succ_of_le h)]

theorem mask_add_one_of_le {config : Config} (h : config.wordBits ≤ Word.maxBits) :
    config.mask + 1 = Nat.pow 2 config.wordBits := by
  rw [mask, Word.mask_add_one, Word.count, Nat.min_eq_left h]

theorem Valid.mask_add_one {config : Config} (h : config.Valid) :
    config.mask + 1 = Nat.pow 2 config.wordBits :=
  mask_add_one_of_le h.wordBits_le

end Config

/-! ## Kinds of opcodes and effects -/

namespace Opcode

/-- Whether an instruction goes to its first operand under a condition. -/
def isBranch : Opcode → Bool
  | .bra | .brz | .bnz | .brc | .bnc | .brp | .brn | .bev | .bod => true
  | _ => false

/-- Whether the condition of a branch depends on more of the flags than fits the word. -/
def readsCarry : Opcode → Bool
  | .brc | .bnc => true
  | _ => false

/-- Whether an instruction works on registers, flags, memory and ports only, and is
    followed by the next one. -/
def isPlain : Opcode → Bool
  | .psh | .pop | .cal | .ret | .dw | .dd | .dq => false
  | op => !op.isBranch

theorem isPlain_of_isBranch {op : Opcode} (h : op.isBranch = true) : op.isPlain = false := by
  cases op <;> simp_all [isPlain, isBranch]

end Opcode

namespace Decoded

variable {config : Config} {ram : Array Cell} {core : Core} {d : Decoded} {e : Effect}

theorem unary_eq_ok_iff {f : Nat → Nat} :
    d.unary core f = .ok e ↔
      ∃ x, d.value core 2 = .ok x ∧ e = .compute (d.destination 1) (f x) := by
  simp only [unary, bind_eq_ok_iff, pure_eq_ok_iff]

theorem binary_eq_ok_iff {f : Nat → Nat → Nat} :
    d.binary core f = .ok e ↔
      ∃ x, d.value core 2 = .ok x ∧ ∃ y, d.value core 3 = .ok y ∧
        e = .compute (d.destination 1) (f x y) := by
  simp only [binary, bind_eq_ok_iff, pure_eq_ok_iff]

theorem quotient_eq_ok_iff {f : Nat → Nat → Nat} :
    d.quotient core f = .ok e ↔
      ∃ x, d.value core 2 = .ok x ∧ ∃ y, d.value core 3 = .ok y ∧
        (y = 0 ∧ e = .trap ∨ y ≠ 0 ∧ e = .compute (d.destination 1) (f x y)) := by
  simp only [quotient, bind_eq_ok_iff]
  refine exists_congr fun x => and_congr_right fun _ => exists_congr fun y =>
    and_congr_right fun _ => ?_
  by_cases hy : y = 0 <;> simp [hy, pure_eq_ok_iff]

theorem branch_eq_ok_iff {taken : Bool} :
    d.branch core taken = .ok e ↔
      taken = true ∧ (∃ a, d.value core 1 = .ok a ∧ e = .jump a) ∨ taken = false ∧ e = .skip := by
  cases taken <;> simp [branch, map_eq_ok_iff, pure_eq_ok_iff]

theorem address_eq_ok_iff {value location : Nat} :
    address ram value = .ok location ↔ value < ram.size ∧ location = value := by
  by_cases h : value < ram.size <;> simp [address, h, eq_comm]

theorem effectOf_load_eq_ok_iff :
    d.effectOf config ram core .load = .ok e ↔
      ∃ location, d.value core 2 = .ok location ∧ ∃ word, ram[location]? = some (.data word) ∧
        ∃ t, d.destination 1 = .ok t ∧ e = .assign t word := by
  simp only [effectOf, bind_eq_ok_iff, address_eq_ok_iff]
  constructor
  · rintro ⟨location, hv, _, ⟨-, rfl⟩, h⟩
    split at h
    · next word hw => exact ⟨_, hv, word, hw, by simpa [map_eq_ok_iff] using h⟩
    · cases h
  · rintro ⟨location, hv, word, hw, h⟩
    refine ⟨location, hv, location, ⟨(Array.getElem?_eq_some_iff.1 hw).1, rfl⟩, ?_⟩
    rw [hw]
    simpa [map_eq_ok_iff] using h

theorem effectOf_psh_eq_ok_iff :
    d.effectOf config ram core .psh = .ok e ↔
      core.stack.length < config.maxStack ∧ ∃ word, d.value core 1 = .ok word ∧ e = .push word := by
  by_cases h : config.maxStack ≤ core.stack.length
  · simp only [effectOf, h, if_true]
    exact ⟨fun hh => (nomatch hh), fun ⟨hh, _⟩ => absurd h (by omega)⟩
  · have hlt : core.stack.length < config.maxStack := by omega
    simp [effectOf, h, hlt, map_eq_ok_iff]

theorem effectOf_pop_eq_ok_iff :
    d.effectOf config ram core .pop = .ok e ↔
      core.stack ≠ [] ∧ e = .pop (d.destination 1) := by
  cases h : core.stack with
  | nil =>
    simp only [effectOf, h]
    exact ⟨fun hh => (nomatch hh), fun ⟨hh, _⟩ => absurd rfl hh⟩
  | cons word stack => simp [effectOf, h, pure_eq_ok_iff]

theorem effectOf_cal_eq_ok_iff :
    d.effectOf config ram core .cal = .ok e ↔
      core.calls.length < config.maxStack ∧ ∃ a, d.value core 1 = .ok a ∧ e = .call a := by
  by_cases h : config.maxStack ≤ core.calls.length
  · simp only [effectOf, h, if_true]
    exact ⟨fun hh => (nomatch hh), fun ⟨hh, _⟩ => absurd h (by omega)⟩
  · have hlt : core.calls.length < config.maxStack := by omega
    simp [effectOf, h, hlt, map_eq_ok_iff]

/-- The effects that an instruction of a given opcode can have, by their kind. -/
inductive Yields (config : Config) (ram : Array Cell) (core : Core) (d : Decoded) :
    Opcode → Effect → Prop
  | compute {op : Opcode} {result : Nat} : op.isPlain = true → op.slots[0]? = some .register →
      Yields config ram core d op (.compute (d.destination 1) result)
  | compare {result : Nat} : Yields config ram core d .cmp (.compare result)
  | assign {op : Opcode} {t word : Nat} : op.isPlain = true → op.slots[0]? = some .register →
      d.destination 1 = .ok t → Yields config ram core d op (.assign t (word &&& config.mask))
  | load {t location word : Nat} : ram[location]? = some (.data word) →
      d.destination 1 = .ok t → Yields config ram core d .load (.assign t word)
  | store {location word : Nat} : Yields config ram core d .store
      (.store location (word &&& config.mask))
  | push {word : Nat} : core.stack.length < config.maxStack → d.value core 1 = .ok word →
      Yields config ram core d .psh (.push word)
  | pop : core.stack ≠ [] → Yields config ram core d .pop (.pop (d.destination 1))
  | jump {op : Opcode} {target : Nat} : op.isBranch = true → d.value core 1 = .ok target →
      Yields config ram core d op (.jump target)
  | pass {op : Opcode} : op.isBranch = true → Yields config ram core d op .skip
  | call {target : Nat} : core.calls.length < config.maxStack → d.value core 1 = .ok target →
      Yields config ram core d .cal (.call target)
  | leave : Yields config ram core d .ret .leave
  | halt : Yields config ram core d .hlt .halt
  | trap {op : Opcode} : op.isPlain = true → Yields config ram core d op .trap
  | receive {port : Nat} : Yields config ram core d .inp (.receive (d.destination 1) port)
  | send {port word : Nat} : Yields config ram core d .out (.send port word)
  | skip : Yields config ram core d .nop .skip

theorem yields_of_branch {op : Opcode} {taken : Bool} (hb : op.isBranch = true)
    (h : d.branch core taken = .ok e) : d.Yields config ram core op e := by
  rcases branch_eq_ok_iff.1 h with ⟨-, a, ha, rfl⟩ | ⟨-, rfl⟩
  · exact .jump hb ha
  · exact .pass hb

/-- Every effect is of a kind that its opcode can have. -/
theorem yields_of_effectOf {op : Opcode} (h : d.effectOf config ram core op = .ok e) :
    d.Yields config ram core op e := by
  cases op with
  | add | sub | mlt | and | or | xor | nand | nor | xnor | bsl | bsr =>
    obtain ⟨_, _, _, _, rfl⟩ := binary_eq_ok_iff.1 h
    exact .compute rfl rfl
  | inc | dec | not | lsh | rsh =>
    obtain ⟨_, _, rfl⟩ := unary_eq_ok_iff.1 h
    exact .compute rfl rfl
  | div | mod =>
    obtain ⟨_, _, _, _, ⟨-, rfl⟩ | ⟨-, rfl⟩⟩ := quotient_eq_ok_iff.1 h
    · exact .trap rfl
    · exact .compute rfl rfl
  | cmp =>
    simp only [effectOf, bind_eq_ok_iff, pure_eq_ok_iff] at h
    obtain ⟨_, _, _, _, rfl⟩ := h
    exact .compare
  | mov | imm =>
    simp only [effectOf, bind_eq_ok_iff, pure_eq_ok_iff] at h
    obtain ⟨_, _, _, hd, rfl⟩ := h
    exact .assign rfl rfl hd
  | load =>
    obtain ⟨_, _, _, hw, _, hd, rfl⟩ := effectOf_load_eq_ok_iff.1 h
    exact .load hw hd
  | store =>
    simp only [effectOf, bind_eq_ok_iff, pure_eq_ok_iff] at h
    obtain ⟨_, _, _, _, _, _, rfl⟩ := h
    exact .store
  | psh =>
    obtain ⟨hs, _, hv, rfl⟩ := effectOf_psh_eq_ok_iff.1 h
    exact .push hs hv
  | pop =>
    obtain ⟨hs, rfl⟩ := effectOf_pop_eq_ok_iff.1 h
    exact .pop hs
  | bra | brz | bnz | brc | bnc | brp | brn => exact yields_of_branch rfl h
  | bev | bod =>
    obtain ⟨_, _, h⟩ := bind_eq_ok_iff.1 h
    exact yields_of_branch rfl h
  | cal =>
    obtain ⟨hs, _, hv, rfl⟩ := effectOf_cal_eq_ok_iff.1 h
    exact .call hs hv
  | inp =>
    simp only [effectOf, bind_eq_ok_iff, pure_eq_ok_iff] at h
    obtain ⟨_, _, rfl⟩ := h
    exact .receive
  | out =>
    simp only [effectOf, bind_eq_ok_iff, pure_eq_ok_iff] at h
    obtain ⟨_, _, _, _, rfl⟩ := h
    exact .send
  | ret => cases h; exact .leave
  | hlt => cases h; exact .halt
  | brk => cases h; exact .trap rfl
  | nop => cases h; exact .skip
  | dw | dd | dq => cases h

variable [PortBus Bus]

theorem execute_of_effectOf {v : View Bus} {op : Opcode} (hop : d.operation = .code op)
    (h : d.effectOf config v.ram v.core op = .ok e) :
    d.execute config v = e.perform config.mask v := by
  simp only [execute, effect, hop, h]

/-- An instruction that does not fault performs its effect. -/
theorem exists_effectOf_of_execute {v u : View Bus} {o : Outcome} {op : Opcode}
    (hop : d.operation = .code op) (h : d.execute config v = (u, o)) (hf : o.isFault = false) :
    ∃ e, d.effectOf config v.ram v.core op = .ok e ∧ e.perform config.mask v = (u, o) := by
  cases he : d.effectOf config v.ram v.core op with
  | ok e => exact ⟨e, rfl, execute_of_effectOf hop he ▸ h⟩
  | error kind =>
    simp only [execute, effect, hop, he] at h
    cases h
    cases hf

end Decoded

/-! ## Writing registers -/

namespace Core

/-- The core with a word in a register. Register 0 stays as it is. -/
def put (core : Core) (t word : Nat) : Core :=
  if t = 0 then core else { core with registers := core.registers.setIfInBounds t word }

variable (core : Core) (t word : Nat)

@[simp] theorem put_ip : (core.put t word).ip = core.ip := by
  unfold put; split <;> rfl

@[simp] theorem put_flags : (core.put t word).flags = core.flags := by
  unfold put; split <;> rfl

@[simp] theorem put_stack : (core.put t word).stack = core.stack := by
  unfold put; split <;> rfl

@[simp] theorem put_calls : (core.put t word).calls = core.calls := by
  unfold put; split <;> rfl

@[simp] theorem put_halted : (core.put t word).halted = core.halted := by
  unfold put; split <;> rfl

@[simp] theorem size_put : (core.put t word).registers.size = core.registers.size := by
  unfold put; split <;> simp

variable {core t}

theorem registers_put_of_ne {j : Nat} (h : j ≠ t) :
    (core.put t word).registers[j]? = core.registers[j]? := by
  unfold put
  split
  · rfl
  · exact Array.getElem?_setIfInBounds_ne h.symm

theorem registers_put_self (h : t ≠ 0) (ht : t < core.registers.size) :
    (core.put t word).registers[t]? = some word := by
  rw [put, if_neg h]
  exact Array.getElem?_setIfInBounds_self_of_lt ht

theorem write_of_lt (ht : t < core.registers.size) : core.write t word = .ok (core.put t word) := by
  rw [write, if_pos ht, put]

theorem write_of_not_lt (ht : ¬t < core.registers.size) :
    core.write t word = .error (.registerOutOfRange t core.registers.size) := by
  rw [write, if_neg ht]

end Core

namespace View

variable {v : View Bus} {t word : Nat}

theorem assign_of_lt (ht : t < v.core.registers.size) :
    v.assign t word =
      ({ v with core := { v.core.put t word with ip := v.core.ip + 1 } }, .executed) := by
  simp [assign, Core.write_of_lt word ht, advance, goTo]

theorem assign_of_not_lt (ht : ¬t < v.core.registers.size) :
    v.assign t word = (v, .faulted (.registerOutOfRange t v.core.registers.size)) := by
  simp [assign, Core.write_of_not_lt word ht]

/-- An assignment that does not fault is to a register that exists. -/
theorem lt_of_assign {u : View Bus} {o : Outcome} (h : v.assign t word = (u, o))
    (hf : o.isFault = false) : t < v.core.registers.size := by
  by_contra ht
  rw [assign_of_not_lt ht] at h
  cases h
  cases hf

@[simp] theorem assignTo_ok : v.assignTo (.ok t) word = v.assign t word := rfl

@[simp] theorem assignTo_error {kind : FaultKind} :
    v.assignTo (.error kind) word = (v, .faulted kind) := rfl

/-- A word is put somewhere without a fault only if there is a place to put it. -/
theorem exists_of_assignTo {destination : Except FaultKind Nat} {u : View Bus} {o : Outcome}
    (h : v.assignTo destination word = (u, o)) (hf : o.isFault = false) :
    ∃ t, destination = .ok t ∧ v.assign t word = (u, o) := by
  cases destination with
  | ok t => exact ⟨t, rfl, h⟩
  | error kind =>
    cases h
    cases hf

end View

/-! ## Bounds on words -/

/-- There are `count` registers, and no register, stack entry or data word exceeds a bound. -/
structure View.Within (count bound : Nat) (v : View Bus) : Prop where
  size : v.core.registers.size = count
  registers : ∀ j word : Nat, v.core.registers[j]? = some word → word ≤ bound
  stack : ∀ word ∈ v.core.stack, word ≤ bound
  ram : ∀ a word : Nat, v.ram[a]? = some (.data word) → word ≤ bound

namespace View.Within

variable {count bound : Nat} {config : Config} {v : View Bus} {d : Decoded}

/-- A core that has not run keeps all words within any bound: they are zeros. -/
theorem initial (config : Config) (bus : Bus) :
    (View.initial config bus).Within config.registers bound where
  size := by simp [View.initial, Core.initial]
  registers j word h := by
    simp only [View.initial, Core.initial, Array.getElem?_replicate] at h
    split at h
    · cases h
      exact Nat.zero_le _
    · cases h
  stack word h := absurd h List.not_mem_nil
  ram a word h := by
    simp only [View.initial, Array.getElem?_replicate] at h
    split at h
    · cases h
      exact Nat.zero_le _
    · cases h

theorem read {j word : Nat} (h : v.Within count bound) (hr : v.core.read j = .ok word) :
    word ≤ bound := by
  unfold Core.read at hr
  split at hr
  · cases hr
  · next w hw =>
    cases hr
    split
    · exact Nat.zero_le _
    · exact h.registers _ _ hw

theorem value {p word : Nat} (h : v.Within count bound)
    (hn : ∀ n, d.slot? p = some (.value n) → n ≤ bound) (hv : d.value v.core p = .ok word) :
    word ≤ bound := by
  unfold Decoded.value at hv
  split at hv
  · exact h.read hv
  · next n hs =>
    cases hv
    exact hn _ hs
  · cases hv
  · cases hv

/-- A word within the bound may be assigned. -/
theorem assign {t word : Nat} (h : v.Within count bound) (hw : word ≤ bound) :
    (v.assign t word).1.Within count bound := by
  by_cases ht : t < v.core.registers.size
  · rw [assign_of_lt ht]
    refine ⟨by simpa using h.size, fun j w hj => ?_, by simpa using h.stack, h.ram⟩
    by_cases hjt : j = t ∧ t ≠ 0
    · obtain ⟨rfl, h0⟩ := hjt
      rw [Core.registers_put_self word h0 ht] at hj
      cases hj
      exact hw
    · by_cases h0 : t = 0
      · exact h.registers j w (by simpa [Core.put, h0] using hj)
      · exact h.registers j w (by
          rwa [Core.registers_put_of_ne word fun e => hjt ⟨e, h0⟩] at hj)
  · rw [assign_of_not_lt ht]
    exact h

theorem assignTo {destination : Except FaultKind Nat} {word : Nat} (h : v.Within count bound)
    (hw : word ≤ bound) : (v.assignTo destination word).1.Within count bound := by
  cases destination with
  | ok t => exact h.assign hw
  | error kind => exact h

variable [PortBus Bus]

/-- Execution keeps the bound, if it is no less than the largest word and no more is ever
    pushed. -/
theorem execute {op : Opcode} (h : v.Within count bound) (hop : d.operation = .code op)
    (hm : config.mask ≤ bound)
    (hp : op = .psh → ∀ n, d.slot? 1 = some (.value n) → n ≤ bound) :
    (d.execute config v).1.Within count bound := by
  unfold Decoded.execute Decoded.effect
  simp only [hop]
  cases he : d.effectOf config v.ram v.core op with
  | error kind => exact h
  | ok e =>
    have hmasked (n : Nat) : n &&& config.mask ≤ bound :=
      Nat.le_trans (Word.and_mask_le n _) hm
    cases Decoded.yields_of_effectOf he with
    | compute =>
      exact assignTo (v := { v with core := _ }) ⟨h.size, h.registers, h.stack, h.ram⟩ (hmasked _)
    | assign => exact h.assign (hmasked _)
    -- What is read from memory is not masked again: it is within the bound as the memory is.
    | load hw => exact h.assign (h.ram _ _ hw)
    | store =>
      refine ⟨h.size, h.registers, h.stack, fun a w ha => ?_⟩
      simp only [Effect.perform, advance, goTo, Array.getElem?_setIfInBounds] at ha
      split at ha
      · split at ha
        · cases ha
          exact hmasked _
        · cases ha
      · exact h.ram _ _ ha
    | push _ hv =>
      -- Only here can a word of the instruction itself get into the machine without a mask.
      refine ⟨h.size, h.registers, fun w hw => ?_, h.ram⟩
      rcases List.mem_cons.1 hw with rfl | hw
      · exact h.value (hp rfl) hv
      · exact h.stack w hw
    | pop _ =>
      cases hs : v.core.stack with
      | nil => simpa [Effect.perform, hs] using h
      | cons word stack =>
        have hst := h.stack
        rw [hs] at hst
        simp only [Effect.perform, hs]
        exact assignTo (v := { v with core := _ })
          ⟨h.size, h.registers, fun w hw => hst w (List.mem_cons_of_mem _ hw), h.ram⟩
          (hst word List.mem_cons_self)
    | leave =>
      cases hs : v.core.calls <;> simp only [Effect.perform, hs] <;>
        exact ⟨h.size, h.registers, h.stack, h.ram⟩
    | @receive port =>
      rcases hr : PortBus.read v.bus port with ⟨error | word, bus⟩ <;>
        simp only [Effect.perform, hr]
      · exact ⟨h.size, h.registers, h.stack, h.ram⟩
      · exact assignTo (v := { v with bus }) ⟨h.size, h.registers, h.stack, h.ram⟩ (hmasked _)
    | @send port word =>
      rcases hr : PortBus.write v.bus port word with ⟨error | _, bus⟩ <;>
        simp only [Effect.perform, hr] <;> exact ⟨h.size, h.registers, h.stack, h.ram⟩
    | _ => exact ⟨h.size, h.registers, h.stack, h.ram⟩

end View.Within
end Wordcode
