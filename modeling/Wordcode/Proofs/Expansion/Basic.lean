import Mathlib.Data.Nat.Basic
import Wordcode.Lowering.Expansion
import Wordcode.Proofs.Frame

/-!
# Parts of expansions

What the parts do that expansions are made of: registers are borrowed and given back,
operands are copied, and a result is delivered.

* `Expansion.length_borrow`, `Expansion.mem_borrow`: as many registers are borrowed as asked
  for, and none that is to be avoided;
* `Code.Reaches.borrow`: what happens between saving and restoring registers happens to all
  other registers.
-/

namespace Wordcode

variable {Bus : Type}

open Instruction

/-! ## Arithmetic on words -/

namespace Config

variable (config : Config)

theorem mask_lt : config.mask < Word.limit := Word.mask_lt_limit _

/-- The number of words divides the number of results. -/
theorem dvd_resultCount : config.mask + 1 ∣ Arithmetic.resultCount := by
  rw [mask, Word.mask_add_one]
  exact Nat.pow_dvd_pow 2 (Nat.le_trans (Nat.min_le_right _ _) (by decide))

end Config

namespace Arithmetic

variable {config : Config} {x y : Nat}

theorem isZero_iff {flags : Nat} (h : flags ≤ config.mask) :
    isZero config.mask flags = decide (flags = 0) := by
  rw [isZero, Config.and_mask_of_le h]
  rfl

theorem difference_of_le (hx : x ≤ config.mask) (h : y ≤ x) : difference x y = x - y := by
  have hmask := config.mask_lt
  have hlimit : Word.limit < resultCount := by decide
  rw [difference, show x + (resultCount - y) = x - y + resultCount by omega, Nat.add_mod_right,
    Nat.mod_eq_of_lt (by omega)]

/-- A difference that borrows does not fit the word. -/
theorem mask_lt_difference (hy : y ≤ config.mask) (h : x < y) : config.mask < difference x y := by
  have hmask := config.mask_lt
  have hlimit : Word.limit + Word.limit < resultCount := by decide
  rw [difference, Nat.mod_eq_of_lt (by omega)]
  omega

theorem isCarry_difference (hx : x ≤ config.mask) (hy : y ≤ config.mask) :
    isCarry config.mask (difference x y) = decide (x < y) := by
  by_cases h : x < y
  · simp [isCarry, h, mask_lt_difference hy h]
  · rw [isCarry, difference_of_le hx (by omega)]
    simp only [h, decide_false, decide_eq_false_iff_not]
    omega

/-- The part of a difference that fits the word. -/
theorem difference_and_mask (hy : y ≤ config.mask) :
    difference x y &&& config.mask = (x + (config.mask + 1 - y)) % (config.mask + 1) := by
  have hmask := config.mask_lt
  have hlimit : Word.limit < resultCount := by decide
  obtain ⟨k, hk⟩ := config.dvd_resultCount
  have hpos : 0 < k := by
    rcases Nat.eq_zero_or_pos k with rfl | h
    · rw [Nat.mul_zero] at hk
      omega
    · exact h
  have hle : config.mask + 1 ≤ resultCount := by omega
  have hsplit : x + (resultCount - y) =
      x + (config.mask + 1 - y) + (config.mask + 1) * (k - 1) := by
    obtain ⟨k, rfl⟩ : ∃ k', k = k' + 1 := ⟨k - 1, by omega⟩
    rw [Nat.mul_succ] at hk
    rw [Nat.add_sub_cancel]
    omega
  rw [Config.and_mask, difference, Nat.mod_mod_of_dvd _ config.dvd_resultCount, hsplit,
    Nat.add_mul_mod_self_left]

end Arithmetic

namespace Opcode

variable {config : Config} {flags : Nat}

theorem takes_brz (h : flags ≤ config.mask) : brz.takes config.mask flags = decide (flags = 0) :=
  Arithmetic.isZero_iff h

theorem takes_bnz (h : flags ≤ config.mask) : bnz.takes config.mask flags = !decide (flags = 0) :=
  congrArg Bool.not (Arithmetic.isZero_iff h)

theorem takes_brc : brc.takes config.mask flags = decide (config.mask < flags) := rfl

theorem takes_bnc : bnc.takes config.mask flags = !decide (config.mask < flags) := rfl

end Opcode

/-! ## Borrowed registers -/

namespace Expansion

theorem mem_borrow {avoid : List Nat} {count j : Nat} (h : j ∈ borrow avoid count) :
    j ≠ 0 ∧ j ∉ avoid := by
  have hmem := List.mem_filter.1 (List.mem_of_mem_take h)
  exact ⟨by have := List.mem_range'_1.1 hmem.1; omega, by simpa using hmem.2⟩

/-- A register that is borrowed beside an instruction is none that the instruction names. -/
theorem mem_borrow_avoided {context : Context} {operands : List Operand} {count j : Nat}
    (h : j ∈ borrow (avoided context operands) count) :
    j ≠ 0 ∧ j ≠ context.scratch ∧ .register j ∉ operands := by
  obtain ⟨h0, havoid⟩ := mem_borrow h
  rw [avoided, List.mem_cons, not_or] at havoid
  exact ⟨h0, havoid.1, fun hmem => havoid.2 (List.mem_filterMap.2 ⟨_, hmem, rfl⟩)⟩

theorem nodup_borrow (avoid : List Nat) (count : Nat) : (borrow avoid count).Nodup :=
  ((List.nodup_range' 1).filter _).sublist (List.take_sublist _ _)

/-- There are always enough registers to borrow. -/
theorem length_borrow (avoid : List Nat) (count : Nat) : (borrow avoid count).length = count := by
  rw [borrow, List.length_take, Nat.min_eq_left]
  -- among so many registers, no more than those to be avoided are left out
  have hsplit := List.length_eq_length_filter_add (l := List.range' 1 (avoid.length + count))
    fun j => !avoid.contains j
  have hsub : ((List.range' 1 (avoid.length + count)).filter
      fun j => !(!avoid.contains j)).length ≤ avoid.length := by
    refine ((List.nodup_range' 1).filter _).length_le_of_subset fun j hj => ?_
    simpa using (List.mem_filter.1 hj).2
  rw [List.length_range'] at hsplit
  omega

@[simp] theorem extent_save (registers : List Nat) :
    extent (save registers) = registers.length := by
  induction registers with
  | nil => rfl
  | cons j rest ih =>
    rw [save, List.map_cons, extent_cons, ← save, ih, List.length_cons, Nat.add_comm]
    rfl

@[simp] theorem extent_restore (registers : List Nat) :
    extent (restore registers) = registers.length := by
  rw [restore, ← List.length_reverse]
  induction registers.reverse with
  | nil => rfl
  | cons j rest ih =>
    rw [List.map_cons, extent_cons, ih, List.length_cons, Nat.add_comm]
    rfl

@[simp] theorem extent_announce (first count : Nat) : extent (announce first count) = 0 := by
  rw [announce]
  induction List.range' first count with
  | nil => rfl
  | cons id rest ih => rw [List.map_cons, extent_cons, ih]; rfl

theorem footprint_copy (t : Nat) (x : Operand) : (copy t x).footprint = 1 := by
  cases x <;> rfl

end Expansion

namespace File

/-- The file with some registers as they are in another file. -/
def revert (file : File) (registers : List Nat) (old : File) : File where
  word j := if j ∈ registers then old.word j else file.word j
  zero := by rw [old.zero, file.zero, ite_self]

theorem word_revert (file : File) (registers : List Nat) (old : File) (j : Nat) :
    (file.revert registers old).word j = if j ∈ registers then old.word j else file.word j := rfl

theorem put_revert (file : File) (registers : List Nat) (old : File) (j : Nat) :
    (file.put j (old.word j)).revert registers old = file.revert (j :: registers) old := by
  ext k
  by_cases hj : k = j
  · subst hj
    by_cases h0 : k = 0
    · simp [word_revert, word_put, h0, file.zero, old.zero]
    · simp [word_revert, h0]
  · simp [word_revert, hj]

end File

/-- Announcements take no memory. -/
theorem Code.holds_announce_append {code : Code} {first count a : Nat} {rest : List Instruction} :
    code.Holds a (Expansion.announce first count ++ rest) ↔ code.Holds a rest := by
  rw [holds_append, Expansion.extent_announce, Nat.add_zero, Expansion.announce]
  refine and_iff_right ?_
  induction List.range' first count with
  | nil => trivial
  | cons id rest ih => exact ⟨trivial, ih⟩

namespace Code.Reaches

variable [PortBus Bus] {code : Code} {frame : Frame} {base : View Bus} {goal : View Bus → Prop}

/-- Registers are saved by pushing them, the first of them at the bottom. -/
theorem save {registers : List Nat} (hh : base.core.halted = false)
    (hold : code.Holds frame.ip (Expansion.save registers))
    (hrange : ∀ j ∈ registers, j < base.core.registers.size)
    (hroom : frame.stack.length + registers.length ≤ code.config.maxStack)
    (next : code.Reaches ({ frame with
      ip := frame.ip + registers.length
      stack := (registers.map frame.file.word).reverse ++ frame.stack }.view base) goal) :
    code.Reaches (frame.view base) goal := by
  induction registers generalizing frame with
  | nil => exact next
  | cons j rest ih =>
    obtain ⟨hf, hrest⟩ := (holds_code_cons rfl).1 hold
    rw [List.length_cons] at hroom
    refine .exec hh hf ⟨hrange j List.mem_cons_self, by omega⟩ rfl ?_
    refine ih hrest (fun k hk => hrange k (List.mem_cons_of_mem _ hk)) ?_ ?_
    · simp only [Frame.exec, List.length_cons]
      omega
    · rw [List.length_cons, Nat.add_comm rest.length, ← Nat.add_assoc] at next
      simpa [Frame.exec] using next

/-- Registers are restored by popping them, if they are what is on top of the stack. -/
theorem restore {registers : List Nat} {old : File} {stack : List Nat}
    (hh : base.core.halted = false)
    (hold : code.Holds frame.ip (Expansion.restore registers))
    (hrange : ∀ j ∈ registers, j < base.core.registers.size)
    (hstack : frame.stack = (registers.map old.word).reverse ++ stack)
    (next : code.Reaches ({ frame with
      ip := frame.ip + registers.length
      stack := stack
      file := frame.file.revert registers old }.view base) goal) :
    code.Reaches (frame.view base) goal := by
  suffices h : ∀ popped : List Nat,
      code.Holds frame.ip (popped.map fun j => .code .pop [.register j]) →
      (∀ j ∈ popped, j < base.core.registers.size) →
      frame.stack = popped.map old.word ++ stack →
      code.Reaches ({ frame with
        ip := frame.ip + popped.length
        stack := stack
        file := frame.file.revert popped old }.view base) goal →
      code.Reaches (frame.view base) goal by
    refine h registers.reverse hold (fun j hj => hrange j (List.mem_reverse.1 hj))
      (by rw [hstack, List.map_reverse]) ?_
    have hfile : frame.file.revert registers.reverse old = frame.file.revert registers old := by
      ext j
      simp [File.word_revert]
    rw [List.length_reverse, hfile]
    exact next
  clear hold hrange hstack next
  intro popped hold hrange hstack next
  induction popped generalizing frame with
  | nil =>
    have hframe : { frame with
        ip := frame.ip
        stack := stack
        file := frame.file.revert [] old } = frame := by
      ext <;> simp [File.word_revert, hstack]
    rwa [List.length_nil, Nat.add_zero, hframe] at next
  | cons j rest ih =>
    obtain ⟨hf, hrest⟩ := (holds_code_cons rfl).1 hold
    refine .exec hh hf ⟨hrange j List.mem_cons_self, by simp [hstack]⟩ rfl ?_
    refine ih hrest (fun k hk => hrange k (List.mem_cons_of_mem _ hk)) (by simp [Frame.exec,
      Frame.assign, hstack]) ?_
    rw [List.length_cons, Nat.add_comm rest.length, ← Nat.add_assoc] at next
    simpa [Frame.exec, Frame.assign, hstack, File.put_revert] using next

theorem compareZero {j : Nat} (hh : base.core.halted = false)
    (hf : code.fetch frame.ip = some (.code (code.decode .cmp [.register j, .immediate 0])))
    (hj : j < base.core.registers.size) (hle : frame.file.word j ≤ code.config.mask)
    (next : code.Reaches ({ frame with ip := frame.ip + 1, flags := frame.file.word j }.view base)
      goal) : code.Reaches (frame.view base) goal := by
  refine .exec hh hf ⟨hj, trivial⟩ rfl ?_
  simpa [Frame.exec, Arithmetic.difference_of_le hle (Nat.zero_le _)] using next

/-- A copy assigns the word of its operand. -/
theorem copy {t word : Nat} {x : Operand} {rest : List Instruction}
    (hh : base.core.halted = false) (hold : code.Holds frame.ip (Expansion.copy t x :: rest))
    (ht : t < base.core.registers.size) (hx : x.Readable base.core.registers.size)
    (hword : x.eval code.config.mask frame.file = word) (hle : word ≤ code.config.mask)
    (next : code.Holds (frame.ip + 1) rest → code.Reaches ((frame.assign t word).view base) goal) :
    code.Reaches (frame.view base) goal := by
  subst hword
  have hmask := Config.and_mask_of_le hle
  cases x with
  | register j =>
    obtain ⟨hf, hrest⟩ := (holds_code_cons rfl).1 hold
    refine .exec hh hf ⟨ht, hx⟩ rfl ?_
    simpa only [Frame.exec, hmask] using next hrest
  | immediate n =>
    obtain ⟨hf, hrest⟩ := (holds_code_cons rfl).1 hold
    refine .exec hh hf ⟨ht, hx⟩ rfl ?_
    simpa only [Frame.exec, hmask] using next hrest
  | label l => cases hx

/-- Between saving and restoring registers, their words are on the stack. What happens there
    happens to all other registers. -/
theorem borrow {registers : List Nat} {middle : List Instruction} (flags : Nat)
    (done : File → Prop) (hh : base.core.halted = false)
    (hold : code.Holds frame.ip
      (Expansion.save registers ++ middle ++ Expansion.restore registers))
    (hrange : ∀ j ∈ registers, j < base.core.registers.size)
    (hroom : frame.stack.length + registers.length ≤ code.config.maxStack)
    (hmiddle : ∀ ip stack, code.Holds ip middle →
      code.Reaches (Frame.view ⟨ip, frame.flags, stack, frame.file⟩ base) fun v =>
        ∃ file, done file ∧ v = Frame.view ⟨ip + extent middle, flags, stack, file⟩ base) :
    code.Reaches (frame.view base) fun v =>
      ∃ file, done file ∧
        v = Frame.view ⟨frame.ip +
          extent (Expansion.save registers ++ middle ++ Expansion.restore registers),
          flags, frame.stack, file.revert registers frame.file⟩ base := by
  rw [holds_append, holds_append, extent_append, Expansion.extent_save, ← Nat.add_assoc] at hold
  obtain ⟨⟨hsave, hmid⟩, hrestore⟩ := hold
  refine save hh hsave hrange hroom ((hmiddle _ _ hmid).bind ?_)
  rintro v ⟨file, hdone, rfl⟩
  refine restore hh hrestore hrange rfl (.here ⟨file, hdone, ?_⟩)
  simp [Nat.add_assoc]

end Code.Reaches

/-! ## Divisors -/

namespace Expansion

/-- How the instructions of a body may be put: a breakpoint in some way that takes one word,
    and all others as they are. -/
structure Settles (f : Instruction → List Instruction) : Prop where
  same : ∀ i, i ≠ .code .brk [] → f i = [i]
  trap : extent (f (.code .brk [])) = 1

theorem Settles.flatMap_eq {f : Instruction → List Instruction} (hf : Settles f)
    {body : List Instruction} (h : ∀ i ∈ body, i ≠ .code .brk []) : body.flatMap f = body := by
  induction body with
  | nil => rfl
  | cons i rest ih =>
    rw [List.flatMap_cons, hf.same i (h i List.mem_cons_self),
      ih fun j hj => h j (List.mem_cons_of_mem _ hj)]
    rfl

theorem save_ne_brk (registers : List Nat) : ∀ i ∈ save registers, i ≠ .code .brk [] := by
  simp [save]

theorem restore_ne_brk (registers : List Nat) : ∀ i ∈ restore registers, i ≠ .code .brk [] := by
  simp [restore]

theorem announce_ne_brk (first count : Nat) : ∀ i ∈ announce first count, i ≠ .code .brk [] := by
  rw [announce, List.forall_mem_map]
  exact fun _ _ h => (nomatch h)

theorem copy_ne_brk (t : Nat) (x : Operand) : copy t x ≠ .code .brk [] := by
  cases x <;> simp [copy]

theorem load_ne_brk {spare : List Nat} {y : Operand} {index : Nat} {load : List Instruction}
    (h : divisor spare y = some (index, load)) : ∀ i ∈ load, i ≠ .code .brk [] := by
  unfold divisor at h
  split at h
  · cases h
    simp
  · cases spare with
    | nil => cases h
    | cons _ _ =>
      cases h
      simpa using copy_ne_brk _ _

theorem register_or_mem_of_divisor {spare : List Nat} {y : Operand} {index : Nat}
    {load : List Instruction} (h : divisor spare y = some (index, load)) :
    y = .register index ∨ index ∈ spare := by
  unfold divisor at h
  split at h
  · cases h
    exact .inl rfl
  · cases spare with
    | nil => cases h
    | cons _ _ =>
      cases h
      exact .inr List.mem_cons_self

/-- A register that is neither borrowed nor given does not hold the divisor. -/
theorem ne_of_divisor {spare : List Nat} {y : Operand} {index j : Nat} {load : List Instruction}
    (h : divisor spare y = some (index, load)) (hy : y ≠ .register j) (hj : j ∉ spare) :
    index ≠ j := by
  rintro rfl
  rcases register_or_mem_of_divisor h with hreg | hmem
  · exact hy hreg
  · exact hj hmem

theorem Settles.extent_zeroTrap {f : Instruction → List Instruction} (hf : Settles f)
    (divisor go done : Nat) : extent ((zeroTrap divisor go done).flatMap f) = 4 := by
  simp only [zeroTrap, compareZero, jump, List.flatMap_cons, List.flatMap_nil, List.append_nil,
    hf.same (.code .cmp _) (by simp), hf.same (.code .bnz _) (by simp),
    hf.same (.code .bra _) (by simp), extent_append, hf.trap]
  rfl

end Expansion

namespace Code.Reaches

variable [PortBus Bus] {code : Code} {frame : Frame} {base : View Bus} {goal : View Bus → Prop}

/-- A divisor that is not zero passes the trap. -/
theorem zeroTrap {f : Instruction → List Instruction} (hf : Expansion.Settles f)
    {divisor go done a : Nat} (hh : base.core.halted = false)
    (hold : code.Holds frame.ip ((Expansion.zeroTrap divisor go done).flatMap f))
    (hgo : code.resolution.addressOf (.anonymous go) = some a)
    (hlt : divisor < base.core.registers.size) (h0 : frame.file.word divisor ≠ 0)
    (hle : frame.file.word divisor ≤ code.config.mask)
    (next : code.Reaches ({ frame with ip := a, flags := frame.file.word divisor }.view base)
      goal) : code.Reaches (frame.view base) goal := by
  simp only [Expansion.zeroTrap, Expansion.compareZero, Expansion.jump, List.flatMap_cons,
    hf.same (.code .cmp _) (by simp), hf.same (.code .bnz _) (by simp), List.cons_append,
    List.nil_append] at hold
  obtain ⟨h₀, hold⟩ := (holds_code_cons rfl).1 hold
  obtain ⟨h₁, -⟩ := (holds_code_cons rfl).1 hold
  refine .compareZero hh h₀ hlt hle (.taken hh h₁ hgo rfl ?_ next)
  simp [Opcode.takes_bnz hle, h0]

/-- Where breakpoints are put as halts, a divisor that is zero stops the core. -/
theorem zeroTrap_halt {f : Instruction → List Instruction} (hf : Expansion.Settles f) {n : Note}
    (htrap : f (.code .brk []) = [.note n, .code .hlt []]) {divisor go done : Nat}
    (hh : base.core.halted = false)
    (hold : code.Holds frame.ip ((Expansion.zeroTrap divisor go done).flatMap f))
    (hlt : divisor < base.core.registers.size) (h0 : frame.file.word divisor = 0)
    (hgoal : goal ({ frame with ip := frame.ip + 3, flags := 0 }.view base).halt) :
    code.Reaches (frame.view base) goal := by
  simp only [Expansion.zeroTrap, Expansion.compareZero, Expansion.jump, List.flatMap_cons, htrap,
    hf.same (.code .cmp _) (by simp), hf.same (.code .bnz _) (by simp), List.cons_append,
    List.nil_append] at hold
  obtain ⟨h₀, hold⟩ := (holds_code_cons rfl).1 hold
  obtain ⟨h₁, hold⟩ := (holds_code_cons rfl).1 hold
  obtain ⟨h₂, -⟩ := (holds_code_cons rfl).1 hold.note_tail
  refine .compareZero hh h₀ hlt (by rw [h0]; exact Nat.zero_le _) (.passed hh h₁ rfl ?_ ?_)
  · simp [h0, Opcode.takes_bnz]
  · exact .step hh (tick_of_execute h₂ rfl rfl) (.here (by rw [h0]; exact hgoal))

/-- A divisor is in its register, or is put into one that is borrowed for it. -/
theorem loadDivisor {spare : List Nat} {y : Operand} {divisor : Nat} {load : List Instruction}
    (hh : base.core.halted = false) (hdivisor : Expansion.divisor spare y = some (divisor, load))
    (hspare : ∀ j ∈ spare, j ≠ 0 ∧ j < base.core.registers.size) {rest : List Instruction}
    (hold : code.Holds frame.ip (load ++ rest)) (hy : y.Readable base.core.registers.size)
    (hle : y.eval code.config.mask frame.file ≤ code.config.mask)
    (next : ∀ file : File, file.word divisor = y.eval code.config.mask frame.file →
      (∀ j, j ∉ spare → file.word j = frame.file.word j) →
      code.Holds (frame.ip + extent load) rest →
      code.Reaches ({ frame with ip := frame.ip + extent load, file := file }.view base) goal) :
    code.Reaches (frame.view base) goal := by
  unfold Expansion.divisor at hdivisor
  split at hdivisor
  · cases hdivisor
    exact next frame.file rfl (fun _ _ => rfl) hold
  · cases spare with
    | nil => cases hdivisor
    | cons index spare =>
      cases hdivisor
      obtain ⟨h0, hlt⟩ := hspare divisor List.mem_cons_self
      refine .copy hh hold hlt hy rfl hle fun hold => ?_
      have hone : extent [Expansion.copy divisor y] = 1 := Expansion.footprint_copy divisor y
      rw [hone] at next
      refine next _ (File.word_put_self h0) (fun j hj => ?_) hold
      exact File.word_put_of_ne (List.ne_of_not_mem_cons hj)

end Code.Reaches

/-! ## Delivered results -/

/-- An expansion is about to be executed: it stands where the core is, its registers exist,
    and there is room for those that it borrows, `count` in number. -/
structure Expansion.Ready (code : Code) (base : View Bus) (frame : Frame) (scratch count : Nat)
    (body : List Instruction) : Prop where
  running : base.core.halted = false
  holds : code.Holds frame.ip body
  registers : ∀ i ∈ body, ∀ j, .register j ∈ i.operands → j < base.core.registers.size
  room : frame.stack.length + count ≤ code.config.maxStack
  scratch_ne : scratch ≠ 0

/-- An operand that an expansion may read: it is no label, and it is not the scratch
    register. -/
structure Operand.Given (code : Code) (base : View Bus) (frame : Frame) (scratch : Nat)
    (x : Operand) : Prop where
  readable : x.Readable base.core.registers.size
  le : x.eval code.config.mask frame.file ≤ code.config.mask
  ne : x ≠ .register scratch

/-- What an expansion is meant to reach: the result is in the destination and in the flags,
    and nothing else has changed but hidden registers. -/
def Frame.Delivered (frame : Frame) (base : View Bus) (length : Nat) (hidden : List Nat)
    (t result : Nat) (v : View Bus) : Prop :=
  ∃ file : File, (∀ j, j ∉ hidden → file.word j = (frame.file.put t result).word j) ∧
    v = Frame.view ⟨frame.ip + length, result, frame.stack, file⟩ base

/-- Where an expansion halts: nothing has changed in registers but in hidden ones. -/
def Frame.Stopped (frame : Frame) (base : View Bus) (hidden : List Nat) (v : View Bus) : Prop :=
  ∃ (ip flags : Nat) (stack : List Nat) (file : File),
    (∀ j, j ∉ hidden → file.word j = frame.file.word j) ∧
      v = (Frame.view ⟨ip, flags, stack, file⟩ base).halt

theorem Code.Reaches.deliver [PortBus Bus] {code : Code} {frame origin : Frame} {base : View Bus}
    {hidden : List Nat} {length t j result : Nat} (hh : base.core.halted = false)
    (hf : code.fetch frame.ip =
      some (.code (code.decode .add [.register t, .register j, .zero])))
    (ht : t < base.core.registers.size) (hj : j < base.core.registers.size)
    (hresult : frame.file.word j = result) (hle : result ≤ code.config.mask)
    (hip : frame.ip + 1 = origin.ip + length) (hstack : frame.stack = origin.stack)
    (hother : ∀ j, j ∉ hidden → frame.file.word j = origin.file.word j) :
    code.Reaches (frame.view base) (origin.Delivered base length hidden t result) := by
  subst hresult
  refine .exec hh hf ⟨ht, hj, Nat.lt_of_le_of_lt (Nat.zero_le _) hj⟩ rfl (.here ?_)
  refine ⟨frame.file.put t (frame.file.word j), fun k hk => ?_, ?_⟩
  · rw [File.word_put, File.word_put, hother k hk]
  · simp [hip, hstack, Config.and_mask_of_le hle]

namespace Expansion.Ready

variable {code : Code} {frame : Frame} {base : View Bus} {scratch count : Nat}
  {body middle : List Instruction} {registers hidden : List Nat}

/-- The registers that are saved exist. -/
theorem saved_lt (h : Ready code base frame scratch count body)
    (hbody : body = save registers ++ middle ++ restore registers) {j : Nat} (hj : j ∈ registers) :
    j < base.core.registers.size := by
  refine h.registers (.code .psh [.register j]) ?_ j List.mem_cons_self
  rw [hbody]
  exact List.mem_append_left _ (List.mem_append_left _ (List.mem_map_of_mem hj))

variable [PortBus Bus]

/-- Registers that are borrowed for a result, and given back, have not changed. -/
theorem delivered (h : Ready code base frame scratch count body) (registers : List Nat)
    (middle : List Instruction) (hbody : body = save registers ++ middle ++ restore registers)
    (hlength : registers.length = count) {t result : Nat} (ht : t ∉ registers)
    (hmiddle : ∀ ip stack, code.Holds ip middle →
      code.Reaches (Frame.view ⟨ip, frame.flags, stack, frame.file⟩ base)
        (Frame.Delivered ⟨ip, frame.flags, stack, frame.file⟩ base (extent middle)
          (scratch :: registers) t result)) :
    code.Reaches (frame.view base) (frame.Delivered base (extent body) [scratch] t result) := by
  have hrange (j : Nat) (hj : j ∈ registers) := h.saved_lt hbody hj
  subst hbody
  refine (Code.Reaches.borrow result
    (fun file => ∀ j, j ∉ scratch :: registers → file.word j = (frame.file.put t result).word j)
    h.running h.holds hrange (hlength ▸ h.room) hmiddle).mono ?_
  rintro v ⟨file, hfile, rfl⟩
  refine ⟨_, fun j hj => ?_, rfl⟩
  rw [File.word_revert]
  by_cases hmem : j ∈ registers
  · rw [if_pos hmem, File.word_put_of_ne fun e : j = t => ht (e ▸ hmem)]
  · rw [if_neg hmem, hfile j (by simpa [hmem] using hj)]

/-- Where an expansion halts, registers are still borrowed. -/
theorem stopped (h : Ready code base frame scratch count body) (registers : List Nat)
    (middle : List Instruction) (hbody : body = save registers ++ middle ++ restore registers)
    (hlength : registers.length = count)
    (hmiddle : ∀ ip stack, code.Holds ip middle →
      code.Reaches (Frame.view ⟨ip, frame.flags, stack, frame.file⟩ base)
        (frame.Stopped base hidden)) :
    code.Reaches (frame.view base) (frame.Stopped base hidden) := by
  have hold := h.holds
  rw [hbody, List.append_assoc, Code.holds_append, Code.holds_append] at hold
  exact .save h.running hold.1 (fun _ => h.saved_lt hbody) (hlength ▸ h.room)
    (hmiddle _ _ (extent_save registers ▸ hold.2.1))

end Expansion.Ready
end Wordcode
