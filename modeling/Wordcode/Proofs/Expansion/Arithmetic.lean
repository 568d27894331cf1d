import Mathlib.Logic.Function.Iterate
import Wordcode.Proofs.Expansion.Basic

/-!
# Shifts, products and remainders by loops

What the loops of the expansions compute, in any program that holds them, and for words of
any width. Each is an induction on what the loop counts down: the shift count, the
multiplier, what is left of the dividend.
-/

namespace Wordcode

variable {Bus : Type}

open Instruction Expansion

variable {code : Code} {base : View Bus}

/-! ## Shifts -/

/-- What a shift by one bit makes of a value. -/
def Opcode.shifted : Opcode → Nat → Nat
  | .lsh, x => x * 2
  | _, x => x / 2

theorem Frame.exec_onto_shift {shift : Opcode} (hs : shift = .lsh ∨ shift = .rsh) (mask : Nat)
    (frame : Frame) (t : Nat) :
    frame.exec mask (onto shift t) = frame.compute mask t (shift.shifted (frame.file.word t)) := by
  rcases hs with rfl | rfl <;> rfl

namespace Expansion

/-- The loop of a shift by a count. -/
def shiftLoop (shift : Opcode) (count value top done : Nat) : List Instruction :=
  [mark top, compareZero count, jump .brz done, onto shift value, onto .dec count, jump .bra top,
    mark done]

theorem extent_shiftLoop {shift : Opcode} (hs : shift = .lsh ∨ shift = .rsh)
    (count value top done : Nat) : extent (shiftLoop shift count value top done) = 5 := by
  rcases hs with rfl | rfl <;> rfl

variable [PortBus Bus]

/-- Shifting by one bit until a count is zero. -/
theorem shift_loop (hh : base.core.halted = false) {shift : Opcode}
    (hs : shift = .lsh ∨ shift = .rsh) {count value top done a : Nat}
    (hold : code.Holds a (shiftLoop shift count value top done))
    (hcount : count ≠ 0 ∧ count < base.core.registers.size)
    (hvalue : value ≠ 0 ∧ value < base.core.registers.size) (hne : count ≠ value) {n : Nat}
    (hn : n ≤ code.config.mask) (flags : Nat) (stack : List Nat) (file : File)
    (hfile : file.word count = n) :
    code.Reaches (Frame.view ⟨a, flags, stack, file⟩ base) fun v =>
      ∃ flags file', v = Frame.view ⟨a + 5, flags, stack, file'⟩ base ∧
        file'.word value =
          (fun x => shift.shifted x &&& code.config.mask)^[n] (file.word value) ∧
        ∀ j, j ≠ count → j ≠ value → file'.word j = file.word j := by
  have hdata : shift.isData = false := by rcases hs with rfl | rfl <;> rfl
  simp (disch := decide) only [shiftLoop, mark, compareZero, jump, onto, Code.holds_mark_cons,
    Code.holds_code_cons] at hold
  obtain ⟨htop, h₀, h₁, hold⟩ := hold
  rw [Code.holds_code_cons hdata] at hold
  simp (disch := decide) only [Code.holds_mark_cons, Code.holds_code_cons] at hold
  obtain ⟨h₂, h₃, h₄, hdone, -⟩ := hold
  -- By induction on the count: a round shifts once and leaves one less to count.
  induction n generalizing flags file with
  | zero =>
    refine .compareZero hh h₀ hcount.2 (hfile ▸ hn) (.taken hh h₁ hdone rfl ?_ ?_)
    · simp [hfile, Opcode.takes_brz]
    · exact .here ⟨_, file, rfl, rfl, fun _ _ _ => rfl⟩
  | succ n ih =>
    refine .compareZero hh h₀ hcount.2 (hfile ▸ hn) (.passed hh h₁ rfl ?_ ?_)
    · simp [hfile, Opcode.takes_brz hn]
    have hlegal (frame : Frame) : frame.Legal base.core.registers.size code.config.maxStack
        (onto shift value) := by
      rcases hs with rfl | rfl <;> exact ⟨hvalue.2, hvalue.2⟩
    refine .exec hh h₂ (hlegal _) (Frame.exec_onto_shift hs _ _ _) ?_
    refine .exec hh h₃ ⟨hcount.2, hcount.2⟩ rfl (.taken hh h₄ htop rfl rfl ?_)
    refine (ih (Nat.le_of_succ_le hn) _ _ ?_).mono ?_
    · simp [hcount.1, hne, hfile,
        Arithmetic.difference_of_le hn (Nat.succ_le_succ (Nat.zero_le n)),
        Config.and_mask_of_le (Nat.le_of_succ_le hn)]
    · rintro v ⟨flags, file', rfl, hresult, hother⟩
      refine ⟨flags, file', rfl, ?_, fun j hj hj' => ?_⟩
      · rw [hresult, Function.iterate_succ_apply]
        simp [hvalue.1, hne.symm]
      · rw [hother j hj hj']
        simp [hj, hj']

theorem iterate_shifted_le (shift : Opcode) (n : Nat) {x mask : Nat} (hx : x ≤ mask) :
    (fun x => shift.shifted x &&& mask)^[n] x ≤ mask := by
  cases n with
  | zero => exact hx
  | succ n =>
    rw [Function.iterate_succ_apply']
    exact Nat.and_le_right

/-- A shift by a count delivers what as many shifts by one bit make of the value. -/
theorem reaches_shiftBy {shift : Opcode} (hs : shift = .lsh ∨ shift = .rsh) {context : Context}
    {first t : Nat} {x n : Operand} {expansion : Expansion} {frame : Frame}
    (he : shiftBy shift context first (.register t) x n = some expansion)
    (h : Ready code base frame context.scratch 1 expansion.body)
    (hx : x.Given code base frame context.scratch) (hn : n.Given code base frame context.scratch) :
    code.Reaches (frame.view base) (frame.Delivered base (extent expansion.body) [context.scratch] t
      ((fun x => shift.shifted x &&& code.config.mask)^[n.eval code.config.mask frame.file]
        (x.eval code.config.mask frame.file))) := by
  unfold shiftBy at he
  split at he
  · next count hborrow =>
    obtain ⟨hcount, hne, havoid⟩ := mem_borrow_avoided (hborrow ▸ List.mem_singleton_self count)
    simp only [List.mem_cons, List.not_mem_nil, or_false, not_or] at havoid
    cases he
    have hcountlt := h.registers (compareZero count) (by simp) count List.mem_cons_self
    have htlt := h.registers (deliver (.register t) context.scratch) (by simp) t List.mem_cons_self
    have hlt := h.registers (deliver (.register t) context.scratch) (by simp) context.scratch
      (List.mem_cons_of_mem _ List.mem_cons_self)
    refine h.delivered [count] (copy context.scratch x :: copy count n :: (announce first 2 ++
        (shiftLoop shift count context.scratch first (first + 1) ++
          [deliver (.register t) context.scratch]))) (by simp [shiftLoop]) rfl
      (by simpa using fun e : t = count => havoid.1 (e ▸ rfl)) fun ip stack hold => ?_
    refine .copy h.running hold hlt hx.readable rfl hx.le fun hold => ?_
    -- Copying the value has not changed the count, which is not in the scratch register.
    have hn' : n.eval code.config.mask (frame.file.put context.scratch
        (x.eval code.config.mask frame.file)) = n.eval code.config.mask frame.file :=
      Operand.eval_put_of_ne hn.ne
    refine .copy h.running hold hcountlt hn.readable hn' hn.le fun hold => ?_
    rw [Code.holds_announce_append, Code.holds_append, extent_shiftLoop hs] at hold
    refine (shift_loop h.running hs hold.1 ⟨hcount, hcountlt⟩ ⟨h.scratch_ne, hlt⟩ hne hn.le _ _ _
      ?_).bind ?_
    · simp [hcount]
    · rintro v ⟨flags, file, rfl, hresult, hother⟩
      have hfile : file.word context.scratch =
          (fun x => shift.shifted x &&& code.config.mask)^[n.eval code.config.mask frame.file]
            (x.eval code.config.mask frame.file) := by
        rw [hresult]
        simp [h.scratch_ne, hne.symm]
      refine .deliver h.running ((Code.holds_code_cons rfl).1 hold.2).1 htlt hlt hfile
        (iterate_shifted_le shift _ hx.le) ?_ rfl fun j hj => ?_
      · simp [footprint_copy, extent_shiftLoop hs, deliver, Opcode.footprint]
      · simp only [List.mem_cons, List.not_mem_nil, or_false, not_or] at hj
        rw [hother j hj.2 hj.1]
        simp [hj]
  · cases he

end Expansion

namespace Arithmetic

variable {config : Config} {x : Nat}

/-- A shift up keeps the part of the exact result that fits a result, whatever the count. -/
theorem shiftLeft_eq (x n : Nat) : shiftLeft x n = x * Nat.pow 2 n % resultCount := by
  rw [shiftLeft]
  split
  · rw [Nat.shiftLeft_eq]
    rfl
  · next hn =>
    -- every bit has left the result
    have hdvd : resultCount ∣ Nat.pow 2 n := Nat.pow_dvd_pow 2 (Nat.le_of_not_lt hn)
    exact (Nat.mod_eq_zero_of_dvd (Nat.dvd_mul_left_of_dvd hdvd x)).symm

/-- What a shift up leaves in the word, whatever the count. -/
theorem shiftLeft_and_mask (x n : Nat) :
    shiftLeft x n &&& config.mask = x * Nat.pow 2 n % (config.mask + 1) := by
  rw [shiftLeft_eq, Config.and_mask, Nat.mod_mod_of_dvd _ config.dvd_resultCount]

/-- What a shift down leaves of a word, whatever the count. -/
theorem shiftRight_eq (hx : x ≤ config.mask) (n : Nat) : shiftRight x n = x / Nat.pow 2 n := by
  rw [shiftRight]
  split
  · rw [Nat.shiftRight_eq_div_pow]
    rfl
  · next hn =>
    have hlimit : Word.limit ≤ Nat.pow 2 n := Nat.pow_le_pow_right (by decide) (Nat.le_of_not_lt hn)
    have hmask := config.mask_lt
    exact (Nat.div_eq_of_lt (by omega)).symm

/-- Shifting up bit by bit, where nothing is kept beyond the word. -/
theorem iterate_lsh (hx : x ≤ config.mask) (n : Nat) :
    (fun x => Opcode.lsh.shifted x &&& config.mask)^[n] x = shiftLeft x n &&& config.mask := by
  rw [shiftLeft_and_mask]
  induction n with
  | zero =>
    have hone : Nat.pow 2 0 = 1 := rfl
    rw [Function.iterate_zero_apply, hone, Nat.mul_one, Nat.mod_eq_of_lt (by omega)]
  | succ n ih =>
    have hsucc : Nat.pow 2 (n + 1) = Nat.pow 2 n * 2 := rfl
    rw [Function.iterate_succ_apply', ih, Config.and_mask, hsucc, ← Nat.mul_assoc]
    exact Nat.mod_mul_mod _ _ _

/-- Shifting down bit by bit. -/
theorem iterate_rsh (hx : x ≤ config.mask) (n : Nat) :
    (fun x => Opcode.rsh.shifted x &&& config.mask)^[n] x = shiftRight x n := by
  rw [shiftRight_eq hx]
  induction n with
  | zero =>
    have hone : Nat.pow 2 0 = 1 := rfl
    rw [Function.iterate_zero_apply, hone, Nat.div_one]
  | succ n ih =>
    have hsucc : Nat.pow 2 (n + 1) = Nat.pow 2 n * 2 := rfl
    have hle : x / Nat.pow 2 n ≤ x := Nat.div_le_self _ _
    have hshift : Opcode.rsh.shifted (x / Nat.pow 2 n) = x / Nat.pow 2 n / 2 := rfl
    rw [Function.iterate_succ_apply', ih, hshift, Config.and_mask_of_le (by omega),
      Nat.div_div_eq_div_mul, hsucc]

end Arithmetic

namespace Expansion

/-! ## Products -/

/-- The loop of a multiplication. -/
def multiplyLoop (multiplier multiplicand product top skip done : Nat) : List Instruction :=
  [mark top, compareZero multiplier, jump .brz done,
    .code .bev [.label (.anonymous skip), .register multiplier],
    combine .add product multiplicand,
    mark skip, onto .lsh multiplicand, onto .rsh multiplier, jump .bra top, mark done]

/-- What is accumulated in a round, and what is left to accumulate, is the same product. -/
theorem accumulate_mod (k b c r n : Nat) :
    ((r + b * c) % n + k * (c * 2 % n)) % n = (r + (2 * k + b) * c) % n := by
  have h : r + (2 * k + b) * c = r + b * c + k * (c * 2) := by
    rw [Nat.add_mul, Nat.mul_comm 2 k, Nat.mul_assoc, Nat.mul_comm 2 c]
    omega
  rw [h, Nat.add_mod, Nat.mod_mod, Nat.mul_mod, Nat.mod_mod, ← Nat.mul_mod, ← Nat.add_mod]

theorem isEven_eq (x : Nat) : Arithmetic.isEven x = decide (x % 2 = 0) := by
  rw [Arithmetic.isEven, Nat.and_one_is_mod]
  rfl

variable [PortBus Bus]

/-- Shifting the multiplier down and the multiplicand up, and adding where the multiplier is
    odd, until the multiplier is zero. -/
theorem multiply_loop (hh : base.core.halted = false)
    {multiplier multiplicand product top skip done a : Nat}
    (hold : code.Holds a (multiplyLoop multiplier multiplicand product top skip done))
    (hm : multiplier ≠ 0 ∧ multiplier < base.core.registers.size)
    (hc : multiplicand ≠ 0 ∧ multiplicand < base.core.registers.size)
    (hp : product ≠ 0 ∧ product < base.core.registers.size)
    (hmc : multiplier ≠ multiplicand) (hmp : multiplier ≠ product)
    (hcp : multiplicand ≠ product) {q : Nat} (hq : q ≤ code.config.mask) (flags : Nat)
    (stack : List Nat) (file : File) (hfile : file.word multiplier = q)
    (hle : file.word product ≤ code.config.mask) :
    code.Reaches (Frame.view ⟨a, flags, stack, file⟩ base) fun v =>
      ∃ flags file', v = Frame.view ⟨a + 7, flags, stack, file'⟩ base ∧
        file'.word product =
          (file.word product + q * file.word multiplicand) &&& code.config.mask ∧
        ∀ j, j ≠ multiplier → j ≠ multiplicand → j ≠ product → file'.word j = file.word j := by
  simp (disch := decide) only [multiplyLoop, mark, compareZero, jump, onto, combine,
    Code.holds_mark_cons, Code.holds_code_cons] at hold
  obtain ⟨htop, h₀, h₁, h₂, h₃, hskip, h₄, h₅, h₆, hdone, -⟩ := hold
  induction q using Nat.strongRecOn generalizing flags file with
  | _ q ih =>
  by_cases h0 : q = 0
  · subst h0
    refine .compareZero hh h₀ hm.2 (hfile ▸ hq) (.taken hh h₁ hdone rfl ?_ ?_)
    · simp [hfile, Opcode.takes_brz]
    · refine .here ⟨_, file, rfl, ?_, fun _ _ _ _ => rfl⟩
      rw [Nat.zero_mul, Nat.add_zero, Config.and_mask_of_le hle]
  · refine .compareZero hh h₀ hm.2 (hfile ▸ hq) (.passed hh h₁ rfl ?_ ?_)
    · simp [hfile, Opcode.takes_brz hq, h0]
    -- the second half of a round, whether or not something was added
    have hshift (flags : Nat) (file₁ : File) (b : Nat) (hb : q = 2 * (q / 2) + b)
        (hm₁ : file₁.word multiplier = q)
        (hc₁ : file₁.word multiplicand = file.word multiplicand)
        (hp₁ : file₁.word product =
          (file.word product + b * file.word multiplicand) &&& code.config.mask)
        (hother₁ : ∀ j, j ≠ product → file₁.word j = file.word j) :
        code.Reaches (Frame.view ⟨a + 4, flags, stack, file₁⟩ base) fun v =>
          ∃ flags file', v = Frame.view ⟨a + 7, flags, stack, file'⟩ base ∧
            file'.word product =
              (file.word product + q * file.word multiplicand) &&& code.config.mask ∧
            ∀ j, j ≠ multiplier → j ≠ multiplicand → j ≠ product →
              file'.word j = file.word j := by
      refine .exec hh h₄ ⟨hc.2, hc.2⟩ rfl (.exec hh h₅ ⟨hm.2, hm.2⟩ rfl
        (.taken hh h₆ htop rfl rfl ?_))
      have hhalf : q / 2 ≤ code.config.mask := by omega
      refine (ih (q / 2) (by omega) hhalf _ _ ?_ ?_).mono ?_
      · simp [hm.1, hmc, hm₁,
          Config.and_mask_of_le hhalf]
      · simp only [Frame.exec, Frame.compute, Frame.assign, File.word_put_of_ne hmp.symm,
          File.word_put_of_ne hcp.symm, hp₁]
        exact Nat.and_le_right
      · rintro v ⟨flags, file', rfl, hproduct, hother⟩
        refine ⟨flags, file', rfl, ?_, fun j hj hj' hj'' => ?_⟩
        · rw [hproduct]
          simp only [Frame.exec, Frame.compute, Frame.assign, File.word_put_of_ne hmp.symm,
            File.word_put_of_ne hcp.symm, File.word_put_of_ne hmc.symm,
            File.word_put_self hc.1, Operand.eval_register, hp₁, hc₁, Config.and_mask]
          rw [accumulate_mod, ← hb]
        · rw [hother j hj hj' hj'']
          simp [hj, hj', hother₁ j hj'']
    by_cases heven : q % 2 = 0
    · refine .even h₂ hm.2 hh hskip ?_ (hshift _ file 0 ?_ hfile rfl ?_ fun _ _ => rfl)
      · simp [hfile, isEven_eq, heven]
      · omega
      · rw [Nat.zero_mul, Nat.add_zero, Config.and_mask_of_le hle]
    · refine .odd h₂ hm.2 hh ?_ (.exec hh h₃ ⟨hp.2, hp.2, hc.2⟩ rfl (hshift _ _ 1 ?_ ?_ ?_ ?_ ?_))
      · simp [hfile, isEven_eq, heven]
      · omega
      · simp [hmp, hfile]
      · simp [hcp]
      · simp [hp.1]
      · intro j hj
        simp [hj]

/-- A multiplication delivers the product, as far as it fits the word. -/
theorem reaches_multiply {context : Context} {first t : Nat} {x y : Operand}
    {expansion : Expansion} {frame : Frame}
    (he : multiply context first (.register t) x y = some expansion)
    (h : Ready code base frame context.scratch 2 expansion.body)
    (hx : x.Given code base frame context.scratch) (hy : y.Given code base frame context.scratch) :
    code.Reaches (frame.view base) (frame.Delivered base (extent expansion.body) [context.scratch] t
      (x.eval code.config.mask frame.file * y.eval code.config.mask frame.file &&&
        code.config.mask)) := by
  unfold multiply at he
  split at he
  · next m c hborrow =>
    have hnodup := nodup_borrow (avoided context [.register t, x, y]) 2
    obtain ⟨hm, hmp, hmavoid⟩ := mem_borrow_avoided (hborrow ▸ List.mem_cons_self)
    obtain ⟨hc, hcp, hcavoid⟩ :=
      mem_borrow_avoided (hborrow ▸ List.mem_cons_of_mem _ List.mem_cons_self)
    rw [hborrow] at hnodup
    have hmc : m ≠ c := by simpa using hnodup
    simp only [List.mem_cons, List.not_mem_nil, or_false, not_or] at hmavoid hcavoid
    cases he
    have hmlt := h.registers (compareZero m) (by simp) m List.mem_cons_self
    have hclt := h.registers (onto .lsh c) (by simp) c List.mem_cons_self
    have htlt := h.registers (deliver (.register t) context.scratch) (by simp) t List.mem_cons_self
    have hplt := h.registers (clear context.scratch) (by simp) context.scratch List.mem_cons_self
    refine h.delivered [m, c] (copy m x :: copy c y :: clear context.scratch ::
        (announce first 3 ++ (multiplyLoop m c context.scratch first (first + 1) (first + 2) ++
          [deliver (.register t) context.scratch]))) (by simp [multiplyLoop]) rfl
      (by simpa using ⟨fun e => hmavoid.1 (e ▸ rfl), fun e => hcavoid.1 (e ▸ rfl)⟩)
      fun ip stack hold => ?_
    refine .copy h.running hold hmlt hx.readable rfl hx.le fun hold => ?_
    -- The borrowed register of the first factor is none that the second factor is in.
    have hy' : y.eval code.config.mask (frame.file.put m (x.eval code.config.mask frame.file)) =
        y.eval code.config.mask frame.file := Operand.eval_put_of_ne (Ne.symm hmavoid.2.2)
    refine .copy h.running hold hclt hy.readable hy' hy.le fun hold => ?_
    obtain ⟨hf, hold⟩ := (Code.holds_code_cons rfl).1 hold
    refine .exec h.running hf ⟨hplt, Nat.lt_of_le_of_lt (Nat.zero_le _) hplt⟩ rfl ?_
    rw [Code.holds_announce_append, Code.holds_append] at hold
    refine (multiply_loop h.running hold.1 ⟨hm, hmlt⟩ ⟨hc, hclt⟩ ⟨h.scratch_ne, hplt⟩ hmc hmp hcp
      hx.le _ _ _ ?_ ?_).bind ?_
    · simp [hm, hmc, hmp]
    · simp [h.scratch_ne]
    · rintro v ⟨flags, file, rfl, hproduct, hother⟩
      have hfile : file.word context.scratch = x.eval code.config.mask frame.file *
          y.eval code.config.mask frame.file &&& code.config.mask := by
        rw [hproduct]
        simp [h.scratch_ne, hc, hcp]
      refine .deliver h.running ((Code.holds_code_cons rfl).1 hold.2).1 htlt hplt hfile
        Nat.and_le_right ?_ rfl fun j hj => ?_
      · simp [footprint_copy, multiplyLoop, deliver, clear, mark, compareZero, jump, onto, combine,
          Opcode.footprint]
      · simp only [List.mem_cons, List.not_mem_nil, or_false, not_or] at hj
        rw [hother j hj.2.1 hj.2.2 hj.1]
        simp [hj]
  · cases he

/-! ## Remainders -/

/-- The loop of a remainder. -/
def moduloLoop (divisor remainder top : Nat) : List Instruction :=
  [mark top, combine .sub remainder divisor, jump .bnc top]

/-- Subtracting a divisor until that borrows leaves the remainder less the divisor. -/
theorem modulo_loop (hh : base.core.halted = false) {divisor remainder top a : Nat}
    (hold : code.Holds a (moduloLoop divisor remainder top))
    (hd : divisor < base.core.registers.size)
    (hr : remainder ≠ 0 ∧ remainder < base.core.registers.size) (hne : divisor ≠ remainder)
    (flags : Nat) (stack : List Nat) (file : File) (hpos : 0 < file.word divisor)
    (hle : file.word divisor ≤ code.config.mask) {r : Nat} (hfile : file.word remainder = r)
    (hrle : r ≤ code.config.mask) :
    code.Reaches (Frame.view ⟨a, flags, stack, file⟩ base) fun v =>
      ∃ flags file', v = Frame.view ⟨a + 2, flags, stack, file'⟩ base ∧
        file'.word remainder =
          r % file.word divisor + (code.config.mask + 1 - file.word divisor) ∧
        ∀ j, j ≠ remainder → file'.word j = file.word j := by
  simp (disch := decide) only [moduloLoop, mark, combine, jump, Code.holds_mark_cons,
    Code.holds_code_cons] at hold
  obtain ⟨htop, h₀, h₁, -⟩ := hold
  -- By induction on what is left. A subtraction without a borrow goes on with less; the one
  -- that borrows ends the loop one divisor too low, modulo the word.
  induction r using Nat.strongRecOn generalizing flags file with
  | _ r ih =>
  refine .exec hh h₀ ⟨hr.2, hr.2, hd⟩ rfl ?_
  have hcarry := Arithmetic.isCarry_difference hrle hle
  by_cases hlt : r < file.word divisor
  · refine .passed hh h₁ rfl ?_ (.here ⟨_, _, rfl, ?_, fun j hj => ?_⟩)
    · simpa [Opcode.takes, hfile, hlt] using hcarry
    · have hsum : r + (code.config.mask + 1 - file.word divisor) < code.config.mask + 1 := by omega
      simp [hr.1, hfile, Arithmetic.difference_and_mask hle, Nat.mod_eq_of_lt hsum,
        Nat.mod_eq_of_lt hlt]
    · simp [hj]
  · refine .taken hh h₁ htop rfl ?_ ?_
    · simpa [Opcode.takes, hfile, hlt] using hcarry
    have hsub : Arithmetic.difference r (file.word divisor) &&& code.config.mask =
        r - file.word divisor := by
      rw [Arithmetic.difference_of_le hrle (Nat.le_of_not_lt hlt), Config.and_mask_of_le (by omega)]
    refine (ih (r - file.word divisor) (by omega) _ _ ?_ ?_ ?_ (by omega)).mono ?_
    · simpa [hne] using hpos
    · simpa [hne] using hle
    · simp [hr.1, hfile, hsub]
    · rintro v ⟨flags, file', rfl, hresult, hother⟩
      refine ⟨flags, file', rfl, ?_, fun j hj => ?_⟩
      · rw [hresult, Nat.mod_eq_sub_mod (Nat.le_of_not_lt hlt)]
        simp [hne]
      · rw [hother j hj]
        simp [hj]

/-- What the expansion of a remainder consists of. -/
theorem exists_of_modulo {f : Instruction → List Instruction} (hf : Settles f) {context : Context}
    {first : Nat} {t x y : Operand} {expansion : Expansion}
    (he : modulo context first t x y = some expansion) :
    ∃ spare d load, spare = borrow (avoided context [t, x, y]) (divisorCount y) ∧
      divisor spare y = some (d, load) ∧
      expansion.body.flatMap f = save spare ++ (load ++ (announce first 2 ++
        (copy context.scratch x :: ((zeroTrap d first (first + 1)).flatMap f ++
          (moduloLoop d context.scratch first ++ [combine .add context.scratch d,
            deliver t context.scratch, mark (first + 1)]))))) ++ restore spare := by
  unfold modulo at he
  obtain ⟨⟨d, load⟩, hdivisor, he⟩ := Option.bind_eq_some_iff.1 he
  refine ⟨_, d, load, rfl, hdivisor, ?_⟩
  cases he
  have hloop : [mark first, combine .sub context.scratch d, jump .bnc first,
        combine .add context.scratch d, deliver t context.scratch,
        mark (first + 1)].flatMap f =
      moduloLoop d context.scratch first ++ [combine .add context.scratch d,
        deliver t context.scratch, mark (first + 1)] :=
    hf.flatMap_eq (by simp [mark, combine, jump, deliver])
  simp only [List.flatMap_append, hf.flatMap_eq (save_ne_brk _),
    hf.flatMap_eq (restore_ne_brk _), hf.flatMap_eq (load_ne_brk hdivisor),
    hf.flatMap_eq (announce_ne_brk first 2), List.flatMap_singleton,
    hf.same _ (copy_ne_brk context.scratch x), hloop]
  simp

omit [PortBus Bus] in
/-- Where a remainder is computed: its registers exist, and those that are borrowed for it are no
    others of the instruction. -/
structure Remainder (base : View Bus) (context : Context) (t : Nat) (x y : Operand)
    (spare : List Nat) (d : Nat) : Prop where
  length : spare.length = divisorCount y
  borrowed : ∀ j ∈ spare, j ≠ 0 ∧ j < base.core.registers.size
  free : ∀ j ∈ spare, .register j ∉ [.register t, x, y]
  destination : t < base.core.registers.size
  divisor : d < base.core.registers.size
  scratch : context.scratch < base.core.registers.size
  ne : d ≠ context.scratch

omit [PortBus Bus] in
/-- The parts of the expansion of a remainder, and the registers that they work on. -/
theorem exists_remainder {f : Instruction → List Instruction} (hf : Settles f) {context : Context}
    {first t : Nat} {x y : Operand} {expansion : Expansion} {frame : Frame}
    (he : modulo context first (.register t) x y = some expansion)
    (h : Ready code base frame context.scratch (divisorCount y) (expansion.body.flatMap f))
    (hy : y.Given code base frame context.scratch) :
    ∃ spare d load, spare = borrow (avoided context [.register t, x, y]) (divisorCount y) ∧
      Expansion.divisor spare y = some (d, load) ∧
      expansion.body.flatMap f = save spare ++ (load ++ (announce first 2 ++
        (copy context.scratch x :: ((zeroTrap d first (first + 1)).flatMap f ++
          (moduloLoop d context.scratch first ++ [combine .add context.scratch d,
            deliver (.register t) context.scratch, mark (first + 1)]))))) ++ restore spare ∧
      Remainder base context t x y spare d := by
  obtain ⟨spare, d, load, hborrow, hdivisor, hbody⟩ := exists_of_modulo hf he
  have hspare (j : Nat) (hj : j ∈ spare) :
      j ≠ 0 ∧ j ≠ context.scratch ∧ .register j ∉ [.register t, x, y] := by
    rw [hborrow] at hj
    exact mem_borrow_avoided hj
  refine ⟨spare, d, load, hborrow, hdivisor, hbody, by rw [hborrow, length_borrow],
    fun j hj => ⟨(hspare j hj).1, h.saved_lt hbody hj⟩, fun j hj => (hspare j hj).2.2, ?_, ?_, ?_,
    ne_of_divisor hdivisor hy.ne fun hmem => (hspare _ hmem).2.1 rfl⟩
  · exact h.registers (deliver (.register t) context.scratch) (by rw [hbody]; simp) t
      List.mem_cons_self
  · exact h.registers (combine .add context.scratch d) (by rw [hbody]; simp) d
      (by simp [combine, operands])
  · exact h.registers (deliver (.register t) context.scratch) (by rw [hbody]; simp)
      context.scratch (List.mem_cons_of_mem _ List.mem_cons_self)

/-- A remainder is delivered, unless the divisor is zero. -/
theorem reaches_modulo {f : Instruction → List Instruction} (hf : Settles f) {context : Context}
    {first t : Nat} {x y : Operand} {expansion : Expansion} {frame : Frame}
    (he : modulo context first (.register t) x y = some expansion)
    (h : Ready code base frame context.scratch (divisorCount y) (expansion.body.flatMap f))
    (hx : x.Given code base frame context.scratch) (hy : y.Given code base frame context.scratch)
    (h0 : y.eval code.config.mask frame.file ≠ 0) :
    code.Reaches (frame.view base) (frame.Delivered base (extent (expansion.body.flatMap f))
      [context.scratch] t
      (x.eval code.config.mask frame.file % y.eval code.config.mask frame.file)) := by
  obtain ⟨spare, d, load, -, hdivisor, hbody, hlength, hspare, hfree, htlt, hdlt, hlt, hne⟩ :=
    exists_remainder hf he h hy
  refine h.delivered spare _ hbody hlength (fun ht => hfree t ht List.mem_cons_self)
    fun ip stack hold => ?_
  refine .loadDivisor h.running hdivisor hspare hold hy.readable hy.le
    fun file hd hother hold => ?_
  rw [Code.holds_announce_append] at hold
  have hx' : x.eval code.config.mask file = x.eval code.config.mask frame.file :=
    Operand.eval_congr fun j hj => hother j fun hmem => hfree j hmem (by simp [hj])
  refine .copy h.running hold hlt hx.readable hx' hx.le fun hold => ?_
  rw [Code.holds_append, hf.extent_zeroTrap, Code.holds_append] at hold
  obtain ⟨htrap, hloop, hend⟩ := hold
  have hd' : (file.put context.scratch (x.eval code.config.mask frame.file)).word d =
      y.eval code.config.mask frame.file := by rw [File.word_put_of_ne hne, hd]
  refine .zeroTrap hf h.running htrap hloop.1 hdlt (hd'.symm ▸ h0) (hd'.symm ▸ hy.le) ?_
  refine (modulo_loop h.running hloop hdlt ⟨h.scratch_ne, hlt⟩ hne _ _ _
    (hd'.symm ▸ Nat.pos_of_ne_zero h0) (hd'.symm ▸ hy.le) (File.word_put_self h.scratch_ne)
    hx.le).bind ?_
  rintro v ⟨flags, file', rfl, hresult, hother'⟩
  rw [hd'] at hresult
  obtain ⟨hadd, hend⟩ := (Code.holds_code_cons rfl).1 hend
  obtain ⟨hdeliver, hend⟩ := (Code.holds_code_cons rfl).1 hend
  have hd'' : file'.word d = y.eval code.config.mask frame.file := by rw [hother' d hne, hd']
  refine .exec h.running hadd ⟨hlt, hlt, hdlt⟩ rfl ?_
  -- Adding the divisor once more makes up for the last subtraction.
  have hsum : (file'.word context.scratch + file'.word d) &&& code.config.mask =
      x.eval code.config.mask frame.file % y.eval code.config.mask frame.file := by
    have hmod := Nat.mod_lt (x.eval code.config.mask frame.file) (Nat.pos_of_ne_zero h0)
    have hyle := hy.le
    rw [hresult, hd'', Config.and_mask, Nat.add_assoc, Nat.sub_add_cancel (by omega),
      Nat.add_mod_right, Nat.mod_eq_of_lt (by omega)]
  have hle : x.eval code.config.mask frame.file % y.eval code.config.mask frame.file ≤
      code.config.mask := Nat.le_trans (Nat.mod_le _ _) hx.le
  refine .deliver h.running hdeliver htlt hlt ?_ hle ?_ rfl fun j hj => ?_
  · simp [h.scratch_ne, hsum]
  · simp [footprint_copy, hf.extent_zeroTrap, moduloLoop, deliver, mark, jump, combine,
      Opcode.footprint, Nat.add_assoc]
  · simp only [List.mem_cons, not_or] at hj
    have hfile := (hother' j hj.1).trans ((File.word_put_of_ne hj.1).trans (hother j hj.2))
    simpa [hj.1] using hfile

/-- A remainder by zero stops the core. -/
theorem stops_modulo {f : Instruction → List Instruction} (hf : Settles f) {n : Note}
    (htrap : f (.code .brk []) = [.note n, .code .hlt []]) {context : Context} {first t : Nat}
    {x y : Operand} {expansion : Expansion} {frame : Frame}
    (he : modulo context first (.register t) x y = some expansion)
    (h : Ready code base frame context.scratch (divisorCount y) (expansion.body.flatMap f))
    (hx : x.Given code base frame context.scratch) (hy : y.Given code base frame context.scratch)
    (h0 : y.eval code.config.mask frame.file = 0) :
    code.Reaches (frame.view base) (frame.Stopped base
      (context.scratch :: borrow (avoided context [.register t, x, y]) (divisorCount y))) := by
  obtain ⟨spare, d, load, hborrow, hdivisor, hbody, hlength, hspare, hfree, -, hdlt, hlt, hne⟩ :=
    exists_remainder hf he h hy
  rw [← hborrow]
  refine h.stopped spare _ hbody hlength fun ip stack hold => ?_
  refine .loadDivisor h.running hdivisor hspare hold hy.readable hy.le
    fun file hd hother hold => ?_
  rw [Code.holds_announce_append] at hold
  have hx' : x.eval code.config.mask file = x.eval code.config.mask frame.file :=
    Operand.eval_congr fun j hj => hother j fun hmem => hfree j hmem (by simp [hj])
  refine .copy h.running hold hlt hx.readable hx' hx.le fun hold => ?_
  refine .zeroTrap_halt hf htrap h.running (Code.holds_append.1 hold).1 hdlt ?_
    ⟨_, _, _, _, fun j hj => ?_, rfl⟩
  · rw [Frame.assign, File.word_put_of_ne hne, hd, h0]
  · rw [List.mem_cons, not_or] at hj
    exact (File.word_put_of_ne hj.1).trans (hother j hj.2)

end Expansion
end Wordcode
