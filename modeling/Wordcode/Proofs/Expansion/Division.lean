import Mathlib.Tactic.Ring
import Wordcode.Proofs.Expansion.Basic

/-!
# Division bit by bit

A division takes one round for each bit of the word. What a round leaves of the dividend,
from the highest bit on, is what is still to be divided: if `k` rounds are left, the
dividend is `(q * y + r) * 2 ^ k + d`, where `q` and `r` are the quotient and the remainder
so far and the bits of `d` are those left. In the last round nothing is left.

* `Division.reaches_round`: one round brings the next bit into quotient and remainder;
* `Division.reaches_rounds`: so do all rounds together;
* `Expansion.reaches_divide`: a division delivers the quotient.
-/

namespace Wordcode

variable {Bus : Type}

open Instruction Expansion

variable {code : Code} {base : View Bus}

namespace Expansion

/-- The registers of a division. They are five different ones. -/
structure Division where
  dividend : Nat
  remainder : Nat
  quotient : Nat
  divisor : Nat
  counter : Nat

namespace Division

variable (r : Division)

/-- Brings the next bit of the dividend into the remainder. -/
def shiftIn (skip : Nat) : List Instruction :=
  [onto .lsh r.dividend, jump .bnc skip, onto .inc r.remainder, mark skip]

/-- Subtracts the divisor from the remainder, and counts that. -/
def subtract : List Instruction :=
  [combine .sub r.remainder r.divisor, onto .inc r.quotient]

/-- One round. -/
def round (top trial force forceSub next : Nat) : List Instruction :=
  [mark top, onto .lsh r.quotient, onto .lsh r.remainder, jump .brc force] ++
    r.shiftIn trial ++
    [.code .cmp [.register r.remainder, .register r.divisor], jump .brc next] ++
    r.subtract ++ [jump .bra next, mark force] ++ r.shiftIn forceSub ++ r.subtract ++ [mark next]

/-- The registers exist and are different. -/
structure Usable (base : View Bus) : Prop where
  dividend : r.dividend ≠ 0 ∧ r.dividend < base.core.registers.size
  remainder : r.remainder ≠ 0 ∧ r.remainder < base.core.registers.size
  quotient : r.quotient ≠ 0 ∧ r.quotient < base.core.registers.size
  counter : r.counter ≠ 0 ∧ r.counter < base.core.registers.size
  divisor : r.divisor < base.core.registers.size
  nodup : [r.dividend, r.remainder, r.quotient, r.divisor, r.counter].Nodup

variable {r}

theorem Usable.ne (h : r.Usable base) :
    (r.dividend ≠ r.remainder ∧ r.dividend ≠ r.quotient ∧ r.dividend ≠ r.divisor ∧
      r.dividend ≠ r.counter) ∧
    (r.remainder ≠ r.quotient ∧ r.remainder ≠ r.divisor ∧ r.remainder ≠ r.counter) ∧
    (r.quotient ≠ r.divisor ∧ r.quotient ≠ r.counter) ∧ r.divisor ≠ r.counter := by
  simpa only [List.nodup_cons, List.mem_cons, not_or, List.not_mem_nil, not_false_eq_true, and_true,
    List.nodup_nil] using h.nodup

variable [PortBus Bus]

/-- The next bit of the dividend is its carry when it is shifted up. -/
theorem reaches_shiftIn (hh : base.core.halted = false) (hr : r.Usable base) {skip a : Nat}
    (hold : code.Holds a (r.shiftIn skip)) (flags : Nat) (stack : List Nat) (file : File)
    {b e : Nat} (hb : b ≤ 1) (hd : file.word r.dividend * 2 = b * (code.config.mask + 1) + e)
    (he : e ≤ code.config.mask) (hle : file.word r.remainder + b ≤ code.config.mask) :
    code.Reaches (Frame.view ⟨a, flags, stack, file⟩ base) fun v =>
      ∃ flags file', v = Frame.view ⟨a + 3, flags, stack, file'⟩ base ∧
        file'.word r.dividend = e ∧ file'.word r.remainder = file.word r.remainder + b ∧
        ∀ j, j ≠ r.dividend → j ≠ r.remainder → file'.word j = file.word j := by
  simp (disch := decide) only [shiftIn, onto, jump, mark, Code.holds_mark_cons,
    Code.holds_code_cons] at hold
  obtain ⟨h₀, h₁, h₂, hskip, -⟩ := hold
  have hne := hr.ne.1.1
  have hmask : file.word r.dividend * 2 &&& code.config.mask = e := by
    rw [Config.and_mask, hd, Nat.mul_add_mod_self_right, Nat.mod_eq_of_lt (by omega)]
  refine .exec hh h₀ ⟨hr.dividend.2, hr.dividend.2⟩ rfl ?_
  -- a bit of 0 sets no carry, and the increment is skipped
  rcases Nat.le_one_iff_eq_zero_or_eq_one.1 hb with rfl | rfl
  · refine .taken hh h₁ hskip rfl ?_ (.here ⟨_, _, rfl, ?_, ?_, fun j hj hj' => ?_⟩)
    · simp [Opcode.takes_bnc, hd, he]
    · simp [hr.dividend.1, hmask]
    · simp [hne.symm]
    · simp [hj]
  · refine .passed hh h₁ rfl ?_ (.exec hh h₂ ⟨hr.remainder.2, hr.remainder.2⟩ rfl
      (.here ⟨_, _, rfl, ?_, ?_, fun j hj hj' => ?_⟩))
    · simp [Opcode.takes_bnc, hd]
      omega
    · simp [hr.dividend.1, hne, hmask]
    · simp [hr.remainder.1, hne.symm, Config.and_mask_of_le hle]
    · simp [hj, hj']

/-- Quotient and remainder make room for a bit. The remainder may leave the word by that, and the
    flags tell. -/
theorem reaches_double (hh : base.core.halted = false) (hr : r.Usable base) {a : Nat}
    (hold : code.Holds a [onto .lsh r.quotient, onto .lsh r.remainder]) (flags : Nat)
    (stack : List Nat) (file : File) (hq : file.word r.quotient * 2 ≤ code.config.mask) :
    code.Reaches (Frame.view ⟨a, flags, stack, file⟩ base) fun v =>
      ∃ flags file', v = Frame.view ⟨a + 2, flags, stack, file'⟩ base ∧
        flags = file.word r.remainder * 2 ∧ file'.word r.quotient = file.word r.quotient * 2 ∧
        file'.word r.remainder = file.word r.remainder * 2 % (code.config.mask + 1) ∧
        ∀ j, j ≠ r.remainder → j ≠ r.quotient → file'.word j = file.word j := by
  simp (disch := decide) only [onto, Code.holds_code_cons] at hold
  obtain ⟨h₀, h₁, -⟩ := hold
  have hne := hr.ne.2.1.1
  refine .exec hh h₀ ⟨hr.quotient.2, hr.quotient.2⟩ rfl
    (.exec hh h₁ ⟨hr.remainder.2, hr.remainder.2⟩ rfl
      (.here ⟨_, _, rfl, ?_, ?_, ?_, fun j hj hj' => ?_⟩))
  · simp [hne]
  · simp [hr.quotient.1, hne.symm, Config.and_mask_of_le hq]
  · simp [hr.remainder.1, hne, Config.and_mask]
  · simp [hj, hj']

/-- Subtracting counts as one more in the quotient. -/
theorem reaches_subtract (hh : base.core.halted = false) (hr : r.Usable base) {a : Nat}
    (hold : code.Holds a r.subtract) (flags : Nat) (stack : List Nat) (file : File)
    {difference : Nat} (hy : file.word r.divisor ≤ code.config.mask)
    (hd : (file.word r.remainder + (code.config.mask + 1 - file.word r.divisor)) %
      (code.config.mask + 1) = difference)
    (hq : file.word r.quotient + 1 ≤ code.config.mask) :
    code.Reaches (Frame.view ⟨a, flags, stack, file⟩ base) fun v =>
      ∃ flags file', v = Frame.view ⟨a + 2, flags, stack, file'⟩ base ∧
        file'.word r.remainder = difference ∧ file'.word r.quotient = file.word r.quotient + 1 ∧
        ∀ j, j ≠ r.remainder → j ≠ r.quotient → file'.word j = file.word j := by
  simp (disch := decide) only [subtract, combine, onto, Code.holds_code_cons] at hold
  obtain ⟨h₀, h₁, -⟩ := hold
  have hne := hr.ne.2.1.1
  refine .exec hh h₀ ⟨hr.remainder.2, hr.remainder.2, hr.divisor⟩ rfl
    (.exec hh h₁ ⟨hr.quotient.2, hr.quotient.2⟩ rfl
      (.here ⟨_, _, rfl, ?_, ?_, fun j hj hj' => ?_⟩))
  · simp [hr.remainder.1, hne, Arithmetic.difference_and_mask hy, hd]
  · simp [hr.quotient.1, hne.symm, Config.and_mask_of_le hq]
  · simp [hj, hj']

@[simp] theorem extent_shiftIn (skip : Nat) : extent (r.shiftIn skip) = 3 := rfl

@[simp] theorem extent_subtract : extent r.subtract = 2 := rfl

@[simp] theorem extent_round (top trial force forceSub next : Nat) :
    extent (r.round top trial force forceSub next) = 16 := by
  simp [round, onto, jump, mark, Opcode.footprint]

/-- What becomes of quotient and remainder when a bit comes in. -/
def Brings (y b q r q' r' : Nat) : Prop :=
  (2 * r + b < y ∧ q' = 2 * q ∧ r' = 2 * r + b) ∨
    (y ≤ 2 * r + b ∧ q' = 2 * q + 1 ∧ r' = 2 * r + b - y)

/-- A bit can always come in, and quotient and remainder are those of the number with that
    bit at its end. -/
theorem exists_brings {y b q r : Nat} (hb : b ≤ 1) (hlt : r < y) :
    ∃ q' r', Brings y b q r q' r' ∧ r' < y ∧ q' * y + r' = 2 * (q * y + r) + b := by
  by_cases h : 2 * r + b < y
  · refine ⟨2 * q, 2 * r + b, .inl ⟨h, rfl, rfl⟩, h, ?_⟩
    ring
  · refine ⟨2 * q + 1, 2 * r + b - y, .inr ⟨by omega, rfl, rfl⟩, by omega, ?_⟩
    have hmul : (2 * q + 1) * y = 2 * (q * y) + y := by ring
    omega

/-- One round brings the next bit into the remainder, and the divisor out of it if it can. -/
theorem reaches_round (hh : base.core.halted = false) (hr : r.Usable base)
    {top trial force forceSub next a : Nat}
    (hold : code.Holds a (r.round top trial force forceSub next)) (hodd : code.config.mask % 2 = 1)
    (flags : Nat) (stack : List Nat) (file : File) {b e q' r' : Nat} (hb : b ≤ 1)
    (hd : file.word r.dividend * 2 = b * (code.config.mask + 1) + e) (he : e ≤ code.config.mask)
    (hy : file.word r.divisor ≤ code.config.mask)
    (hlt : file.word r.remainder < file.word r.divisor)
    (hstep : Brings (file.word r.divisor) b (file.word r.quotient) (file.word r.remainder) q' r')
    (hq : q' ≤ code.config.mask) :
    code.Reaches (Frame.view ⟨a, flags, stack, file⟩ base) fun v =>
      ∃ flags file', v = Frame.view ⟨a + 16, flags, stack, file'⟩ base ∧
        file'.word r.dividend = e ∧ file'.word r.remainder = r' ∧ file'.word r.quotient = q' ∧
        ∀ j, j ≠ r.dividend → j ≠ r.remainder → j ≠ r.quotient → file'.word j = file.word j := by
  simp only [round, Code.holds_append, extent_append, extent_shiftIn, extent_subtract] at hold
  simp (disch := decide) only [mark, onto, jump, Code.holds_mark_cons, Code.holds_code_cons] at hold
  obtain ⟨⟨⟨⟨⟨⟨⟨⟨htop, h₀, h₁, h₂, -⟩, hshift⟩, h₆, h₇, -⟩, hsub⟩, h₁₀, hforce, -⟩, hshift'⟩,
    hsub'⟩, hnext, -⟩ := hold
  obtain ⟨⟨hdr, hdq, hdy, -⟩, ⟨hrq, hry, -⟩, ⟨hqy, -⟩, -⟩ := hr.ne
  have h2q : file.word r.quotient * 2 ≤ code.config.mask := by
    rcases hstep with ⟨-, hq', -⟩ | ⟨-, hq', -⟩ <;> omega
  have hdouble : code.Holds a [onto .lsh r.quotient, onto .lsh r.remainder] :=
    (Code.holds_code_cons rfl).2 ⟨h₀, (Code.holds_code_cons rfl).2 ⟨h₁, trivial⟩⟩
  refine (reaches_double hh hr hdouble flags stack file h2q).bind ?_
  rintro v ⟨flags, file₁, rfl, rfl, hq₁, hr₁, hother₁⟩
  have hd₁ := hother₁ r.dividend hdr hdq
  have hy₁ := hother₁ r.divisor (Ne.symm hry) (Ne.symm hqy)
  by_cases hcarry : code.config.mask < file.word r.remainder * 2
  · -- the remainder has left the word, so the divisor can be subtracted
    refine .taken hh h₂ hforce rfl (by simpa [Opcode.takes_brc] using hcarry) ?_
    rw [Nat.mod_eq_sub_mod (by omega), Nat.mod_eq_of_lt (by omega)] at hr₁
    refine (reaches_shiftIn hh hr hshift' _ _ file₁ hb (hd₁ ▸ hd) he (by omega)).bind ?_
    rintro v ⟨flags, file₂, rfl, hd₂, hr₂, hother₂⟩
    have hy₂ := (hother₂ r.divisor (Ne.symm hdy) (Ne.symm hry)).trans hy₁
    have hq₂ := (hother₂ r.quotient (Ne.symm hdq) (Ne.symm hrq)).trans hq₁
    obtain ⟨-, rfl, rfl⟩ : _ ∧ q' = _ ∧ r' = _ := hstep.resolve_left fun h => by omega
    have hsum : file₂.word r.remainder + (code.config.mask + 1 - file₂.word r.divisor) =
        2 * file.word r.remainder + b - file.word r.divisor := by
      rw [hr₂, hr₁, hy₂]
      omega
    refine (reaches_subtract hh hr hsub' _ _ file₂ (hy₂ ▸ hy)
      (by rw [hsum, Nat.mod_eq_of_lt (by omega)]) (by omega)).mono ?_
    rintro v ⟨flags, file₃, rfl, hr₃, hq₃, hother₃⟩
    refine ⟨flags, file₃, rfl, (hother₃ _ hdr hdq).trans hd₂, hr₃, by omega,
      fun j hj hj' hj'' => ?_⟩
    rw [hother₃ j hj' hj'', hother₂ j hj hj', hother₁ j hj' hj'']
  · -- the remainder is still a word, and a comparison tells
    refine .passed hh h₂ rfl (by simpa [Opcode.takes_brc] using hcarry) ?_
    rw [Nat.mod_eq_of_lt (by omega)] at hr₁
    refine (reaches_shiftIn hh hr hshift _ _ file₁ hb (hd₁ ▸ hd) he (by omega)).bind ?_
    rintro v ⟨flags, file₂, rfl, hd₂, hr₂, hother₂⟩
    have hy₂ := (hother₂ r.divisor (Ne.symm hdy) (Ne.symm hry)).trans hy₁
    have hq₂ := (hother₂ r.quotient (Ne.symm hdq) (Ne.symm hrq)).trans hq₁
    have hrle : file₂.word r.remainder ≤ code.config.mask := by omega
    have hborrow := Arithmetic.isCarry_difference hrle (hy₂.symm ▸ hy)
    refine .exec hh h₆ ⟨hr.remainder.2, hr.divisor⟩ rfl ?_
    rcases hstep with ⟨hless, rfl, rfl⟩ | ⟨hge, rfl, rfl⟩
    · refine .taken hh h₇ hnext rfl ?_ (.here ⟨_, file₂, rfl, hd₂, by omega, by omega,
        fun j hj hj' hj'' => ?_⟩)
      · refine hborrow.trans ?_
        simp only [decide_eq_true_eq]
        omega
      · rw [hother₂ j hj hj', hother₁ j hj' hj'']
    · refine .passed hh h₇ rfl ?_ ?_
      · refine hborrow.trans ?_
        simp only [decide_eq_false_iff_not]
        omega
      have hsum : file₂.word r.remainder + (code.config.mask + 1 - file₂.word r.divisor) =
          2 * file.word r.remainder + b - file.word r.divisor + (code.config.mask + 1) := by omega
      refine (reaches_subtract hh hr hsub _ _ file₂ (hy₂ ▸ hy)
        (by rw [hsum, Nat.add_mod_right, Nat.mod_eq_of_lt (by omega)]) (by omega)).bind ?_
      rintro v ⟨flags, file₃, rfl, hr₃, hq₃, hother₃⟩
      refine .taken hh h₁₀ hnext rfl rfl (.here ⟨flags, file₃, rfl,
        (hother₃ _ hdr hdq).trans hd₂, hr₃, by omega, fun j hj hj' hj'' => ?_⟩)
      rw [hother₃ j hj' hj'', hother₂ j hj hj', hother₁ j hj' hj'']

/-- What holds with `k` rounds left to divide `x` by `y`: quotient and remainder are those of
    the bits that are done, and `d` is still to be divided. Its bits are the highest of the
    register of the dividend. -/
structure Left (r : Division) (mask x y k : Nat) (file : File) (d u : Nat) : Prop where
  width : mask + 1 = Nat.pow 2 k * u
  lt : d < Nat.pow 2 k
  counter : file.word r.counter = k
  dividend : file.word r.dividend = d * u
  divisor : file.word r.divisor = y
  remainder : file.word r.remainder < y
  value : x = (file.word r.quotient * y + file.word r.remainder) * Nat.pow 2 k + d

/-- When nothing is left, the quotient is that of all bits. -/
theorem Left.quotient {mask x y d u : Nat} {file : File} (h : r.Left mask x y 0 file d u) :
    file.word r.quotient = x / y := by
  have hd : d = 0 := Nat.lt_one_iff.1 h.lt
  have hone : Nat.pow 2 0 = 1 := rfl
  have hpos : 0 < y := Nat.lt_of_le_of_lt (Nat.zero_le _) h.remainder
  rw [h.value, hd, hone, Nat.mul_one, Nat.add_zero, Nat.mul_comm, Nat.mul_add_div hpos,
    Nat.div_eq_of_lt h.remainder, Nat.add_zero]

theorem Left.count_le {mask x y k d u : Nat} {file : File} (h : r.Left mask x y k file d u) :
    k ≤ mask := by
  have hwidth := h.width
  have hlt : k < Nat.pow 2 k := Nat.lt_two_pow_self
  have hle : Nat.pow 2 k ≤ Nat.pow 2 k * u := by
    refine Nat.le_mul_of_pos_right _ (Nat.pos_of_ne_zero fun hu => ?_)
    rw [hu, Nat.mul_zero] at hwidth
    cases hwidth
  omega

/-- All rounds. -/
def rounds (top trial force forceSub next : Nat) : List Instruction :=
  r.round top trial force forceSub next ++ [onto .dec r.counter, jump .bnz top]

/-- A round, and counting it. -/
theorem Left.reaches {x y k d u : Nat} {file : File}
    (h : r.Left code.config.mask x y (k + 1) file d u) (hh : base.core.halted = false)
    (hr : r.Usable base) {top trial force forceSub next a : Nat}
    (hold : code.Holds a (r.rounds top trial force forceSub next))
    (hx : x ≤ code.config.mask) (hy : y ≤ code.config.mask) (flags : Nat) (stack : List Nat) :
    code.Reaches (Frame.view ⟨a, flags, stack, file⟩ base) fun v =>
      ∃ file', v = Frame.view ⟨a + 17, k, stack, file'⟩ base ∧
        r.Left code.config.mask x y k file' (d % Nat.pow 2 k) (u * 2) ∧
        ∀ j, j ≠ r.dividend → j ≠ r.remainder → j ≠ r.quotient → j ≠ r.counter →
          file'.word j = file.word j := by
  have hk := h.count_le
  rw [rounds, Code.holds_append, extent_round] at hold
  obtain ⟨hround, hold⟩ := hold
  obtain ⟨h₁₆, -⟩ := (Code.holds_code_cons rfl).1 hold
  obtain ⟨⟨-, -, hdy, hdc⟩, ⟨-, hry, hrc⟩, ⟨hqy, hqc⟩, hyc⟩ := hr.ne
  obtain ⟨p, hp⟩ : ∃ p, p = Nat.pow 2 k := ⟨_, rfl⟩
  have hpow : Nat.pow 2 (k + 1) = p * 2 := hp ▸ rfl
  have hppos : 0 < p := hp ▸ Nat.pow_pos (by decide)
  obtain ⟨hwidth, hdlt, hcounter, hdividend, hdivisor, hremainder, hvalue⟩ := h
  rw [hpow] at hwidth hdlt hvalue
  have hodd : code.config.mask % 2 = 1 := by
    have : code.config.mask + 1 = 2 * (p * u) := by rw [hwidth]; ring
    omega
  rw [← hp]
  -- the highest bit of what is left, and the bits below it
  have hsplit := Nat.div_add_mod d p
  have hlow : d % p < p := Nat.mod_lt _ hppos
  have hbit : d / p ≤ 1 := Nat.le_of_lt_succ ((Nat.div_lt_iff_lt_mul hppos).2 (by omega))
  generalize d / p = b at *
  generalize d % p = d' at *
  subst hsplit
  have hshift : file.word r.dividend * 2 = b * (code.config.mask + 1) + d' * (u * 2) := by
    rw [hdividend, hwidth]
    ring
  have hwidth' : code.config.mask + 1 = p * (u * 2) := by
    rw [hwidth]
    ring
  have hfits : d' * (u * 2) ≤ code.config.mask := by
    have hupos : 0 < u * 2 := Nat.pos_of_ne_zero fun hu => by simp [hu] at hwidth'
    have := Nat.mul_lt_mul_of_pos_right hlow hupos
    omega
  obtain ⟨q', r', hbrings, hlt', hvalue'⟩ :=
    exists_brings (q := file.word r.quotient) hbit hremainder
  have hleft : x = (q' * y + r') * p + d' := by
    rw [hvalue, hvalue']
    ring
  have hq' : q' ≤ code.config.mask := by
    have h₁ : q' ≤ q' * y := Nat.le_mul_of_pos_right _ (by omega)
    have h₂ : q' * y + r' ≤ (q' * y + r') * p := Nat.le_mul_of_pos_right _ hppos
    omega
  refine (reaches_round hh hr hround hodd flags stack file hbit hshift hfits
    (hdivisor ▸ hy) (hdivisor ▸ hremainder) (hdivisor ▸ hbrings) hq').bind ?_
  rintro v ⟨flags, file', rfl, hd₁, hr₁, hq₁, hother⟩
  have hc₁ := (hother r.counter (Ne.symm hdc) (Ne.symm hrc) (Ne.symm hqc)).trans hcounter
  have hy₁ := (hother r.divisor (Ne.symm hdy) (Ne.symm hry) (Ne.symm hqy)).trans hdivisor
  have hdec : Arithmetic.difference (k + 1) 1 = k :=
    Arithmetic.difference_of_le hk (Nat.succ_le_succ (Nat.zero_le k))
  refine .exec hh h₁₆ ⟨hr.counter.2, hr.counter.2⟩ rfl (.here ⟨file'.put r.counter k, ?_, ?_, ?_⟩)
  · simp [hc₁, hdec, Config.and_mask_of_le (Nat.le_of_succ_le hk)]
  · refine ⟨hp ▸ hwidth', hp ▸ hlow, File.word_put_self hr.counter.1, ?_, ?_, ?_, ?_⟩
    · rw [File.word_put_of_ne hdc, hd₁]
    · rw [File.word_put_of_ne hyc, hy₁]
    · rwa [File.word_put_of_ne hrc, hr₁]
    · rw [File.word_put_of_ne hrc, File.word_put_of_ne hqc, hr₁, hq₁, ← hp, hleft]
  · intro j hj hj' hj'' hjc
    rw [File.word_put_of_ne hjc, hother j hj hj' hj'']

/-- All rounds together divide. -/
theorem reaches_rounds (hh : base.core.halted = false) (hr : r.Usable base)
    {top trial force forceSub next a : Nat}
    (hold : code.Holds a (r.rounds top trial force forceSub next)) {x y k d u : Nat} {file : File}
    (h : r.Left code.config.mask x y (k + 1) file d u) (hx : x ≤ code.config.mask)
    (hy : y ≤ code.config.mask) (flags : Nat) (stack : List Nat) :
    code.Reaches (Frame.view ⟨a, flags, stack, file⟩ base) fun v =>
      ∃ flags file', v = Frame.view ⟨a + 18, flags, stack, file'⟩ base ∧
        file'.word r.quotient = x / y ∧
        ∀ j, j ≠ r.dividend → j ≠ r.remainder → j ≠ r.quotient → j ≠ r.counter →
          file'.word j = file.word j := by
  obtain ⟨hround, hend⟩ := Code.holds_append.1 hold
  rw [extent_round] at hend
  have htop : code.resolution.addressOf (.anonymous top) = some a := hround.1
  obtain ⟨-, hend⟩ := (Code.holds_code_cons rfl).1 hend
  obtain ⟨h₁₇, -⟩ := (Code.holds_code_cons rfl).1 hend
  -- by induction on the rounds left, of which there is always one before the test
  induction k generalizing d u flags file with
  | zero =>
    refine (h.reaches hh hr hold hx hy flags stack).bind ?_
    rintro v ⟨file', rfl, hleft, hother⟩
    refine .passed hh h₁₇ rfl ?_ (.here ⟨_, file', rfl, hleft.quotient, hother⟩)
    simp [Opcode.takes_bnz]
  | succ k ih =>
    refine (h.reaches hh hr hold hx hy flags stack).bind ?_
    rintro v ⟨file', rfl, hleft, hother⟩
    refine .taken hh h₁₇ htop rfl ?_ ((ih hleft _).mono ?_)
    · simp [Opcode.takes_bnz hleft.count_le]
    · rintro v ⟨flags, file'', rfl, hquotient, hother'⟩
      refine ⟨flags, file'', rfl, hquotient, fun j hj hj' hj'' hjc => ?_⟩
      rw [hother' j hj hj' hj'' hjc, hother j hj hj' hj'' hjc]

/-- What a division does with the registers it has borrowed. -/
def work (context : Context) (first : Nat) (d x : Operand) : List Instruction :=
  [mark first, copy r.dividend x, clear r.remainder, clear r.quotient,
    .code .imm [.register r.counter, .immediate context.wordBits]] ++
  r.rounds (first + 1) (first + 2) (first + 3) (first + 4) (first + 5) ++
  [deliver d r.quotient, mark (first + 6)]

theorem extent_work (context : Context) (first : Nat) (d x : Operand) :
    extent (r.work context first d x) = 23 := by
  simp [work, rounds, footprint_copy, mark, clear, onto, jump, deliver, Opcode.footprint]

/-- The rounds start with the whole dividend left. -/
theorem reaches_work (hh : base.core.halted = false) (hr : r.Usable base) {context : Context}
    (hbits : 0 < context.wordBits) (hwidth : code.config.mask + 1 = Nat.pow 2 context.wordBits)
    {first t a : Nat} {x : Operand}
    (hold : code.Holds a (r.work context first (.register t) x))
    (ht : t < base.core.registers.size) (hx : x.Readable base.core.registers.size) (flags : Nat)
    (stack : List Nat) (file : File) {n y : Nat} (hn : x.eval code.config.mask file = n)
    (hy : file.word r.divisor = y) (hnle : n ≤ code.config.mask) (hyle : y ≤ code.config.mask)
    (h0 : y ≠ 0) :
    code.Reaches (Frame.view ⟨a, flags, stack, file⟩ base)
      (Frame.Delivered ⟨a, flags, stack, file⟩ base 23
        [r.counter, r.dividend, r.remainder, r.quotient] t (n / y)) := by
  obtain ⟨⟨hdr, hdq, hdy, hdc⟩, ⟨hrq, hry, hrc⟩, ⟨hqy, hqc⟩, hyc⟩ := hr.ne
  have hzero (j : Nat) (hj : j < base.core.registers.size) : 0 < base.core.registers.size := by
    omega
  rw [work, List.append_assoc] at hold
  refine .copy hh hold.2 hr.dividend.2 hx hn hnle fun hold => ?_
  obtain ⟨h₁, hold⟩ := (Code.holds_code_cons rfl).1 hold
  obtain ⟨h₂, hold⟩ := (Code.holds_code_cons rfl).1 hold
  obtain ⟨h₃, hold⟩ := (Code.holds_code_cons rfl).1 hold
  refine .exec hh h₁ ⟨hr.remainder.2, hzero _ hr.remainder.2⟩ rfl ?_
  refine .exec hh h₂ ⟨hr.quotient.2, hzero _ hr.quotient.2⟩ rfl ?_
  refine .exec hh h₃ ⟨hr.counter.2, trivial⟩ rfl ?_
  replace hold : code.Holds (a + 4)
      (r.rounds (first + 1) (first + 2) (first + 3) (first + 4) (first + 5) ++
        [deliver (.register t) r.quotient, mark (first + 6)]) := hold
  obtain ⟨hrounds, hend⟩ := Code.holds_append.1 hold
  rw [rounds, extent_append, extent_round] at hend
  obtain ⟨k, hk⟩ : ∃ k, context.wordBits = k + 1 := ⟨context.wordBits - 1, by omega⟩
  have hcount : context.wordBits ≤ code.config.mask := by
    have : context.wordBits < Nat.pow 2 context.wordBits := Nat.lt_two_pow_self
    omega
  -- the file with everything left to divide
  obtain ⟨file₁, hfile₁⟩ : ∃ file₁, file₁ = (((file.put r.dividend n).put
      r.remainder 0).put r.quotient 0).put r.counter context.wordBits := ⟨_, rfl⟩
  have hleft : r.Left code.config.mask n y (k + 1) file₁ n 1 := by
    refine ⟨by rw [hwidth, hk, Nat.mul_one], by rw [← hk, ← hwidth]; omega, ?_, ?_, ?_, ?_, ?_⟩
    · rw [hfile₁, File.word_put_self hr.counter.1, hk]
    · simp [hfile₁, hdr, hdq, hdc, hr.dividend.1]
    · simp [hfile₁, hyc, Ne.symm hqy, Ne.symm hry, Ne.symm hdy, hy]
    · simpa [hfile₁, hrc, hrq, hr.remainder.1] using Nat.pos_of_ne_zero h0
    · simp [hfile₁, hrc, hqc, hrq, hr.remainder.1, hr.quotient.1]
  suffices hgoal : code.Reaches (Frame.view ⟨a + 4, flags, stack, file₁⟩ base) _ by
    simpa [hfile₁, Config.and_mask_of_le hcount] using hgoal
  refine (reaches_rounds hh hr hrounds hleft hnle hyle flags stack).bind ?_
  rintro v ⟨flags', file₂, rfl, hquotient, hother⟩
  refine .deliver hh ((Code.holds_code_cons rfl).1 hend).1 ht hr.quotient.2 hquotient
    (Nat.le_trans (Nat.div_le_self _ _) hnle) rfl rfl fun j hj => ?_
  simp only [List.mem_cons, List.not_mem_nil, or_false, not_or] at hj
  rw [hother j hj.2.1 hj.2.2.1 hj.2.2.2 hj.1]
  simp [hfile₁, hj]

end Division

/-- What the expansion of a quotient consists of. -/
theorem exists_of_divide {f : Instruction → List Instruction} (hf : Settles f) {context : Context}
    {first : Nat} {t x y : Operand} {expansion : Expansion}
    (he : divide context first t x y = some expansion) :
    ∃ r spare load, borrow (avoided context [t, x, y]) (3 + divisorCount y) =
        Division.dividend r :: r.remainder :: r.quotient :: spare ∧
      divisor spare y = some (r.divisor, load) ∧ r.counter = context.scratch ∧
      expansion.body.flatMap f =
        save (r.dividend :: r.remainder :: r.quotient :: spare) ++ (load ++ (announce first 7 ++
          ((zeroTrap r.divisor first (first + 6)).flatMap f ++ r.work context first t x))) ++
          restore (r.dividend :: r.remainder :: r.quotient :: spare) := by
  unfold divide at he
  split at he
  · next dividend remainder quotient spare hborrow =>
    obtain ⟨⟨d, load⟩, hdivisor, he⟩ := Option.bind_eq_some_iff.1 he
    obtain ⟨r, hr⟩ : ∃ r, r = Division.mk dividend remainder quotient d context.scratch :=
      ⟨_, rfl⟩
    have hwork : (r.work context first t x).flatMap f = r.work context first t x := by
      refine hf.flatMap_eq ?_
      simp [Division.work, Division.rounds, Division.round, Division.shiftIn, Division.subtract,
        mark, combine, jump, deliver, clear, onto, copy_ne_brk]
    have hexpansion : expansion.body =
        save (dividend :: remainder :: quotient :: spare) ++ load ++ announce first 7 ++
          zeroTrap d first (first + 6) ++ r.work context first t x ++
          restore (dividend :: remainder :: quotient :: spare) := by
      cases he
      rw [hr]
      rfl
    refine ⟨r, spare, load, by rw [hborrow, hr], by rw [hdivisor, hr], by rw [hr], ?_⟩
    simp only [hexpansion, List.flatMap_append, hf.flatMap_eq (save_ne_brk _),
      hf.flatMap_eq (restore_ne_brk _), hf.flatMap_eq (load_ne_brk hdivisor),
      hf.flatMap_eq (announce_ne_brk first 7), hwork, List.append_assoc]
    rw [hr]
  · cases he

/-- Registers that are borrowed and exist can be used for a division. -/
theorem usable_of_borrow {context : Context} {t : Nat} {x y : Operand} {r : Division}
    {spare : List Nat} {load : List Instruction}
    (hborrow : borrow (avoided context [.register t, x, y]) (3 + divisorCount y) =
      r.dividend :: r.remainder :: r.quotient :: spare)
    (hdivisor : divisor spare y = some (r.divisor, load)) (hcounter : r.counter = context.scratch)
    (hy : y ≠ .register context.scratch)
    (hborrowed : ∀ j ∈ r.dividend :: r.remainder :: r.quotient :: spare,
      j < base.core.registers.size)
    (hd : r.divisor < base.core.registers.size)
    (hc : r.counter ≠ 0 ∧ r.counter < base.core.registers.size) : r.Usable base := by
  have hnodup := nodup_borrow (avoided context [.register t, x, y]) (3 + divisorCount y)
  have hfree : ∀ j ∈ borrow (avoided context [.register t, x, y]) (3 + divisorCount y),
      j ≠ 0 ∧ j ≠ context.scratch ∧ .register j ∉ [.register t, x, y] :=
    fun j hj => mem_borrow_avoided hj
  rw [hborrow] at hnodup hfree
  simp only [List.nodup_cons, List.mem_cons, not_or] at hnodup
  obtain ⟨⟨hdr, hdq, hds⟩, ⟨hrq, hrs⟩, hqs, -⟩ := hnodup
  have hother (j : Nat) (hj : j ∈ r.dividend :: r.remainder :: r.quotient :: spare)
      (hj' : j ∉ spare) : j ≠ r.divisor ∧ j ≠ context.scratch := by
    refine ⟨(ne_of_divisor hdivisor (fun e => (hfree j hj).2.2 ?_) hj').symm, (hfree j hj).2.1⟩
    simp [e]
  have hne : r.divisor ≠ context.scratch :=
    ne_of_divisor hdivisor hy fun hmem => (hfree _ (by simp [hmem])).2.1 rfl
  refine ⟨⟨(hfree _ ?_).1, hborrowed _ ?_⟩, ⟨(hfree _ ?_).1, hborrowed _ ?_⟩,
    ⟨(hfree _ ?_).1, hborrowed _ ?_⟩, hc, hd, ?_⟩
  case refine_7 =>
    have hd := hother r.dividend (by simp) hds
    have hr := hother r.remainder (by simp) hrs
    have hq := hother r.quotient (by simp) hqs
    simp [hcounter, hdr, hdq, hrq, hd, hr, hq, hne]
  all_goals simp

variable [PortBus Bus]

/-- A quotient is delivered, unless the divisor is zero. -/
theorem reaches_divide {f : Instruction → List Instruction} (hf : Settles f) {context : Context}
    {first t : Nat} {x y : Operand} {expansion : Expansion} {frame : Frame}
    (hbits : 0 < context.wordBits) (hwidth : code.config.mask + 1 = Nat.pow 2 context.wordBits)
    (he : divide context first (.register t) x y = some expansion)
    (h : Ready code base frame context.scratch (3 + divisorCount y) (expansion.body.flatMap f))
    (hx : x.Given code base frame context.scratch) (hy : y.Given code base frame context.scratch)
    (h0 : y.eval code.config.mask frame.file ≠ 0) :
    code.Reaches (frame.view base) (frame.Delivered base (extent (expansion.body.flatMap f))
      [context.scratch] t
      (x.eval code.config.mask frame.file / y.eval code.config.mask frame.file)) := by
  obtain ⟨r, spare, load, hborrow, hdivisor, hcounter, hbody⟩ := exists_of_divide hf he
  have hlength := length_borrow (avoided context [.register t, x, y]) (3 + divisorCount y)
  have hfree : ∀ j ∈ borrow (avoided context [.register t, x, y]) (3 + divisorCount y),
      j ≠ 0 ∧ j ≠ context.scratch ∧ .register j ∉ [.register t, x, y] :=
    fun j hj => mem_borrow_avoided hj
  rw [hborrow] at hlength hfree
  have hslt (j : Nat) (hj : j ∈ r.dividend :: r.remainder :: r.quotient :: spare) :=
    h.saved_lt hbody hj
  have hlt (i : Instruction) (hi : i ∈ r.work context first (.register t) x) (j : Nat)
      (hj : .register j ∈ i.operands) : j < base.core.registers.size := by
    refine h.registers i ?_ j hj
    rw [hbody]
    simp [hi]
  have htlt := hlt (deliver (.register t) r.quotient) (by simp [Division.work]) t
    List.mem_cons_self
  have hclt := hlt (.code .imm [.register r.counter, .immediate context.wordBits])
    (by simp [Division.work]) r.counter List.mem_cons_self
  have hdlt := hlt (.code .cmp [.register r.remainder, .register r.divisor])
    (by simp [Division.work, Division.rounds, Division.round]) r.divisor (by simp [operands])
  -- every register occurs in the expansion, so there is one
  have husable := usable_of_borrow hborrow hdivisor hcounter hy.ne hslt hdlt
    ⟨hcounter ▸ h.scratch_ne, hclt⟩
  refine h.delivered _ _ hbody hlength (fun ht => (hfree t ht).2.2 List.mem_cons_self)
    fun ip stack hold => ?_
  have hspare (j : Nat) (hj : j ∈ spare) : j ≠ 0 ∧ j < base.core.registers.size :=
    ⟨(hfree j (by simp [hj])).1, hslt j (by simp [hj])⟩
  refine .loadDivisor h.running hdivisor hspare hold hy.readable hy.le
    fun file hd hother hold => ?_
  rw [Code.holds_announce_append, Code.holds_append, hf.extent_zeroTrap] at hold
  obtain ⟨htrap, hwork⟩ := hold
  have hx' : x.eval code.config.mask file = x.eval code.config.mask frame.file :=
    Operand.eval_congr fun j hj => hother j fun hmem =>
      (hfree j (by simp [hmem])).2.2 (by simp [hj])
  refine .zeroTrap hf h.running htrap hwork.1 hdlt (hd.symm ▸ h0) (hd.symm ▸ hy.le) ?_
  refine (Division.reaches_work h.running husable hbits hwidth hwork htlt hx.readable _ _ file hx'
    hd hx.le hy.le h0).mono ?_
  rintro v ⟨file', hfile', rfl⟩
  refine ⟨file', fun j hj => ?_, ?_⟩
  · simp only [List.mem_cons, not_or] at hj
    rw [hfile' j (by simp [hj, hcounter]), File.word_put, File.word_put, hother j hj.2.2.2.2]
  · simp [hf.extent_zeroTrap, Division.extent_work, Nat.add_assoc]

/-- A quotient by zero stops the core. -/
theorem stops_divide {f : Instruction → List Instruction} (hf : Settles f) {n : Note}
    (htrap : f (.code .brk []) = [.note n, .code .hlt []]) {context : Context} {first t : Nat}
    {x y : Operand} {expansion : Expansion} {frame : Frame}
    (he : divide context first (.register t) x y = some expansion)
    (h : Ready code base frame context.scratch (3 + divisorCount y) (expansion.body.flatMap f))
    (hy : y.Given code base frame context.scratch)
    (h0 : y.eval code.config.mask frame.file = 0) :
    code.Reaches (frame.view base) (frame.Stopped base
      (context.scratch :: borrow (avoided context [.register t, x, y]) (3 + divisorCount y))) := by
  obtain ⟨r, spare, load, hborrow, hdivisor, -, hbody⟩ := exists_of_divide hf he
  have hlength := length_borrow (avoided context [.register t, x, y]) (3 + divisorCount y)
  have hfree : ∀ j ∈ borrow (avoided context [.register t, x, y]) (3 + divisorCount y), j ≠ 0 :=
    fun j hj => (mem_borrow hj).1
  rw [hborrow] at hlength hfree ⊢
  have hslt (j : Nat) (hj : j ∈ r.dividend :: r.remainder :: r.quotient :: spare) :=
    h.saved_lt hbody hj
  have hspare (j : Nat) (hj : j ∈ spare) : j ≠ 0 ∧ j < base.core.registers.size :=
    ⟨hfree j (by simp [hj]), hslt j (by simp [hj])⟩
  have hdlt := h.registers (.code .cmp [.register r.remainder, .register r.divisor])
    (by rw [hbody]; simp [Division.work, Division.rounds, Division.round]) r.divisor
    (by simp [operands])
  refine h.stopped _ _ hbody hlength fun ip stack hold => ?_
  refine .loadDivisor h.running hdivisor hspare hold hy.readable hy.le
    fun file hd hother hold => ?_
  rw [Code.holds_announce_append] at hold
  refine .zeroTrap_halt hf htrap h.running (Code.holds_append.1 hold).1 hdlt (hd.trans h0)
    ⟨_, _, _, _, fun j hj => hother j fun hmem => hj (by simp [hmem]), rfl⟩

end Expansion
end Wordcode
