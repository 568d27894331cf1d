import Wordcode.Proofs.Expansion.Arithmetic

/-!
# Results as integers

What instructions compute, seen as arithmetic on integers. Of an exact result the flags keep
128 bits (`Arithmetic.wrap`), which is enough to tell afterwards what became of it: exact
results are never so far from 0 that two of them are confused (`Opcode.Computes.bounds`).

* `Opcode.Computes`: the exact result of an instruction;
* `Opcode.meets`: what a branch asks of an exact result;
* `Decoded.execute_of_computes`: the register that an instruction writes and the branches that
  look at its flags agree with its exact result, whatever the width of a word;
* `Decoded.carry_of_shiftLeft`: the one result that 128 bits may not be enough for is that of a
  shift up, and the carry tells of it unless all of it is lost.
-/

namespace Wordcode

variable {Bus : Type}

/-! ## Exact results -/

namespace Opcode

/-- The instructions that compute on integers: their exact results, from the values they read. -/
inductive Computes : Opcode → List Nat → Int → Prop
  | add (x y : Nat) : Computes .add [x, y] (x + y)
  | sub (x y : Nat) : Computes .sub [x, y] (x - y)
  | inc (x : Nat) : Computes .inc [x] (x + 1)
  | dec (x : Nat) : Computes .dec [x] (x - 1)
  | mlt (x y : Nat) : Computes .mlt [x, y] (x * y)
  | lsh (x : Nat) : Computes .lsh [x] (x * 2)
  | cmp (x y : Nat) : Computes .cmp [x, y] (x - y)

/-- The position of the first operand that such an instruction reads. A comparison has no
    destination before it. -/
def firstRead : Opcode → Nat
  | .cmp => 1
  | _ => 2

/-- Whether the condition of a branch depends on the flags. -/
def readsFlags : Opcode → Bool
  | .brz | .bnz | .brc | .bnc | .brn | .brp => true
  | _ => false

/-- Whether an exact result meets the condition of a branch, for words of `bits` bits. -/
def meets (bits : Nat) (z : Int) : Opcode → Bool
  | .brz => z % Nat.pow 2 bits = 0
  | .bnz => ¬z % Nat.pow 2 bits = 0
  | .brc => z < 0 ∨ Nat.pow 2 bits ≤ z
  | .bnc => ¬(z < 0 ∨ Nat.pow 2 bits ≤ z)
  | .brn => Nat.pow 2 (bits - 1) ≤ z % Nat.pow 2 bits
  | .brp => ¬Nat.pow 2 (bits - 1) ≤ z % Nat.pow 2 bits
  | _ => false

/-- An exact result is a number of 128 bits, or lacks less than the widest word to 0. -/
theorem Computes.bounds {op : Opcode} {xs : List Nat} {z : Int} (h : op.Computes xs z)
    (hxs : ∀ x ∈ xs, x < Word.limit) : -Word.limit < z ∧ z < Arithmetic.resultCount := by
  have hsquare : Word.limit * Word.limit = Arithmetic.resultCount := by decide +kernel
  have hlimit : 2 * Word.limit < Arithmetic.resultCount := by decide +kernel
  have hpos : 1 < Word.limit := by decide +kernel
  cases h with
  | mlt x y =>
    have hlt : x * y < Word.limit * Word.limit :=
      Nat.mul_lt_mul'' (hxs x (by simp)) (hxs y (by simp))
    have hcast : (x : Int) * y = (x * y : Nat) := (Int.natCast_mul x y).symm
    omega
  | _ =>
    simp only [List.mem_cons, List.not_mem_nil, or_false, forall_eq_or_imp, forall_eq] at hxs
    omega

end Opcode

/-! ## Exact results in the flags -/

namespace Arithmetic

/-- What the flags keep of an exact result. -/
def wrap (z : Int) : Nat := (z % resultCount).toNat

theorem natCast_wrap (z : Int) : (wrap z : Int) = z % resultCount :=
  Int.toNat_of_nonneg (Int.emod_nonneg z (by decide +kernel))

theorem wrap_of_lt {n : Nat} (h : n < resultCount) : wrap n = n := by
  have := natCast_wrap n
  rw [Int.emod_eq_of_lt (by omega) (by omega)] at this
  omega

theorem wrap_sub {x y : Nat} (h : y ≤ resultCount) : wrap (x - y) = difference x y := by
  apply Int.ofNat.inj
  have hcast : ((x + (resultCount - y) : Nat) : Int) = x - y + resultCount := by omega
  calc (wrap (x - y) : Int) = (x - y) % resultCount := natCast_wrap _
    _ = (x - y + resultCount) % resultCount := (Int.add_emod_right _ _).symm
    _ = difference x y := by rw [difference, Int.natCast_emod, hcast]

variable (config : Config) (z : Int)

/-- Masking the flags yields what the exact result is modulo the number of words. -/
theorem wrap_and_mask : ((wrap z &&& config.mask : Nat) : Int) = z % (config.mask + 1 : Nat) := by
  have hdvd : ((config.mask + 1 : Nat) : Int) ∣ resultCount :=
    Int.natCast_dvd_natCast.2 config.dvd_resultCount
  rw [Config.and_mask, Int.natCast_emod, natCast_wrap, Int.emod_emod_of_dvd z hdvd]

theorem isZero_wrap :
    isZero config.mask (wrap z) = decide (z % (config.mask + 1 : Nat) = 0) := by
  rw [isZero, beq_eq_decide, decide_eq_decide, ← wrap_and_mask, Int.natCast_eq_zero]

theorem isNegative_wrap :
    isNegative config.mask (wrap z) =
      decide ((config.mask / 2 + 1 : Nat) ≤ z % (config.mask + 1 : Nat)) := by
  rw [isNegative, decide_eq_decide, ← wrap_and_mask, Int.ofNat_le, Nat.shiftRight_eq_div_pow]
  exact Iff.rfl

variable {z}

/-- The flags exceed the word exactly if the exact result is no word. A negative result wraps
    around to one that is far above every word. -/
theorem isCarry_wrap (hlow : -Word.limit < z) (hhigh : z < resultCount) :
    isCarry config.mask (wrap z) = decide (z < 0 ∨ (config.mask + 1 : Nat) ≤ z) := by
  have hmask := config.mask_lt
  have hlimit : 2 * Word.limit < resultCount := by decide +kernel
  have hwrap := natCast_wrap z
  rw [isCarry, decide_eq_decide]
  by_cases h : z < 0
  · rw [← Int.add_emod_right, Int.emod_eq_of_lt (by omega) (by omega)] at hwrap
    omega
  · rw [Int.emod_eq_of_lt (by omega) hhigh] at hwrap
    omega

end Arithmetic

namespace Decoded

variable {config : Config} {d : Decoded} {op : Opcode} {xs : List Nat} {z : Int}

/-- A branch that looks at an exact result in the flags is taken exactly if the result meets its
    condition. -/
theorem condition_of_flags {core : Core} (hpos : 0 < config.wordBits)
    (hle : config.wordBits ≤ Word.maxBits) (hlow : -Word.limit < z)
    (hhigh : z < Arithmetic.resultCount) (hf : core.flags = Arithmetic.wrap z)
    (hop : op.readsFlags = true) :
    d.condition config core op = .ok (op.meets config.wordBits z) := by
  have hmask := Config.mask_add_one_of_le hle
  -- half of the words is the weight of the highest bit
  have hhalf : config.mask / 2 + 1 = Nat.pow 2 (config.wordBits - 1) := by
    obtain ⟨bits, hbits⟩ := Nat.exists_eq_add_one.2 hpos
    have hdouble : Nat.pow 2 (bits + 1) = Nat.pow 2 bits * 2 := rfl
    rw [hbits] at hmask ⊢
    rw [Nat.add_sub_cancel]
    omega
  cases op with
  | brz | bnz | brc | bnc | brn | brp =>
    simp only [condition, Opcode.meets, hf, Arithmetic.isZero_wrap, Arithmetic.isNegative_wrap,
      Arithmetic.isCarry_wrap config hlow hhigh, hmask, hhalf, decide_not]
  | _ => cases hop

/-- The slots from a position on read as the given values. -/
def Reads (d : Decoded) (core : Core) (position : Nat) : List Nat → Prop
  | [] => True
  | x :: xs => d.value core position = .ok x ∧ d.Reads core (position + 1) xs

theorem unary_of_value {core : Core} {x : Nat} (hx : d.value core 2 = .ok x) (f : Nat → Nat) :
    d.unary core f = .ok (.compute (d.destination 1) (f x)) := by
  rw [unary, hx]
  rfl

theorem binary_of_value {core : Core} {x y : Nat} (hx : d.value core 2 = .ok x)
    (hy : d.value core 3 = .ok y) (f : Nat → Nat → Nat) :
    d.binary core f = .ok (.compute (d.destination 1) (f x y)) := by
  rw [binary, hx, hy]
  rfl

/-- An instruction with an exact result keeps it in the flags. All but a comparison deliver it,
    too. -/
theorem effectOf_of_computes (config : Config) (ram : Array Cell) {core : Core}
    (h : op.Computes xs z) (hxs : ∀ x ∈ xs, x < Word.limit) (hr : d.Reads core op.firstRead xs) :
    d.effectOf config ram core op =
      .ok (if op = .cmp then .compare (Arithmetic.wrap z)
        else .compute (d.destination 1) (Arithmetic.wrap z)) := by
  have hlimit : Word.limit ≤ Arithmetic.resultCount := by decide +kernel
  have hwrap (n : Nat) (hn : z = n) : Arithmetic.wrap z = n :=
    hn ▸ Arithmetic.wrap_of_lt (Int.ofNat_lt.1 (hn ▸ (h.bounds hxs).2))
  cases h with
  | add x y =>
    rw [hwrap (x + y) rfl]
    exact binary_of_value hr.1 hr.2.1 _
  | sub x y =>
    rw [Arithmetic.wrap_sub (Nat.le_trans (Nat.le_of_lt (hxs y (by simp))) hlimit)]
    exact binary_of_value hr.1 hr.2.1 _
  | inc x =>
    rw [hwrap (x + 1) rfl]
    exact unary_of_value hr.1 _
  | dec x =>
    rw [show (x - 1 : Int) = x - (1 : Nat) from rfl, Arithmetic.wrap_sub (by decide +kernel)]
    exact unary_of_value hr.1 _
  | mlt x y =>
    rw [hwrap (x * y) rfl]
    exact binary_of_value hr.1 hr.2.1 _
  | lsh x =>
    rw [hwrap (x * 2) rfl]
    exact unary_of_value hr.1 _
  | cmp x y =>
    rw [Arithmetic.wrap_sub (Nat.le_trans (Nat.le_of_lt (hxs y (by simp))) hlimit)]
    exact bind_eq_ok_iff.2 ⟨x, hr.1, bind_eq_ok_iff.2 ⟨y, hr.2.1, rfl⟩⟩

variable [PortBus Bus]

/-- A branch that looks at the flags goes to its target if the result that they keep meets its
    condition, and to the next instruction otherwise. -/
theorem execute_of_flags {w : View Bus} (hpos : 0 < config.wordBits)
    (hle : config.wordBits ≤ Word.maxBits) (hlow : -Word.limit < z)
    (hhigh : z < Arithmetic.resultCount) (hf : w.core.flags = Arithmetic.wrap z)
    (hop : d.operation = .code op) (hflags : op.readsFlags = true) :
    (op.meets config.wordBits z = true →
      ∀ a, d.value w.core 1 = .ok a → d.execute config w = w.goTo a) ∧
    (op.meets config.wordBits z = false → d.execute config w = w.advance) := by
  have hbranch : op.isBranch = true := by
    cases op <;> first | rfl | cases hflags
  have heffect : d.effectOf config w.ram w.core op =
      d.branch w.core (op.meets config.wordBits z) := by
    rw [effectOf_of_isBranch hbranch, condition_of_flags hpos hle hlow hhigh hf hflags]
    rfl
  constructor
  · intro hmeets a ha
    exact execute_of_effectOf hop (heffect.trans (branch_eq_ok_iff.2 (.inl ⟨hmeets, a, ha, rfl⟩)))
  · intro hmeets
    exact execute_of_effectOf hop (heffect.trans (branch_eq_ok_iff.2 (.inr ⟨hmeets, rfl⟩)))

end Decoded

/-! ## Agreement with integers -/

/-- A difference of words is zero exactly if they are equal, and negative exactly if the first
    is less. -/
theorem Opcode.meets_sub {bits a b : Nat} (ha : a < Nat.pow 2 bits) (hb : b < Nat.pow 2 bits) :
    (brz.meets bits (a - b) = true ↔ a = b) ∧ (brc.meets bits (a - b) = true ↔ a < b) := by
  simp only [meets, decide_eq_true_iff]
  constructor
  · constructor
    · intro h
      have := Int.eq_zero_of_dvd_of_natAbs_lt_natAbs (Int.dvd_of_emod_eq_zero h) (by omega)
      omega
    · rintro rfl
      simp
  · omega

theorem Core.put_eq (core : Core) (t word : Nat) :
    core.put t word = { core with registers := (core.put t word).registers } := by
  unfold put
  split <;> rfl

variable [PortBus Bus]

/-- An instruction that computes a result keeps it in the flags, puts the part of it that fits a
    word into the register that it names, and goes on. -/
theorem Decoded.exists_registers_of_compute {config : Config} {d : Decoded} {op : Opcode}
    {t result : Nat} {v : View Bus} (hop : d.operation = .code op)
    (he : d.effectOf config v.ram v.core op = .ok (.compute (.ok t) result))
    (hlt : t < v.core.registers.size) :
    ∃ registers,
      d.execute config v =
        ({ v with core := { v.core with
            ip := v.core.ip + 1, flags := result, registers } }, .executed) ∧
      ∀ j : Nat, registers[j]? =
        if j = t ∧ j ≠ 0 then some (result &&& config.mask) else v.core.registers[j]? := by
  have hx := (execute_of_effectOf hop he).trans (View.assign_of_lt hlt)
  rw [Core.put_eq] at hx
  refine ⟨_, hx, fun j => ?_⟩
  by_cases hj : j = t
  · subst hj
    by_cases h0 : j = 0
    · simp [h0, Core.put]
    · rw [if_pos ⟨rfl, h0⟩]
      exact Core.registers_put_self _ h0 hlt
  · rw [if_neg fun h => hj h.1]
    exact Core.registers_put_of_ne _ hj

/-- An instruction with an exact result puts the part of it that fits a word into the register that
    it names, if there is any, and goes on. -/
theorem Decoded.exists_registers_of_computes {config : Config} {d : Decoded} {op : Opcode}
    {xs : List Nat} {z : Int} {v : View Bus} (hle : config.wordBits ≤ Word.maxBits)
    (hop : d.operation = .code op) (hz : op.Computes xs z)
    (hreads : d.Reads v.core op.firstRead xs) (hxs : ∀ x ∈ xs, x < Word.limit)
    (ht : op ≠ .cmp → ∃ t, d.destination 1 = .ok t ∧ t < v.core.registers.size) :
    ∃ registers,
      d.execute config v =
        ({ v with core := { v.core with
            ip := v.core.ip + 1, flags := Arithmetic.wrap z, registers } }, .executed) ∧
      ∀ j : Nat, registers[j]? =
        if op ≠ .cmp ∧ d.destination 1 = .ok j ∧ j ≠ 0 then
          some (z % Nat.pow 2 config.wordBits).toNat
        else v.core.registers[j]? := by
  have he := effectOf_of_computes config v.ram hz hxs hreads
  by_cases hcmp : op = .cmp
  · rw [if_pos hcmp] at he
    refine ⟨v.core.registers, (execute_of_effectOf hop he).trans rfl, fun j => ?_⟩
    rw [if_neg fun h => h.1 hcmp]
  · obtain ⟨t, hd, hlt⟩ := ht hcmp
    have hword : Arithmetic.wrap z &&& config.mask = (z % Nat.pow 2 config.wordBits).toNat := by
      rw [← Config.mask_add_one_of_le hle, ← Arithmetic.wrap_and_mask, Int.toNat_natCast]
    rw [if_neg hcmp, hd] at he
    obtain ⟨registers, hx, hregisters⟩ := exists_registers_of_compute hop he hlt
    refine ⟨registers, hx, fun j => ?_⟩
    have hdestination : d.destination 1 = .ok j ↔ j = t := by
      rw [hd, Except.ok.injEq, eq_comm]
    rw [hregisters j, hword]
    exact if_congr (by rw [hdestination, ne_eq, and_iff_right hcmp]) rfl rfl

/-- What an instruction computes agrees with arithmetic on integers. Let an instruction read
    words and have the exact result `z`. Then it does not fault; the register that it names, if it
    delivers its result and the register is not register 0, gets `z` modulo the number of words;
    all other registers stay as they are. A branch that finds the flags as they were left is taken
    exactly if `z` meets its condition. After a difference, this is the case for being zero if the
    words are equal, and for a carry if the first is less. -/
theorem Decoded.execute_of_computes {config : Config} {d : Decoded} {op : Opcode} {xs : List Nat}
    {z : Int} {v : View Bus} (hpos : 0 < config.wordBits) (hle : config.wordBits ≤ 64)
    (hop : d.operation = .code op) (hz : op.Computes xs z)
    (hreads : d.Reads v.core op.firstRead xs) (hxs : ∀ x ∈ xs, x < Nat.pow 2 config.wordBits)
    (ht : op ≠ .cmp → ∃ t, d.destination 1 = .ok t ∧ t < v.core.registers.size) :
    ∃ flags registers,
      d.execute config v =
        ({ v with core := { v.core with ip := v.core.ip + 1, flags, registers } }, .executed) ∧
      (∀ j : Nat, registers[j]? =
        if op ≠ .cmp ∧ d.destination 1 = .ok j ∧ j ≠ 0 then
          some (z % Nat.pow 2 config.wordBits).toNat
        else v.core.registers[j]?) ∧
      (∀ (w : View Bus) (branch : Decoded) (b : Opcode), w.core.flags = flags →
        branch.operation = .code b → b.readsFlags = true →
        (b.meets config.wordBits z = true →
          ∀ a, branch.value w.core 1 = .ok a → branch.execute config w = w.goTo a) ∧
        (b.meets config.wordBits z = false → branch.execute config w = w.advance)) ∧
      ∀ a b, op = .sub ∨ op = .cmp → xs = [a, b] →
        (Opcode.brz.meets config.wordBits z = true ↔ a = b) ∧
        (Opcode.brc.meets config.wordBits z = true ↔ a < b) := by
  have hlimit : Nat.pow 2 config.wordBits ≤ Word.limit := Nat.pow_le_pow_right (by decide) hle
  have hsmall (x : Nat) (hx : x ∈ xs) : x < Word.limit := Nat.lt_of_lt_of_le (hxs x hx) hlimit
  obtain ⟨hlow, hhigh⟩ := hz.bounds hsmall
  obtain ⟨registers, hx, hregisters⟩ := exists_registers_of_computes hle hop hz hreads hsmall ht
  refine ⟨_, registers, hx, hregisters, fun w branch b hf hb hflags =>
    execute_of_flags hpos hle hlow hhigh hf hb hflags, ?_⟩
  rintro a b (rfl | rfl) rfl <;>
  · cases hz
    exact Opcode.meets_sub (hxs a (by simp)) (hxs b (by simp))

/-- 5 less 7 in words of 4 bits is 14, which looks negative, and the carry says that 5 is less. -/
theorem Decoded.execute_of_computes_borrowing :
    let config : Config := { wordBits := 4 }
    let v : View QueueBus := { core := { registers := #[0, 5, 0] }, ram := #[], bus := {} }
    let d : Decoded := { operation := .code .sub, slots := [.register 2, .register 1, .value 7] }
    Opcode.sub.Computes [5, 7] (-2) ∧ d.Reads v.core 2 [5, 7] ∧
      Opcode.brz.meets 4 (-2) = false ∧ Opcode.brc.meets 4 (-2) = true ∧
      Opcode.brn.meets 4 (-2) = true ∧
      ∃ flags registers,
        d.execute config v =
          ({ v with core := { v.core with ip := 1, flags, registers } }, .executed) ∧
        registers[2]? = some 14 ∧
        ∀ (w : View QueueBus) (branch : Decoded) (a : Nat), w.core.flags = flags →
          branch.operation = .code .brc → branch.value w.core 1 = .ok a →
          branch.execute config w = w.goTo a := by
  intro config v d
  have hz : Opcode.sub.Computes [5, 7] (-2) := .sub 5 7
  have hreads : d.Reads v.core 2 [5, 7] := ⟨rfl, rfl, trivial⟩
  obtain ⟨flags, registers, hx, hregisters, hbranch, -⟩ :=
    execute_of_computes (d := d) (v := v) (by decide) (by decide : config.wordBits ≤ 64) rfl hz
      hreads (by decide) fun _ => ⟨2, rfl, by decide⟩
  refine ⟨hz, hreads, by decide, by decide, by decide, flags, registers, hx, ?_, ?_⟩
  · exact (hregisters 2).trans (if_pos ⟨by decide, rfl, by decide⟩)
  · intro w branch a hf hop ha
    exact (hbranch w branch .brc hf hop rfl).1 (by decide) a ha

/-! ## The carry of a shift -/

namespace Arithmetic

/-- Whether the carry tells that a word shifted up is a word no more: its exact result is none, and
    something of it is left in the bits of a result. -/
def TellsCarry (bits x count : Nat) : Prop :=
  Nat.pow 2 bits ≤ x * Nat.pow 2 count ∧ ¬resultCount ∣ x * Nat.pow 2 count

/-- What is left of an exact result exceeds the word exactly if the carry tells so. -/
theorem le_mod_resultCount_iff {bits x : Nat} (hle : bits ≤ Word.maxBits) (hx : x < Nat.pow 2 bits)
    (count : Nat) :
    Nat.pow 2 bits ≤ x * Nat.pow 2 count % resultCount ↔ TellsCarry bits x count := by
  have hpos : 0 < Nat.pow 2 bits := Nat.two_pow_pos bits
  constructor
  · intro h
    refine ⟨Nat.le_trans h (Nat.mod_le _ _), fun hdvd => ?_⟩
    rw [Nat.mod_eq_zero_of_dvd hdvd] at h
    omega
  · rintro ⟨hover, hleft⟩
    by_cases hcount : count < bits
    · -- a short shift keeps all bits
      have hlt : x * Nat.pow 2 count < resultCount :=
        calc x * Nat.pow 2 count < Nat.pow 2 bits * Nat.pow 2 bits :=
              Nat.mul_lt_mul'' hx (Nat.pow_lt_pow_right (by decide) hcount)
          _ = Nat.pow 2 (bits + bits) := (Nat.pow_add 2 bits bits).symm
          _ ≤ resultCount := Nat.pow_le_pow_right (by decide) (Nat.add_le_add hle hle)
      rwa [Nat.mod_eq_of_lt hlt]
    · -- what a longer one leaves is a multiple of a number that is no word
      have hshort : count ≤ resultBits := by
        refine Nat.le_of_not_lt fun hlong => hleft (Nat.dvd_mul_left_of_dvd ?_ x)
        exact Nat.pow_dvd_pow 2 (Nat.le_of_lt hlong)
      have hdvd : Nat.pow 2 count ∣ x * Nat.pow 2 count % resultCount :=
        (Nat.dvd_mod_iff (Nat.pow_dvd_pow 2 hshort)).2 (Nat.dvd_mul_left _ x)
      have hrest : 0 < x * Nat.pow 2 count % resultCount :=
        Nat.pos_of_ne_zero fun h => hleft (Nat.dvd_of_mod_eq_zero h)
      calc Nat.pow 2 bits ≤ Nat.pow 2 count :=
            Nat.pow_le_pow_right (by decide) (Nat.le_of_not_lt hcount)
        _ ≤ x * Nat.pow 2 count % resultCount := Nat.le_of_dvd hrest hdvd

end Arithmetic

omit [PortBus Bus] in
/-- A shift up computes what is left of its exact result in the bits of a result. -/
theorem Decoded.effectOf_shiftLeft {config : Config} {d : Decoded} {v : View Bus} {x n t : Nat}
    (hreads : d.Reads v.core 2 [x, n]) (hd : d.destination 1 = .ok t) :
    d.effectOf config v.ram v.core .bsl =
      .ok (.compute (.ok t) (x * Nat.pow 2 n % Arithmetic.resultCount)) := by
  rw [← Arithmetic.shiftLeft_eq, ← hd]
  exact binary_of_value hreads.1 hreads.2.1 _

/-- A branch is taken exactly if a condition holds: it goes to its target, and otherwise to the
    next instruction. -/
def Decoded.TakenIff (config : Config) (branch : Decoded) (w : View Bus) (condition : Prop) :
    Prop :=
  (condition → ∀ a, branch.value w.core 1 = .ok a → branch.execute config w = w.goTo a) ∧
    (¬condition → branch.execute config w = w.advance)

/-- What the two branches on the carry make of a result in the flags. -/
theorem Decoded.takenIff_of_flags {config : Config} {branch : Decoded} {w : View Bus} {result : Nat}
    (hpos : 0 < config.wordBits) (hle : config.wordBits ≤ Word.maxBits)
    (hresult : result < Arithmetic.resultCount) (hf : w.core.flags = result) :
    (branch.operation = .code .brc →
      branch.TakenIff config w (Nat.pow 2 config.wordBits ≤ result)) ∧
    (branch.operation = .code .bnc →
      branch.TakenIff config w ¬Nat.pow 2 config.wordBits ≤ result) := by
  have hlimit : 0 < Word.limit := Nat.two_pow_pos _
  have hcarry : (result : Int) < 0 ∨ (Nat.pow 2 config.wordBits : Int) ≤ result ↔
      Nat.pow 2 config.wordBits ≤ result := by omega
  have hbranch {b : Opcode} {condition : Prop} (hb : branch.operation = .code b)
      (hreads : b.readsFlags = true)
      (hmeets : b.meets config.wordBits result = true ↔ condition) :
      branch.TakenIff config w condition := by
    rw [TakenIff, ← hmeets, Bool.not_eq_true]
    refine execute_of_flags hpos hle (by omega) (Int.ofNat_lt.2 hresult) ?_ hb hreads
    rw [hf, Arithmetic.wrap_of_lt hresult]
  refine ⟨fun hb => hbranch hb rfl ?_, fun hb => hbranch hb rfl ?_⟩ <;>
  · simp only [Opcode.meets, decide_eq_true_iff, hcarry]

/-- A shift up by any count puts its exact result modulo the number of words into the register
    that it names. A branch on the carry that finds the flags as they were left takes the exact
    result for no word exactly if it is none, unless nothing of it is left in 128 bits: then all
    of the overflow is lost, and the carry is not set. -/
theorem Decoded.carry_of_shiftLeft {config : Config} {d : Decoded} {x n : Nat} {v : View Bus}
    (hpos : 0 < config.wordBits) (hle : config.wordBits ≤ 64) (hop : d.operation = .code .bsl)
    (hreads : d.Reads v.core 2 [x, n]) (hx : x ≤ config.mask)
    (ht : ∃ t, d.destination 1 = .ok t ∧ t < v.core.registers.size) :
    ∃ flags registers,
      d.execute config v =
        ({ v with core := { v.core with ip := v.core.ip + 1, flags, registers } }, .executed) ∧
      (∀ j : Nat, registers[j]? =
        if d.destination 1 = .ok j ∧ j ≠ 0 then
          some (x * Nat.pow 2 n % Nat.pow 2 config.wordBits)
        else v.core.registers[j]?) ∧
      ∀ (w : View Bus) (branch : Decoded), w.core.flags = flags →
        (branch.operation = .code .brc →
          branch.TakenIff config w (Arithmetic.TellsCarry config.wordBits x n)) ∧
        (branch.operation = .code .bnc →
          branch.TakenIff config w ¬Arithmetic.TellsCarry config.wordBits x n) := by
  obtain ⟨t, hd, hlt⟩ := ht
  have hmask := Config.mask_add_one_of_le hle
  have hword : x < Nat.pow 2 config.wordBits := by omega
  obtain ⟨registers, hexecute, hregisters⟩ :=
    exists_registers_of_compute hop (effectOf_shiftLeft hreads hd) hlt
  refine ⟨_, registers, hexecute, fun j => ?_, fun w branch hf => ?_⟩
  · have hdestination : d.destination 1 = .ok j ↔ j = t := by
      rw [hd, Except.ok.injEq, eq_comm]
    rw [hregisters j, Config.and_mask, Nat.mod_mod_of_dvd _ config.dvd_resultCount, hmask]
    exact if_congr (by rw [hdestination]) rfl rfl
  · rw [← Arithmetic.le_mod_resultCount_iff hle hword]
    exact takenIff_of_flags hpos hle (Nat.mod_lt _ (Nat.two_pow_pos _)) hf

/-- 3 shifted up by 127 in words of 8 bits leaves one bit above the word, and the carry is set. -/
theorem Decoded.carry_of_shiftLeft_far :
    let config : Config := { wordBits := 8 }
    let v : View QueueBus := { core := { registers := #[0, 3] }, ram := #[], bus := {} }
    let d : Decoded :=
      { operation := .code .bsl, slots := [.register 1, .register 1, .value 127] }
    let branch : Decoded := { operation := .code .brc, slots := [.value 5] }
    d.Reads v.core 2 [3, 127] ∧ 3 ≤ config.mask ∧ Arithmetic.TellsCarry 8 3 127 ∧
      (d.execute config v).1.core.registers[1]? = some 0 ∧
      branch.execute config (d.execute config v).1 = (d.execute config v).1.goTo 5 := by
  intro config v d branch
  have hreads : d.Reads v.core 2 [3, 127] := ⟨rfl, rfl, trivial⟩
  have hcarry : Arithmetic.TellsCarry 8 3 127 := by
    unfold Arithmetic.TellsCarry
    decide +kernel
  obtain ⟨flags, registers, hx, hregisters, hbranch⟩ :=
    carry_of_shiftLeft (by decide) (by decide : config.wordBits ≤ 64) rfl hreads (by decide)
      ⟨1, rfl, by decide⟩
  refine ⟨hreads, by decide, hcarry, ?_, ?_⟩ <;> rw [hx]
  · have hwritten : d.destination 1 = .ok 1 ∧ 1 ≠ 0 := ⟨rfl, by decide⟩
    exact ((hregisters 1).trans (if_pos hwritten)).trans (by decide +kernel)
  · exact ((hbranch _ branch rfl).1 rfl).1 hcarry 5 rfl

/-- 2 shifted up by 127 is no word of 8 bits either, but all of it is lost: the branch on the carry
    goes on to the next instruction. -/
theorem Decoded.carry_lost_by_shift :
    let config : Config := { wordBits := 8 }
    let v : View QueueBus := { core := { registers := #[0, 2] }, ram := #[], bus := {} }
    let d : Decoded :=
      { operation := .code .bsl, slots := [.register 1, .register 1, .value 127] }
    let branch : Decoded := { operation := .code .brc, slots := [.value 5] }
    d.Reads v.core 2 [2, 127] ∧ 2 ≤ config.mask ∧ 127 ≤ config.mask ∧
      Nat.pow 2 8 ≤ 2 * Nat.pow 2 127 ∧ (d.execute config v).2 = .executed ∧
      branch.execute config (d.execute config v).1 = (d.execute config v).1.advance ∧
      branch.execute config (d.execute config v).1 ≠ (d.execute config v).1.goTo 5 := by
  intro config v d branch
  have hreads : d.Reads v.core 2 [2, 127] := ⟨rfl, rfl, trivial⟩
  exact ⟨hreads, by decide +kernel⟩

end Wordcode
