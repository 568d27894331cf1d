import Wordcode.Proofs.Lowering.Idempotence

/-!
# The registers of a lowered program

Lowering a well-formed program can fail for one reason only: there is no register left. It needs
one for the scratch register, and the registers that the lowered program names must be fewer than
there are indices, so that they can be counted. The second can fail where the first does not only
if the scratch register is the very last one, and something is expanded that uses it.

Besides the scratch register, expansions borrow registers from register 1 on, and have to pass
over no more than what the instruction names. So they never get beyond register 7.

* `IsHighest`: the greatest number with a property;
* `Expansion.namesBelow_of_expand`: the registers that expansions name;
* `Expansion.exists_scratch_mem`: the expansions that name the scratch register;
* `Lowering.registers_of_lower`: when lowering fails, and how many registers it needs otherwise.
-/

namespace Wordcode

open Instruction

/-! ## Highest registers -/

/-- The greatest number with a property, or 0 if no number has it. -/
structure IsHighest (p : Nat → Prop) (highest : Nat) : Prop where
  le : ∀ j, p j → j ≤ highest
  mem : p highest ∨ highest = 0

namespace IsHighest

variable {p q : Nat → Prop} {a b : Nat}

theorem unique (h : IsHighest p a) (h' : IsHighest p b) : a = b := by
  have hle {a b : Nat} (h : IsHighest p a) (h' : IsHighest p b) : a ≤ b := by
    rcases h.mem with hm | rfl
    · exact h'.le a hm
    · exact Nat.zero_le b
  exact Nat.le_antisymm (hle h h') (hle h' h)

theorem or (h : IsHighest p a) (h' : IsHighest q b) : IsHighest (fun j => p j ∨ q j) (max a b) where
  le j hj := by
    rcases hj with hj | hj
    · exact Nat.le_trans (h.le j hj) (Nat.le_max_left a b)
    · exact Nat.le_trans (h'.le j hj) (Nat.le_max_right a b)
  mem := by
    rcases Nat.le_total a b with hab | hab
    · rw [Nat.max_eq_right hab]
      exact h'.mem.imp_left .inr
    · rw [Nat.max_eq_left hab]
      exact h.mem.imp_left .inl

theorem congr (h : IsHighest p a) (hpq : ∀ j, p j ↔ q j) : IsHighest q a :=
  ⟨fun j hj => h.le j ((hpq j).2 hj), h.mem.imp_left (hpq a).1⟩

end IsHighest

theorem isHighest_foldl_max (xs : List Nat) : IsHighest (· ∈ xs) (xs.foldl max 0) where
  le _ hj := Lowering.le_foldl_max hj 0
  mem := by
    rcases xs with _ | ⟨x, rest⟩
    · exact .inr rfl
    · rw [List.foldl_max_eq_max (List.cons_ne_nil x rest), Nat.zero_max]
      exact .inl (List.max_mem _)

namespace Instruction

/-- A register that a stream names. -/
def Named (stream : List Instruction) (j : Nat) : Prop := ∃ i ∈ stream, .register j ∈ i.operands

/-- The highest register of a stream is the highest that it names. -/
theorem isHighest_highestRegister (stream : List Instruction) :
    IsHighest (Named stream) (highestRegister stream) where
  le j := fun ⟨_, hi, hj⟩ => Lowering.le_highestRegister hi hj
  mem := by
    refine (isHighest_foldl_max (stream.filterMap highestRegister?)).mem.imp_left fun h => ?_
    obtain ⟨i, hi, hh⟩ := List.mem_filterMap.1 h
    obtain ⟨x, hx, hr⟩ := List.mem_filterMap.1 (List.max?_eq_some_iff.1 hh).1
    cases x with
    | register j =>
      cases hr
      exact ⟨i, hi, hx⟩
    | immediate | label => cases hr

end Instruction

namespace Lowering

theorem isHighest_declared (stream : List Instruction) :
    IsHighest (fun j => .note (.maxReg j) ∈ stream) (declared stream) :=
  (isHighest_foldl_max _).congr fun _ => mem_filterMap_declared?

end Lowering

/-! ## Registers below a bound -/

/-- Whether an operand is no register, or one of the first `count`. -/
def Operand.Below (count : Nat) : Operand → Prop
  | .register j => j < count
  | _ => True

namespace Instruction

variable {count : Nat} {xs ys : List Instruction}

@[simp] theorem namesBelow_nil : NamesBelow count [] := fun _ hi => absurd hi List.not_mem_nil

@[simp] theorem namesBelow_code_cons {op : Opcode} {operands : List Operand} :
    NamesBelow count (.code op operands :: xs) ↔
      (∀ x ∈ operands, x.Below count) ∧ NamesBelow count xs := by
  rw [NamesBelow, List.forall_mem_cons]
  refine and_congr_left fun _ => ⟨fun h x hx => ?_, fun h j hj => h _ hj⟩
  cases x with
  | register j => exact h j hx
  | immediate | label => trivial

@[simp] theorem namesBelow_note_cons {n : Note} :
    NamesBelow count (.note n :: xs) ↔ NamesBelow count xs := by
  rw [NamesBelow, List.forall_mem_cons]
  refine and_iff_right fun j hj => ?_
  cases n <;> simp [operands, Note.operands] at hj

@[simp] theorem namesBelow_append :
    NamesBelow count (xs ++ ys) ↔ NamesBelow count xs ∧ NamesBelow count ys :=
  List.forall_mem_append

theorem NamesBelow.mono (h : NamesBelow count ys) (hsub : xs ⊆ ys) : NamesBelow count xs :=
  fun i hi => h i (hsub hi)

theorem namesBelow_map_note {α : Type} (f : α → Note) (as : List α) :
    NamesBelow count (as.map fun a => .note (f a)) := by
  induction as with
  | nil => exact namesBelow_nil
  | cons a as ih => exact namesBelow_note_cons.2 ih

end Instruction

/-! ## Registers of expansions -/

namespace Expansion

variable {context : Context} {first count : Nat} {d x y : Operand} {expansion : Expansion}

/-- Borrowed registers are found as early as possible. -/
theorem le_of_mem_borrow {avoid : List Nat} {n j : Nat} (h : j ∈ borrow avoid n) :
    j ≤ avoid.length + n := by
  have := List.mem_range'_1.1 (List.mem_filter.1 (List.mem_of_mem_take h)).1
  omega

/-- A divisor that takes a register to hold it is none that has to be avoided. -/
theorem length_avoided_add_le (context : Context) (d x y : Operand) :
    (avoided context [d, x, y]).length + divisorCount y ≤ 4 := by
  have hy : ([y].filterMap Operand.register?).length + divisorCount y = 1 := by
    cases y <;> rfl
  have hdx : ([d, x].filterMap Operand.register?).length ≤ 2 := List.length_filterMap_le _ _
  rw [avoided, show [d, x, y] = [d, x] ++ [y] from rfl, List.filterMap_append, List.length_cons,
    List.length_append]
  omega

@[simp] theorem namesBelow_save {registers : List Nat} :
    NamesBelow count (save registers) ↔ ∀ j ∈ registers, j < count := by
  simp [NamesBelow, save, operands]

@[simp] theorem namesBelow_restore {registers : List Nat} :
    NamesBelow count (restore registers) ↔ ∀ j ∈ registers, j < count := by
  simp [NamesBelow, restore, operands]

@[simp] theorem namesBelow_announce (n : Nat) : NamesBelow count (announce first n) :=
  namesBelow_map_note _ _

@[simp] theorem namesBelow_copy_cons {t : Nat} {rest : List Instruction} :
    NamesBelow count (copy t x :: rest) ↔ t < count ∧ x.Below count ∧ NamesBelow count rest := by
  cases x <;> simp [copy, Operand.Below, and_assoc]

@[simp] theorem namesBelow_zeroTrap {divisor go done : Nat} :
    NamesBelow count (zeroTrap divisor go done) ↔ divisor < count := by
  simp [zeroTrap, compareZero, jump, Operand.Below]

/-- No arithmetic borrows more registers than a division does, and these are below register 8. -/
theorem lt_of_mem_borrow_avoided {n j : Nat} (hcount : 8 ≤ count) (hn : n ≤ 3 + divisorCount y)
    (hj : j ∈ borrow (avoided context [d, x, y]) n) : j < count := by
  have hle := le_of_mem_borrow hj
  have hlength := length_avoided_add_le context d x y
  omega

/-- A divisor is held by its own register or by the one that is borrowed for it. -/
theorem namesBelow_divisor {spare : List Nat} {index : Nat} {load : List Instruction}
    (h : divisor spare y = some (index, load)) (hy : y.Below count)
    (hspare : ∀ j ∈ spare, j < count) : index < count ∧ NamesBelow count load := by
  unfold divisor at h
  split at h
  · cases h
    exact ⟨hy, namesBelow_nil⟩
  · split at h
    · cases h
      have hj := hspare _ List.mem_cons_self
      exact ⟨hj, namesBelow_copy_cons.2 ⟨hj, hy, namesBelow_nil⟩⟩
    · cases h

section Arithmetic

variable (hgiven : ∀ o ∈ [d, x, y], o.Below count) (hscratch : context.scratch < count)
  (hcount : 8 ≤ count)

include hgiven hscratch hcount

theorem namesBelow_multiply (h : multiply context first d x y = some expansion) :
    NamesBelow count expansion.body := by
  have hpos : 0 < count := by omega
  unfold multiply at h
  split at h
  · next multiplier multiplicand hb =>
    have hborrow (j : Nat) (hj : j ∈ [multiplier, multiplicand]) : j < count :=
      lt_of_mem_borrow_avoided hcount (by omega) (hb ▸ hj)
    cases h
    simp_all [clear, mark, compareZero, jump, combine, onto, deliver, Operand.Below, Operand.zero]
  · cases h

theorem namesBelow_divide (h : divide context first d x y = some expansion) :
    NamesBelow count expansion.body := by
  have hpos : 0 < count := by omega
  unfold divide at h
  split at h
  · next dividend remainder quotient spare hb =>
    obtain ⟨⟨index, load⟩, hd, h⟩ := Option.bind_eq_some_iff.1 h
    have hborrow (j : Nat) (hj : j ∈ dividend :: remainder :: quotient :: spare) : j < count :=
      lt_of_mem_borrow_avoided hcount (Nat.le_refl _) (hb ▸ hj)
    obtain ⟨hindex, hload⟩ := namesBelow_divisor hd (hgiven y (by simp)) fun j hj =>
      hborrow j (by simp [hj])
    cases h
    simp_all [clear, mark, jump, combine, onto, deliver, Operand.Below, Operand.zero]
  · cases h

theorem namesBelow_modulo (h : modulo context first d x y = some expansion) :
    NamesBelow count expansion.body := by
  have hpos : 0 < count := by omega
  unfold modulo at h
  obtain ⟨⟨index, load⟩, hd, h⟩ := Option.bind_eq_some_iff.1 h
  have hborrow (j : Nat) (hj : j ∈ borrow (avoided context [d, x, y]) (divisorCount y)) :
      j < count :=
    lt_of_mem_borrow_avoided hcount (by omega) hj
  obtain ⟨hindex, hload⟩ := namesBelow_divisor hd (hgiven y (by simp)) hborrow
  cases h
  simp_all [mark, jump, combine, deliver, Operand.Below, Operand.zero]

theorem namesBelow_shiftBy {shift : Opcode}
    (h : shiftBy shift context first d x y = some expansion) : NamesBelow count expansion.body := by
  have hpos : 0 < count := by omega
  unfold shiftBy at h
  split at h
  · next index hb =>
    have hmem : index ∈ borrow (avoided context [d, x, y]) 1 := by simp [hb]
    have hindex := lt_of_mem_borrow_avoided hcount (by omega) hmem
    cases h
    simp_all [mark, compareZero, jump, onto, deliver, Operand.Below, Operand.zero]
  · cases h

end Arithmetic

end Expansion

/-- An instruction for every target that the peephole pass never takes away. -/
inductive Instruction.Lasting : Instruction → Prop
  | intro {op : Opcode} {operands : List Operand} : op.tier = .core →
      op ≠ .imm ∧ op ≠ .psh ∧ op ≠ .pop → Lasting (.code op operands)

/-- Whether the expansion of an instruction uses the scratch register. -/
def Opcode.usesScratch : Opcode → Bool
  | .mlt | .div | .mod | .bsl | .bsr | .ret => true
  | _ => false

namespace Expansion

variable {context : Context} {op : Opcode} {operands : List Operand} {first count : Nat}
  {expansion : Expansion}

/-- An expansion names the registers of its instruction and, if it uses the scratch register, this
    one and those that it borrows, which are below register 8. -/
theorem namesBelow_of_expand (h : expand? context first op operands = some expansion)
    (hgiven : ∀ x ∈ operands, x.Below count)
    (hscratch : op.usesScratch = true → context.scratch < count ∧ 8 ≤ count) :
    NamesBelow count expansion.body := by
  unfold expand? at h
  split at h
  · exact namesBelow_multiply hgiven (hscratch rfl).1 (hscratch rfl).2 h
  · exact namesBelow_divide hgiven (hscratch rfl).1 (hscratch rfl).2 h
  · exact namesBelow_modulo hgiven (hscratch rfl).1 (hscratch rfl).2 h
  · exact namesBelow_shiftBy hgiven (hscratch rfl).1 (hscratch rfl).2 h
  · exact namesBelow_shiftBy hgiven (hscratch rfl).1 (hscratch rfl).2 h
  · cases h
    simpa [call, jump, mark, Operand.Below] using hgiven _ List.mem_cons_self
  · cases h
    simpa [comeBack, Operand.Below] using (hscratch rfl).1
  · cases h
    simp [breakpoint]
  · cases h
    simp [doubleWord, NamesBelow, Instruction.operands]
  · cases h
    simp [quadWord, Operand.Below]
  · cases h

/-- An expansion that uses the scratch register names it in an instruction that lasts. -/
theorem exists_scratch_mem (h : expand? context first op operands = some expansion)
    (hop : op.usesScratch = true) :
    ∃ i ∈ expansion.body, i.Lasting ∧ .register context.scratch ∈ i.operands := by
  have hdeliver {d : Operand} (hd : deliver d context.scratch ∈ expansion.body) :
      ∃ i ∈ expansion.body, i.Lasting ∧ .register context.scratch ∈ i.operands :=
    ⟨_, hd, ⟨rfl, by decide⟩, by simp [deliver, Instruction.operands]⟩
  have hshift {shift : Opcode} {d x n : Operand}
      (h : shiftBy shift context first d x n = some expansion) :
      deliver d context.scratch ∈ expansion.body := by
    unfold shiftBy at h
    split at h
    · cases h
      simp
    · cases h
  unfold expand? at h
  split at h
  · next d x y =>
    refine hdeliver (d := d) ?_
    unfold multiply at h
    split at h
    · cases h
      simp
    · cases h
  · unfold divide at h
    split at h
    · obtain ⟨⟨index, load⟩, -, h⟩ := Option.bind_eq_some_iff.1 h
      cases h
      -- the quotient is delivered from another register, but rounds are counted in this one
      exact ⟨onto .dec context.scratch, by simp, ⟨rfl, by decide⟩, List.mem_cons_self⟩
    · cases h
  · next d x y =>
    refine hdeliver (d := d) ?_
    unfold modulo at h
    obtain ⟨⟨index, load⟩, -, h⟩ := Option.bind_eq_some_iff.1 h
    cases h
    simp
  · exact hdeliver (hshift h)
  · exact hdeliver (hshift h)
  · cases hop
  · cases h
    exact ⟨.code .bra [.register context.scratch], by simp [comeBack], ⟨rfl, by decide⟩,
      List.mem_cons_self⟩
  · cases hop
  · cases hop
  · cases hop
  · cases h

end Expansion

/-! ## Registers of lowered programs -/

namespace Peephole

variable {stream stream' : List Instruction} {count : Nat}

theorem Rewrites.namesBelow (h : Rewrites stream stream') (hpos : 0 < count)
    (hs : NamesBelow count stream) : NamesBelow count stream' := by
  obtain ⟨before, after, h⟩ := h
  rw [namesBelow_append, namesBelow_append] at hs ⊢
  refine ⟨hs.1, fun i hi j hj => ?_, hs.2.2⟩
  rcases h.exists_operand hi hj with hzero | ⟨i', hi', hj⟩
  · cases hzero
    exact hpos
  · exact hs.2.1 i' hi' j hj

/-- The peephole pass names no register but those that were named, and register 0. -/
theorem namesBelow_apply (settings : Peephole) (hpos : 0 < count) (hs : NamesBelow count stream) :
    NamesBelow count (settings.apply stream) :=
  settings.keeps_apply (fun h => h.namesBelow hpos) hs

/-- The peephole pass leaves an instruction that lasts. -/
theorem mem_apply_of_lasting (settings : Peephole) {i : Instruction} (hl : i.Lasting)
    (hi : i ∈ stream) : i ∈ settings.apply stream := by
  obtain ⟨-, hop⟩ := hl
  exact settings.keeps_apply (fun h => h.code_mem hop) hi

end Peephole

namespace Lowering

variable {target : Tier} {context : Expansion.Context} {first count : Nat} {i : Instruction}

theorem namesBelow_residue (op : Opcode) (operands : List Operand) :
    NamesBelow count (residue op operands) := by
  unfold residue
  split <;> simp

/-- No part of an expansion is expanded to something that uses the scratch register. -/
theorem usesScratch_of_part {op op' : Opcode} {given operands : List Operand} {labels : Nat}
    (h : Expansion.Part op given first labels (.code op' operands)) : op'.usesScratch = false := by
  have hfits : fits .core (.code op' operands) = true ∨ _ := fits_of_part h
  rcases hfits with hf | ⟨he, -⟩ | ⟨⟨n, he⟩, -⟩
  · cases op' <;> first | rfl | cases hf
  · cases he
    rfl
  · cases he
    rfl

theorem namesBelow_sequence {f : Nat → Instruction → List Instruction × Nat}
    {stream : List Instruction} (h : ∀ i ∈ stream, ∀ n, NamesBelow count (f n i).1) :
    NamesBelow count (sequence f first stream).1 := by
  intro j hj
  obtain ⟨i, hi, n, hj⟩ := exists_of_mem_sequence hj
  exact h i hi n j hj

/-- By induction on the lowerings that are part of this one. -/
theorem namesBelow_instruction (hi : NamesBelow count [i])
    (hs : ∀ op operands, i = .code op operands → op.usesScratch = true → target < op.tier →
      context.scratch < count ∧ 8 ≤ count) :
    NamesBelow count (instruction target context first i).1 := by
  induction i using (wellFounded_nested target context).induction generalizing first with
  | _ i ih =>
    cases hf : fits target i with
    | true =>
      rw [instruction_of_fits hf]
      exact hi
    | false =>
      rcases i with ⟨op, operands⟩ | n
      · cases he : Expansion.expand? context first op operands with
        | none =>
          rw [instruction_of_none hf he]
          exact namesBelow_residue op operands
        | some expansion =>
          have hbody := Expansion.namesBelow_of_expand he (namesBelow_code_cons.1 hi).1
            fun hop => hs op operands rfl hop (lt_tier_of_fits hf)
          rw [instruction_eq_sequence hf he]
          refine namesBelow_note_cons.2 (namesBelow_sequence fun i hmem n =>
            ih i (.intro hf he hmem) (hbody.mono (by simpa using hmem)) ?_)
          -- what stands in an expansion has no use for the scratch register when it is expanded
          rintro op' operands' rfl hop' -
          rw [usesScratch_of_part (Expansion.part_of_expand he _ hmem)] at hop'
          cases hop'
      · cases hf

/-- Every instruction that has an expansion is expanded, whatever it works on, and everything in
    the expansion can be built and is well-formed in turn. -/
theorem exists_expand_build {op : Opcode} {operands : List Operand}
    (hw : (code op operands).WellFormed) (hd : 0 < op.depth) (context : Expansion.Context)
    (first : Nat) :
    ∃ expansion, Expansion.expand? context first op operands = some expansion ∧
      ∀ op' operands', .code op' operands' ∈ expansion.body →
        build (.code op') operands' = .ok (.code op' operands') := by
  have hne : op.tier ≠ .core ∧ op ≠ .nop ∧ op ≠ .inp ∧ op ≠ .out := by
    cases op <;> first | decide | cases hd
  obtain ⟨expansion, he⟩ := exists_expand_of_wellFormed context first hw hne.1 hne.2
  exact ⟨expansion, he, fun op' operands' hi => build_code_eq_ok_iff.2
    ⟨rfl, (Expansion.part_of_expand he _ hi).wellFormed hw⟩⟩

/-- What uses the scratch register names it when it is lowered. -/
theorem exists_scratch_mem_instruction (context : Expansion.Context) (first : Nat) {op : Opcode}
    {operands : List Operand} (hw : (code op operands).WellFormed) (hop : op.usesScratch = true)
    (ht : target < op.tier) :
    ∃ j ∈ (instruction target context first (.code op operands)).1,
      j.Lasting ∧ .register context.scratch ∈ j.operands := by
  have hdepth : 0 < op.depth := by
    cases op <;> first | decide | cases hop
  obtain ⟨expansion, he, -⟩ := exists_expand_build hw hdepth context first
  obtain ⟨i, hi, hl, hj⟩ := Expansion.exists_scratch_mem he hop
  have hfits : fits target i = true := by
    obtain ⟨hcore, -⟩ := hl
    exact fits_of_tier hcore _
  obtain ⟨n, hn⟩ := exists_subset_sequence (f := instruction target context) hi
    (first + expansion.labels)
  rw [instruction_of_fits hfits] at hn
  rw [instruction_eq_sequence (fits_of_lt_tier ht operands) he]
  exact ⟨i, List.mem_cons_of_mem _ (hn List.mem_cons_self), hl, hj⟩

section Lower

variable {config : Config} {settings : Peephole} {program : Program}

/-- A register that a stream names, or states that it needs. -/
def Mentioned (stream : List Instruction) (j : Nat) : Prop :=
  Named stream j ∨ .note (.maxReg j) ∈ stream

theorem isHighest_mentioned (program : Program) :
    IsHighest (Mentioned program.instructions)
      (max program.highestRegister (declared program.instructions)) :=
  (isHighest_highestRegister _).or (isHighest_declared _)

/-- The highest register that a lowered program names, or that the program states. -/
def needed (config : Config) (settings : Peephole) (program : Program) : Nat :=
  max (highestRegister (settings.apply (expanded config program).instructions))
    (declared program.instructions)

/-- A bound on the registers that a program names or states is one on those that it needs when it
    is lowered, if the scratch register and the borrowed ones are within it or not used. -/
theorem needed_lt {count : Nat} (hnames : NamesBelow count program.instructions)
    (hdeclared : declared program.instructions < count)
    (hs : ∀ op operands, .code op operands ∈ program.instructions → op.usesScratch = true →
      config.maxTier < op.tier → scratch program < count ∧ 8 ≤ count) :
    needed config settings program < count := by
  have hexpanded : NamesBelow count (expanded config program).instructions := by
    refine namesBelow_sequence fun i hi n => ?_
    exact namesBelow_instruction (hnames.mono (by simpa using hi)) fun op operands he =>
      hs op operands (he ▸ hi)
  have hpos : 0 < count := Nat.zero_lt_of_lt hdeclared
  refine Nat.max_lt.2 ⟨?_, hdeclared⟩
  have hhighest :=
    isHighest_highestRegister (settings.apply (expanded config program).instructions)
  rcases hhighest.mem with ⟨i, hi, hj⟩ | h0
  · exact Peephole.namesBelow_apply settings hpos hexpanded i hi _ hj
  · exact h0 ▸ hpos

/-- If the scratch register is used, it is needed. -/
theorem scratch_le_needed (settings : Peephole) {op : Opcode} {operands : List Operand}
    (hw : (code op operands).WellFormed) (hi : .code op operands ∈ program.instructions)
    (hop : op.usesScratch = true) (ht : config.maxTier < op.tier) :
    scratch program ≤ needed config settings program := by
  obtain ⟨n, hn⟩ := exists_subset_sequence
    (f := instruction config.maxTier ⟨scratch program, config.wordBits⟩) hi program.labels.nextId
  obtain ⟨j, hj, hl, hmem⟩ :=
    exists_scratch_mem_instruction ⟨scratch program, config.wordBits⟩ n hw hop ht
  exact Nat.le_trans
    (le_highestRegister (Peephole.mem_apply_of_lasting settings hl (hn hj)) hmem)
    (Nat.le_max_left _ _)

theorem next_eq_error_iff {index : Nat} {e : LoweringError} :
    next index = .error e ↔ Word.limit ≤ index + 1 ∧ e = .noScratchRegister index := by
  unfold next
  split
  · next h =>
    exact ⟨fun he => (nomatch he), fun he => absurd he.1 (by omega)⟩
  · next h => simp [Nat.le_of_not_lt h, eq_comm]

/-- Lowering fails if there is no scratch register, if an instruction cannot be expanded, or if no
    register is left after those that the lowered program needs. -/
theorem lower_eq_error_iff {e : LoweringError} : lower config settings program = .error e ↔
    Word.limit ≤ scratch program ∧ e = .noScratchRegister (scratch program - 1) ∨
      scratch program < Word.limit ∧
        (forM program.instructions (check config.maxTier) = .error e ∨
          forM program.instructions (check config.maxTier) = .ok () ∧
            Word.limit ≤ needed config settings program + 1 ∧
              e = .noScratchRegister (needed config settings program)) := by
  by_cases hs : scratch program < Word.limit
  · have hcontext : Lowering.context config program = .ok ⟨scratch program, config.wordBits⟩ :=
      bind_eq_ok_iff.2 ⟨scratch program, next_eq_ok_iff.2 ⟨rfl, hs⟩, rfl⟩
    have hlower : lower config settings program = .error e ↔
        forM program.instructions (check config.maxTier) = .error e ∨
          forM program.instructions (check config.maxTier) = .ok () ∧
            next (needed config settings program) = .error e := by
      rw [lower, hcontext]
      change forM program.instructions (check config.maxTier) >>=
        (fun _ => next (needed config settings program) >>= _) = .error e ↔ _
      rw [bind_eq_error_iff]
      refine or_congr_right ⟨fun ⟨_, hcheck, h⟩ => ⟨hcheck, ?_⟩, fun ⟨hcheck, h⟩ =>
        ⟨(), hcheck, bind_eq_error_iff.2 (.inl h)⟩⟩
      rcases bind_eq_error_iff.1 h with h | ⟨_, -, h⟩
      · exact h
      · cases h
    rw [hlower, next_eq_error_iff]
    simp only [hs, Nat.not_le_of_lt hs, false_and, false_or, true_and]
  · have hle : Word.limit ≤ scratch program := Nat.le_of_not_lt hs
    have hnext : next (max program.highestRegister (declared program.instructions)) =
        .error (.noScratchRegister (scratch program - 1)) :=
      next_eq_error_iff.2 ⟨hle, rfl⟩
    rw [lower, Lowering.context, hnext]
    simp only [hs, hle, true_and, false_and, or_false]
    exact ⟨fun h => by cases h; rfl, fun h => by rw [h]; rfl⟩

/-- Lowering a well-formed program fails only if there is no register left, which it may find
    before it expands anything, or at the end. -/
theorem lower_eq_error_iff_of_wellFormed (hw : ∀ i ∈ program.instructions, i.WellFormed)
    {e : LoweringError} : lower config settings program = .error e ↔
      Word.limit ≤ scratch program ∧ e = .noScratchRegister (scratch program - 1) ∨
        scratch program < Word.limit ∧ Word.limit ≤ needed config settings program + 1 ∧
          e = .noScratchRegister (needed config settings program) := by
  have hcheck : forM program.instructions (check config.maxTier) = .ok () :=
    forM_eq_ok_iff.2 fun i hi => check_of_wellFormed (hw i hi)
  rw [lower_eq_error_iff, hcheck]
  simp only [reduceCtorEq, false_or, true_and]

theorem needed_lt_max (config : Config) (settings : Peephole) (program : Program) :
    needed config settings program < max (scratch program + 1) 8 := by
  have hh := isHighest_mentioned program
  refine needed_lt (fun i hi j hj => ?_) ?_ fun _ _ _ _ _ => ?_
  · have := hh.le j (.inl ⟨i, hi, hj⟩)
    rw [scratch]
    omega
  · rw [scratch]
    omega
  · omega

/-- Without the scratch register, no registers are named that were not before. -/
theorem needed_lt_scratch (settings : Peephole)
    (hs : ¬∃ op operands, .code op operands ∈ program.instructions ∧ op.usesScratch = true ∧
      config.maxTier < op.tier) : needed config settings program < scratch program := by
  have hh := isHighest_mentioned program
  refine needed_lt (fun i hi j hj => ?_) (Nat.lt_succ_of_le (Nat.le_max_right _ _))
    fun op operands hi hop ht => absurd ⟨op, operands, hi, hop, ht⟩ hs
  exact Nat.lt_succ_of_le (hh.le j (.inl ⟨i, hi, hj⟩))

/-- Let `top` be the highest register that a program names or states. Lowering fails exactly if
    this is the last register there can be, or the last but one and something is expanded that uses
    the scratch register. It always fails for want of a register after the last one, and never
    because something cannot be expanded, since every expansion can be built. Otherwise, the lowered
    program requires all registers up to the highest that it names or that the program states; it
    states this one wherever it states any; and beyond the first eight registers, it requires at
    most one after `top`. -/
theorem registers_of_lower (config : Config) (settings : Peephole) {program : Program}
    (hw : ∀ i ∈ program.instructions, i.WellFormed) {top : Nat}
    (htop : IsHighest (Mentioned program.instructions) top) (hlimit : top < Word.limit) :
    ((∃ e, lower config settings program = .error e) ↔
      top + 1 = Word.limit ∨ top + 2 = Word.limit ∧ ∃ op operands,
        .code op operands ∈ program.instructions ∧ op.usesScratch = true ∧
          config.maxTier < op.tier) ∧
    (∀ e, lower config settings program = .error e → e = .noScratchRegister (Word.limit - 1)) ∧
    (∀ op operands, (code op operands).WellFormed → 0 < op.depth → ∀ context first,
      ∃ expansion, Expansion.expand? context first op operands = some expansion ∧
        ∀ op' operands', .code op' operands' ∈ expansion.body →
          build (.code op') operands' = .ok (.code op' operands')) ∧
    ∀ lowered, lower config settings program = .ok lowered →
      ∃ highest, lowered.registersRequired = highest + 1 ∧
        IsHighest (fun j => Named lowered.program.instructions j ∨
          .note (.maxReg j) ∈ program.instructions) highest ∧
        (∀ index, .note (.maxReg index) ∈ lowered.program.instructions → index = highest) ∧
        lowered.registersRequired ≤ max (top + 2) 8 := by
  have hscratch : scratch program = top + 1 :=
    congrArg (· + 1) ((isHighest_mentioned program).unique htop)
  have hneeded := needed_lt_max config settings program
  have hsmall : 8 < Word.limit := by decide +kernel
  refine ⟨⟨?_, ?_⟩, fun e he => ?_, fun op operands hw hd => exists_expand_build hw hd,
    fun lowered hl => ?_⟩
  · rintro ⟨e, he⟩
    rcases (lower_eq_error_iff_of_wellFormed hw).1 he with ⟨hle, -⟩ | ⟨hlt, hle, -⟩
    · exact .inl (by omega)
    · refine .inr ⟨by omega, ?_⟩
      by_contra hs
      have := needed_lt_scratch settings hs
      omega
  · rintro (hlast | ⟨hlast, op, operands, hi, hop, ht⟩)
    · exact ⟨_, (lower_eq_error_iff_of_wellFormed hw).2 (.inl ⟨by omega, rfl⟩)⟩
    · have hle := scratch_le_needed settings (hw _ hi) hi hop ht
      exact ⟨_, (lower_eq_error_iff_of_wellFormed hw).2 (.inr ⟨by omega, by omega, rfl⟩)⟩
  · rcases (lower_eq_error_iff_of_wellFormed hw).1 he with ⟨hle, rfl⟩ | ⟨hlt, hle, rfl⟩
    · congr 1
      omega
    · congr 1
      omega
  · obtain ⟨highest, hhighest, hr, hi, -⟩ := exists_of_lower hl
    have houtput := (isHighest_highestRegister lowered.program.instructions).or
      (isHighest_declared program.instructions)
    rw [hi, highestRegister_map_declare, ← hi, ← hhighest] at houtput
    refine ⟨highest, hr, houtput, fun index hindex => ?_, ?_⟩
    · rw [hi] at hindex
      exact eq_of_maxReg_mem_declare hindex
    · rw [needed, ← hhighest, hscratch] at hneeded
      rw [hr]
      exact hneeded

/-- A subroutine that names the last register but one, and states less. -/
def crowding : Program where
  instructions :=
    [.note (.maxReg 3),
      .code .inc [.register (Word.limit - 2), .register 1],
      .code .ret []]

/-- Only the least tier needs a register more than there can be; the next one lowers the program. -/
theorem registers_of_lower_crowding :
    (∀ i ∈ crowding.instructions, i.WellFormed) ∧
      IsHighest (Mentioned crowding.instructions) (Word.limit - 2) ∧
      lower { maxTier := .core } .standard crowding =
        .error (.noScratchRegister (Word.limit - 1)) ∧
      ∃ lowered, lower { maxTier := .basic } .standard crowding = .ok lowered ∧
        ∃ highest, lowered.registersRequired = highest + 1 ∧
          IsHighest (fun j => Named lowered.program.instructions j ∨
            .note (.maxReg j) ∈ crowding.instructions) highest ∧
          (∀ index, .note (.maxReg index) ∈ lowered.program.instructions → index = highest) ∧
          lowered.registersRequired ≤ max (Word.limit - 2 + 2) 8 := by
  have hw : ∀ i ∈ crowding.instructions, i.WellFormed := by decide +kernel
  have htop : IsHighest (Mentioned crowding.instructions) (Word.limit - 2) := by
    have hmax : max crowding.highestRegister (declared crowding.instructions) = Word.limit - 2 := by
      decide +kernel
    exact hmax ▸ isHighest_mentioned crowding
  obtain ⟨hfails, herror, -, -⟩ :=
    registers_of_lower { maxTier := .core } .standard hw htop (by decide +kernel)
  obtain ⟨-, -, -, hok⟩ :=
    registers_of_lower { maxTier := .basic } .standard hw htop (by decide +kernel)
  obtain ⟨e, he⟩ := hfails.2 (.inr ⟨by decide +kernel, .ret, [], by decide +kernel, rfl, by decide⟩)
  have hl := lower_eq_ok_lowering
    (show (lower { maxTier := .basic } .standard crowding).isOk = true by decide +kernel)
  exact ⟨hw, htop, herror e he ▸ he, _, hl, hok _ hl⟩

end Lower

end Lowering
end Wordcode
