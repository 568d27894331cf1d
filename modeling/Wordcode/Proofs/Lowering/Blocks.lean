import Wordcode.Lowering
import Wordcode.Proofs.Expansion.Basic
import Wordcode.Proofs.Simulation

/-!
# Lowering block by block

Every instruction of a program is lowered on its own: what becomes of it depends on the
others only through the numbers of its labels. The instruction and what becomes of it are
a piece, and a program is lowered piece by piece.

Expansions are flat. What stands in one is for every target, except for breakpoints and
data of two words, and neither of these takes labels when it is expanded in turn. So the
body of an expansion is settled instruction by instruction (`Lowering.settle`).

* `Expansion.part_of_expand`: what stands in an expansion;
* `Lowering.instruction_of_expand`: an instruction that is expanded;
* `Lowering.blocks`: the pieces of a program;
* `Lowering.lower_eq_ok_iff`, `Lowering.exists_of_lower`: what a lowered program consists of.
-/

namespace Wordcode

open Instruction

/-- An operation on two values has a register for its result. -/
theorem Instruction.WellFormed.exists_ternary {op : Opcode} {operands : List Operand}
    (h : (code op operands).WellFormed) (hop : op.slots = Opcode.ternary) :
    ∃ t x y, operands = [.register t, x, y] := by
  have haccepts : Signature.accepts Opcode.ternary operands = true := hop ▸ h
  obtain ⟨d, x, y, rfl⟩ := List.length_eq_three.1 (hop ▸ h.length_operands)
  cases d with
  | register t => exact ⟨t, x, y, rfl⟩
  | immediate | label => cases haccepts

/-! ## What stands in expansions -/

namespace Expansion

/-- The instructions that the expansion of an instruction is made of, where its own labels
    are `count` many from `first` on. -/
inductive Part (op : Opcode) (given : List Operand) (first count : Nat) : Instruction → Prop
  | push (j : Nat) : Part op given first count (.code .psh [.register j])
  | pop (j : Nat) : Part op given first count (.code .pop [.register j])
  | copy (t : Nat) {x : Operand} : x ∈ given → Part op given first count (copy t x)
  | clear (t : Nat) : Part op given first count (clear t)
  | constant (t n : Nat) : Part op given first count (.code .imm [.register t, .immediate n])
  | announce (k : Nat) : k < count →
      Part op given first count (.note (.createLabel (.anonymous (first + k))))
  | mark (k : Nat) : k < count → Part op given first count (mark (first + k))
  | jump {branch : Opcode} (k : Nat) : branch.isJump = true → k < count →
      Part op given first count (jump branch (first + k))
  | parity (k j : Nat) : k < count →
      Part op given first count (.code .bev [.label (.anonymous (first + k)), .register j])
  | compareZero (j : Nat) : Part op given first count (compareZero j)
  | compare (j k : Nat) : Part op given first count (.code .cmp [.register j, .register k])
  | onto {u : Opcode} (j : Nat) : u.slots = Opcode.unary → u.tier = .core →
      Part op given first count (onto u j)
  | combine {b : Opcode} (j k : Nat) : b.slots = Opcode.ternary → b.tier = .core →
      Part op given first count (combine b j k)
  | deliver {d : Operand} (j : Nat) : op.slots = Opcode.ternary → given.head? = some d →
      Part op given first count (deliver d j)
  | trap : op = .div ∨ op = .mod → Part op given first count (.code .brk [])
  | site (k : Nat) : op = .cal → k < count →
      Part op given first count (Expansion.jump .psh (first + k))
  | go {x : Operand} : op = .cal → x ∈ given → Part op given first count (.code .bra [x])
  | goBack (j : Nat) : op = .ret → Part op given first count (.code .bra [.register j])
  | halt : op = .brk → Part op given first count (.code .hlt [])
  | word (n : Nat) : op = .dd → Part op given first count (.code .dw [.immediate n])
  | half (n : Nat) : op = .dq → Part op given first count (.code .dd [.immediate n])

section Part

variable {op : Opcode} {given : List Operand} {first count : Nat}

theorem part_save (registers : List Nat) : ∀ i ∈ save registers, Part op given first count i := by
  rw [save, List.forall_mem_map]
  exact fun j _ => .push j

theorem part_restore (registers : List Nat) :
    ∀ i ∈ restore registers, Part op given first count i := by
  rw [restore, List.forall_mem_map]
  exact fun j _ => .pop j

theorem part_announce : ∀ i ∈ announce first count, Part op given first count i := by
  rw [announce, List.forall_mem_map]
  intro id hid
  obtain ⟨k, hk, rfl⟩ := List.mem_range'.1 hid
  rw [Nat.one_mul]
  exact .announce k hk

theorem part_load {spare : List Nat} {y : Operand} {index : Nat} {load : List Instruction}
    (h : divisor spare y = some (index, load)) (hy : y ∈ given) :
    ∀ i ∈ load, Part op given first count i := by
  unfold divisor at h
  split at h
  · cases h
    exact fun _ hi => absurd hi List.not_mem_nil
  · split at h
    · cases h
      exact List.forall_mem_singleton.2 (.copy _ hy)
    · cases h

theorem part_zeroTrap (hop : op = .div ∨ op = .mod) (index go done : Nat)
    (hgo : go < count) (hdone : done < count) :
    ∀ i ∈ zeroTrap index (first + go) (first + done), Part op given first count i := by
  simp only [zeroTrap, List.forall_mem_cons, List.not_mem_nil, false_imp_iff,
      implies_true, and_true]
  exact ⟨.compareZero index, .jump go rfl hgo, .trap hop, .jump done rfl hdone⟩

variable {context : Context} {d x y : Operand} {expansion : Expansion}

theorem part_multiply (hop : op.slots = Opcode.ternary)
    (h : multiply context first d x y = some expansion) :
    ∀ i ∈ expansion.body, Part op [d, x, y] first expansion.labels i := by
  unfold multiply at h
  split at h
  · cases h
    simp only [List.forall_mem_append, List.forall_mem_cons, List.not_mem_nil, false_imp_iff,
      implies_true, and_true]
    exact ⟨⟨⟨⟨part_save _, .copy _ (by simp), .copy _ (by simp), .clear _⟩, part_announce⟩,
      .mark 0 (by decide), .compareZero _, .jump 2 rfl (by decide), .parity 1 _ (by decide),
      .combine _ _ rfl rfl, .mark 1 (by decide), .onto _ rfl rfl, .onto _ rfl rfl,
      .jump 0 rfl (by decide), .mark 2 (by decide), .deliver _ hop rfl⟩, part_restore _⟩
  · cases h

/-- The parts of the expansion of a shift. -/
theorem part_shiftBy {shift : Opcode} (hop : op.slots = Opcode.ternary)
    (hs : shift = .lsh ∨ shift = .rsh) (h : shiftBy shift context first d x y = some expansion) :
    ∀ i ∈ expansion.body, Part op [d, x, y] first expansion.labels i := by
  have hshift : shift.slots = Opcode.unary ∧ shift.tier = .core := by
    rcases hs with rfl | rfl <;> exact ⟨rfl, rfl⟩
  unfold shiftBy at h
  split at h
  · cases h
    simp only [List.forall_mem_append, List.forall_mem_cons, List.not_mem_nil, false_imp_iff,
      implies_true, and_true]
    exact ⟨⟨⟨⟨part_save _, .copy _ (by simp), .copy _ (by simp)⟩, part_announce⟩,
      .mark 0 (by decide), .compareZero _, .jump 1 rfl (by decide), .onto _ hshift.1 hshift.2,
      .onto _ rfl rfl, .jump 0 rfl (by decide), .mark 1 (by decide), .deliver _ hop rfl⟩,
      part_restore _⟩
  · cases h

/-- The parts of the expansion of a quotient. -/
theorem part_divide (h : divide context first d x y = some expansion) :
    ∀ i ∈ expansion.body, Part .div [d, x, y] first expansion.labels i := by
  unfold divide at h
  split at h
  · obtain ⟨⟨index, load⟩, hd, h⟩ := Option.bind_eq_some_iff.1 h
    cases h
    simp only [List.forall_mem_append, List.forall_mem_cons, List.not_mem_nil, false_imp_iff,
      implies_true, and_true]
    exact ⟨⟨⟨⟨⟨part_save _, part_load hd (by simp)⟩, part_announce⟩,
      part_zeroTrap (.inl rfl) _ 0 6 (by decide) (by decide)⟩,
      .mark 0 (by decide), .copy _ (by simp), .clear _, .clear _, .constant _ _,
      .mark 1 (by decide), .onto _ rfl rfl, .onto _ rfl rfl, .jump 3 rfl (by decide),
      .onto _ rfl rfl, .jump 2 rfl (by decide), .onto _ rfl rfl,
      .mark 2 (by decide), .compare _ _, .jump 5 rfl (by decide),
      .combine _ _ rfl rfl, .onto _ rfl rfl, .jump 5 rfl (by decide),
      .mark 3 (by decide), .onto _ rfl rfl, .jump 4 rfl (by decide), .onto _ rfl rfl,
      .mark 4 (by decide), .combine _ _ rfl rfl, .onto _ rfl rfl,
      .mark 5 (by decide), .onto _ rfl rfl, .jump 1 rfl (by decide),
      .deliver _ rfl rfl, .mark 6 (by decide)⟩, part_restore _⟩
  · cases h

theorem part_modulo (h : modulo context first d x y = some expansion) :
    ∀ i ∈ expansion.body, Part .mod [d, x, y] first expansion.labels i := by
  unfold modulo at h
  obtain ⟨⟨index, load⟩, hd, h⟩ := Option.bind_eq_some_iff.1 h
  cases h
  simp only [List.forall_mem_append, List.forall_mem_cons, List.not_mem_nil, false_imp_iff,
      implies_true, and_true]
  exact ⟨⟨⟨⟨⟨⟨part_save _, part_load hd (by simp)⟩, part_announce⟩, .copy _ (by simp)⟩,
    part_zeroTrap (.inr rfl) _ 0 1 (by decide) (by decide)⟩,
    .mark 0 (by decide), .combine _ _ rfl rfl, .jump 0 rfl (by decide), .combine _ _ rfl rfl,
    .deliver _ rfl rfl, .mark 1 (by decide)⟩, part_restore _⟩

/-- Everything in an expansion is one of its parts. -/
theorem part_of_expand {operands : List Operand}
    (h : expand? context first op operands = some expansion) :
    ∀ i ∈ expansion.body, Part op operands first expansion.labels i := by
  unfold expand? at h
  split at h
  · exact part_multiply rfl h
  · exact part_divide h
  · exact part_modulo h
  · exact part_shiftBy rfl (.inl rfl) h
  · exact part_shiftBy rfl (.inr rfl) h
  · cases h
    simp only [call, List.forall_mem_append, List.forall_mem_cons, List.not_mem_nil, false_imp_iff,
      implies_true, and_true]
    exact ⟨part_announce, .site 0 rfl (by decide), .go rfl (by simp), .mark 0 (by decide)⟩
  · cases h
    simp only [comeBack, List.forall_mem_cons, List.not_mem_nil, false_imp_iff,
      implies_true, and_true]
    exact ⟨.pop _, .goBack _ rfl⟩
  · cases h
    exact List.forall_mem_singleton.2 (.halt rfl)
  · cases h
    rw [doubleWord, List.forall_mem_map]
    exact fun n _ => .word n rfl
  · cases h
    simp only [quadWord, List.forall_mem_cons, List.not_mem_nil, false_imp_iff,
      implies_true, and_true]
    exact ⟨.half _ rfl, .half _ rfl⟩
  · cases h

end Part

end Expansion

/-! ## Settled bodies -/

namespace Lowering

variable {target : Tier} {context : Expansion.Context}

/-- What becomes of an instruction that stands in an expansion. -/
def settle (target : Tier) (context : Expansion.Context) (i : Instruction) : List Instruction :=
  (instruction target context 0 i).1

theorem fits_of_tier {op : Opcode} (h : op.tier = .core) (operands : List Operand) :
    fits target (.code op operands) = true := by
  rw [fits, h]
  exact decide_eq_true (Nat.zero_le _)

/-- What the target takes as it is has not to be expanded. -/
theorem check_of_fits {i : Instruction} (h : fits target i = true) : check target i = .ok () := by
  cases i with
  | note n => rfl
  | code op operands => rw [check, if_pos h]

theorem instructionAt_of_fits {i : Instruction} (h : fits target i = true) (depth first : Nat) :
    instructionAt target context depth first i = ([i], first) := by
  unfold instructionAt
  split
  · rfl
  · rw [if_pos h]

theorem instructionAt_succ {op : Opcode} {operands : List Operand} {expansion : Expansion}
    {depth first : Nat} (hf : fits target (.code op operands) = false)
    (he : Expansion.expand? context first op operands = some expansion) :
    instructionAt target context (depth + 1) first (.code op operands) =
      ((sequence (instructionAt target context depth) (first + expansion.labels)
          expansion.body).map (.note (.comment (code op operands).render) :: ·) id) := by
  unfold instructionAt
  rw [if_neg (by simp [hf]), he]
  rfl

theorem instructionAt_of_none {op : Opcode} {operands : List Operand} {depth first : Nat}
    (hf : fits target (.code op operands) = false)
    (he : Expansion.expand? context first op operands = none) :
    instructionAt target context depth first (.code op operands) =
      (residue op operands, first) := by
  unfold instructionAt
  rw [if_neg (by simp [hf]), he]
  cases depth <;> rfl

theorem settle_of_fits {i : Instruction} (h : fits target i = true) :
    settle target context i = [i] := by
  rw [settle, instruction, instructionAt_of_fits h]

/-- Instructions that take no labels are lowered one by one. -/
theorem sequence_eq_flatMap {lowerOne : Nat → Instruction → List Instruction × Nat}
    {f : Instruction → List Instruction} {body : List Instruction} {first : Nat}
    (h : ∀ i ∈ body, lowerOne first i = (f i, first)) :
    sequence lowerOne first body = (body.flatMap f, first) := by
  induction body with
  | nil => rfl
  | cons i rest ih =>
    rw [List.forall_mem_cons] at h
    rw [sequence, h.1]
    simp only [ih h.2, List.flatMap_cons]

/-- What is for every target stays. -/
theorem sequence_of_fits {body : List Instruction} (h : ∀ i ∈ body, fits target i = true)
    (depth first : Nat) :
    sequence (instructionAt target context depth) first body = (body, first) := by
  rw [sequence_eq_flatMap fun i hi => instructionAt_of_fits (h i hi) depth first,
    List.flatMap_singleton']

/-- What stands in an expansion is for every target, or a trap or half of some data. -/
theorem fits_of_part {op : Opcode} {given : List Operand} {first count : Nat} {i : Instruction}
    (h : Expansion.Part op given first count i) :
    fits target i = true ∨ (i = .code .brk [] ∧ (op = .div ∨ op = .mod)) ∨
      (∃ n, i = .code .dd [.immediate n]) ∧ op = .dq := by
  cases h with
  | trap hop => exact .inr (.inl ⟨rfl, hop⟩)
  | half n hop => exact .inr (.inr ⟨⟨n, rfl⟩, hop⟩)
  | @copy t x hx => cases x <;> exact .inl (fits_of_tier rfl _)
  | @jump branch k hb hk =>
    have htier : branch.tier = .core := by
      cases branch <;> first | rfl | cases hb
    exact .inl (fits_of_tier htier _)
  | onto j hs ht => exact .inl (fits_of_tier ht _)
  | combine j k hs ht => exact .inl (fits_of_tier ht _)
  | announce | mark => exact .inl rfl
  | _ => exact .inl (fits_of_tier rfl _)

/-- What stands in an expansion can be expanded in turn, if the target lacks it. So it is enough to
    check the instructions of the program. -/
theorem check_of_mem_expand {op : Opcode} {operands : List Operand} {expansion : Expansion}
    {first : Nat} {i : Instruction}
    (he : Expansion.expand? context first op operands = some expansion)
    (hi : i ∈ expansion.body) : check target i = .ok () := by
  rcases fits_of_part (Expansion.part_of_expand he i hi) with hf | ⟨rfl, -⟩ | ⟨⟨n, rfl⟩, -⟩
  · exact check_of_fits hf
  · exact ite_self _
  · exact ite_self _

/-- What is expanded into instructions for every target, without labels. -/
theorem instructionAt_one {op : Opcode} {operands : List Operand} {expansion : Expansion}
    (he : ∀ n, Expansion.expand? context n op operands = some expansion)
    (hlabels : expansion.labels = 0) (hbody : ∀ i ∈ expansion.body, fits target i = true)
    (first : Nat) :
    instructionAt target context 1 first (.code op operands) =
      (if fits target (.code op operands) = true then [.code op operands]
        else .note (.comment (code op operands).render) :: expansion.body, first) := by
  split
  · next hf => exact instructionAt_of_fits hf 1 first
  · next hf =>
    rw [instructionAt_succ (by simpa using hf) (he first), sequence_of_fits hbody, hlabels]
    rfl

/-- Parts of expansions take no labels when they are lowered. -/
theorem instructionAt_of_part {op : Opcode} {given : List Operand} {first count : Nat}
    {i : Instruction} (h : Expansion.Part op given first count i) (n : Nat) :
    instructionAt target context (op.depth - 1) n i = (settle target context i, n) := by
  have hsettle {op : Opcode} {operands : List Operand} {expansion : Expansion}
      (hd : op.depth = 1) (he : ∀ n, Expansion.expand? context n op operands = some expansion)
      (hlabels : expansion.labels = 0) (hbody : ∀ i ∈ expansion.body, fits target i = true) :
      instructionAt target context 1 n (.code op operands) =
        (settle target context (.code op operands), n) := by
    rw [settle, instruction, depth, hd, instructionAt_one he hlabels hbody,
      instructionAt_one he hlabels hbody]
  rcases fits_of_part h with hf | ⟨rfl, hop⟩ | ⟨⟨word, rfl⟩, rfl⟩
  · rw [instructionAt_of_fits hf, settle_of_fits hf]
  · have hdepth : op.depth - 1 = 1 := by rcases hop with rfl | rfl <;> rfl
    rw [hdepth]
    exact hsettle rfl (fun _ => rfl) rfl (List.forall_mem_singleton.2 (fits_of_tier rfl []))
  · refine hsettle rfl (fun _ => rfl) rfl ?_
    rw [Expansion.doubleWord, List.forall_mem_map]
    exact fun _ _ => fits_of_tier rfl _

/-- An instruction that is expanded gives way to a comment and its settled expansion. -/
theorem instruction_of_expand {op : Opcode} {operands : List Operand} {expansion : Expansion}
    {first : Nat} (hf : fits target (.code op operands) = false)
    (he : Expansion.expand? context first op operands = some expansion) :
    instruction target context first (.code op operands) =
      (.note (.comment (code op operands).render) ::
        expansion.body.flatMap (settle target context), first + expansion.labels) := by
  have hdepth : op.depth = op.depth - 1 + 1 := by
    unfold Expansion.expand? at he
    split at he <;> first | rfl | cases he
  rw [instruction, depth, hdepth, instructionAt_succ hf he, sequence_eq_flatMap fun i hi =>
    instructionAt_of_part (Expansion.part_of_expand he i hi) (first + expansion.labels)]
  rfl

/-- Without traps and data, an expansion is for every target. -/
theorem flatMap_settle {op : Opcode} {operands : List Operand} {expansion : Expansion}
    {first : Nat} (he : Expansion.expand? context first op operands = some expansion)
    (hop : op ≠ .div ∧ op ≠ .mod ∧ op ≠ .dq) :
    expansion.body.flatMap (settle target context) = expansion.body := by
  have hfits (i : Instruction) (hi : i ∈ expansion.body) : fits target i = true := by
    rcases fits_of_part (Expansion.part_of_expand he i hi) with hf | ⟨-, h | h⟩ | ⟨-, h⟩
    · exact hf
    · exact absurd h hop.1
    · exact absurd h hop.2.1
    · exact absurd h hop.2.2
  rw [List.flatMap_congr fun i hi => settle_of_fits (hfits i hi), List.flatMap_singleton']

theorem instruction_of_fits {i : Instruction} (h : fits target i = true) (first : Nat) :
    instruction target context first i = ([i], first) :=
  instructionAt_of_fits h _ first

theorem instruction_of_none {op : Opcode} {operands : List Operand} {first : Nat}
    (hf : fits target (.code op operands) = false)
    (he : Expansion.expand? context first op operands = none) :
    instruction target context first (.code op operands) = (residue op operands, first) :=
  instructionAt_of_none hf he

/-! ## Blocks -/

/-- The pieces of a program: each instruction and what becomes of it. -/
def blocks (target : Tier) (context : Expansion.Context) : Nat → List Instruction → Pieces
  | _, [] => []
  | first, i :: rest =>
    ([i], (instruction target context first i).1) ::
      blocks target context (instruction target context first i).2 rest

theorem source_blocks (target : Tier) (context : Expansion.Context) (first : Nat)
    (stream : List Instruction) :
    (blocks target context first stream).source = stream := by
  induction stream generalizing first with
  | nil => rfl
  | cons i rest ih => rw [blocks, Pieces.source_cons, ih, List.singleton_append]

theorem target_blocks (target : Tier) (context : Expansion.Context) (first : Nat)
    (stream : List Instruction) :
    (blocks target context first stream).target =
      (sequence (instruction target context) first stream).1 := by
  induction stream generalizing first with
  | nil => rfl
  | cons i rest ih => rw [blocks, Pieces.target_cons, ih, sequence]

theorem mem_blocks {first : Nat} {stream : List Instruction}
    {p : List Instruction × List Instruction} (h : p ∈ blocks target context first stream) :
    ∃ i ∈ stream, ∃ n, p = ([i], (instruction target context n i).1) := by
  induction stream generalizing first with
  | nil => exact absurd h List.not_mem_nil
  | cons i rest ih =>
    rw [blocks] at h
    rcases List.mem_cons.1 h with rfl | h
    · exact ⟨i, List.mem_cons_self, first, rfl⟩
    · obtain ⟨j, hj, n, rfl⟩ := ih h
      exact ⟨j, List.mem_cons_of_mem _ hj, n, rfl⟩

/-- Pieces at the beginning are those of the instructions at the beginning. -/
theorem blocks_eq_append {first : Nat} {stream : List Instruction} {xs ys : Pieces}
    (h : blocks target context first stream = xs ++ ys) :
    ∃ before after, stream = before ++ after ∧ xs = blocks target context first before ∧
      ys = blocks target context (sequence (instruction target context) first before).2 after := by
  induction xs generalizing first stream with
  | nil => exact ⟨[], stream, rfl, rfl, h.symm⟩
  | cons p xs ih =>
    cases stream with
    | nil => cases h
    | cons i rest =>
      rw [blocks, List.cons_append, List.cons.injEq] at h
      obtain ⟨before, after, rfl, rfl, rfl⟩ := ih h.2
      exact ⟨i :: before, after, rfl, by rw [blocks, h.1], rfl⟩

/-- Labels that a program places are placed in what becomes of it. -/
theorem blocks_marks {first : Nat} {stream : List Instruction}
    {p : List Instruction × List Instruction} (h : p ∈ blocks target context first stream)
    {l : Label} (hl : .note (.markLabel l) ∈ p.1) :
    p.1 = [.note (.markLabel l)] ∧ p.2 = [.note (.markLabel l)] := by
  obtain ⟨i, -, n, rfl⟩ := mem_blocks h
  rw [List.mem_singleton] at hl
  subst hl
  exact ⟨rfl, congrArg Prod.fst (instruction_of_fits rfl n)⟩

/-! ## Registers -/

theorem le_foldl_max {xs : List Nat} {x : Nat} (h : x ∈ xs) (start : Nat) :
    x ≤ xs.foldl max start := by
  rw [List.foldl_max_eq_max (List.ne_nil_of_mem h)]
  exact Nat.le_trans (List.le_max_of_mem h) (Nat.le_max_right start _)

/-- No register of a stream is above the highest. -/
theorem le_highestRegister {stream : List Instruction} {i : Instruction} (hi : i ∈ stream)
    {j : Nat} (hj : .register j ∈ i.operands) : j ≤ highestRegister stream := by
  have hle := highestRegister?_le_iff.1 (Nat.le_refl _) j hj
  cases hh : i.highestRegister? with
  | none =>
    rw [hh] at hle
    exact Nat.le_trans hle (Nat.zero_le _)
  | some highest =>
    rw [hh] at hle
    exact Nat.le_trans hle (le_foldl_max (List.mem_filterMap.2 ⟨i, hi, hh⟩) 0)

theorem next_eq_ok_iff {index n : Nat} :
    next index = .ok n ↔ n = index + 1 ∧ index + 1 < Word.limit := by
  unfold next
  split
  · next h => simp [h, eq_comm]
  · next h => simp [h]

/-- The register that the expansions of a program may use freely. -/
def scratch (program : Program) : Nat :=
  max program.highestRegister (declared program.instructions) + 1

/-- A program with its instructions lowered, before it is simplified. -/
def expanded (config : Config) (program : Program) : Program :=
  stream config.maxTier ⟨scratch program, config.wordBits⟩ program

/-- A program can be lowered if there is a register after all that it names or states, and one
    after all that is named or stated then, and if all can be expanded that has to be. -/
theorem lower_eq_ok_iff {config : Config} {settings : Peephole} {program : Program}
    {lowered : Lowered} : lower config settings program = .ok lowered ↔
    ∃ highest,
      highest = max (highestRegister (settings.apply (expanded config program).instructions))
        (declared program.instructions) ∧
      scratch program < Word.limit ∧ highest + 1 < Word.limit ∧
      (∀ i ∈ program.instructions, check config.maxTier i = .ok ()) ∧
      lowered = ⟨⟨(settings.apply (expanded config program).instructions).map (declare highest),
        (expanded config program).labels⟩, highest + 1⟩ := by
  unfold lower Lowering.context
  constructor
  · intro h
    obtain ⟨context, hc, h⟩ := bind_eq_ok_iff.1 h
    obtain ⟨free, hs, hc⟩ := bind_eq_ok_iff.1 hc
    obtain ⟨⟨⟩, hcheck, h⟩ := bind_eq_ok_iff.1 h
    obtain ⟨required, hr, h⟩ := bind_eq_ok_iff.1 h
    obtain ⟨rfl, hscratch⟩ := next_eq_ok_iff.1 hs
    obtain ⟨rfl, hlimit⟩ := next_eq_ok_iff.1 hr
    cases hc
    cases h
    exact ⟨_, rfl, hscratch, hlimit, forM_eq_ok_iff.1 hcheck, rfl⟩
  · rintro ⟨_, rfl, hscratch, hlimit, hcheck, rfl⟩
    refine bind_eq_ok_iff.2 ⟨⟨scratch program, config.wordBits⟩, ?_, ?_⟩
    · exact bind_eq_ok_iff.2 ⟨scratch program, next_eq_ok_iff.2 ⟨rfl, hscratch⟩, rfl⟩
    · exact bind_eq_ok_iff.2 ⟨(), forM_eq_ok_iff.2 hcheck,
        bind_eq_ok_iff.2 ⟨_, next_eq_ok_iff.2 ⟨rfl, hlimit⟩, rfl⟩⟩

/-- What a lowered program consists of. -/
theorem exists_of_lower {config : Config} {settings : Peephole} {program : Program}
    {lowered : Lowered} (h : lower config settings program = .ok lowered) :
    ∃ highest,
      highest = max (highestRegister (settings.apply (expanded config program).instructions))
        (declared program.instructions) ∧
      lowered.registersRequired = highest + 1 ∧
      lowered.program.instructions =
        (settings.apply (expanded config program).instructions).map (declare highest) ∧
      lowered.program.labels = (expanded config program).labels := by
  obtain ⟨highest, hh, -, -, -, rfl⟩ := lower_eq_ok_iff.1 h
  exact ⟨highest, hh, rfl, rfl, rfl⟩

/-- A program lowered, or as it is if it cannot be lowered. -/
def lowering (config : Config) (settings : Peephole) (program : Program) : Lowered :=
  (lower config settings program).toOption.getD ⟨program, 0⟩

theorem lower_eq_ok_lowering {config : Config} {settings : Peephole} {program : Program}
    (h : (lower config settings program).isOk = true) :
    lower config settings program = .ok (lowering config settings program) :=
  eq_ok_of_isOk h _

/-- A program does not name the scratch register. -/
theorem scratch_not_mem {program : Program} {i : Instruction} (hi : i ∈ program.instructions) :
    .register (scratch program) ∉ i.operands := by
  intro hj
  have hle : scratch program ≤ program.highestRegister := le_highestRegister hi hj
  have hlt : program.highestRegister < scratch program := Nat.lt_succ_of_le (Nat.le_max_left _ _)
  omega

end Lowering

/-! ## Stated registers -/

section Declare

variable {index : Nat} {stream : List Instruction}

theorem footprint_declare (i : Instruction) :
    (Lowering.declare index i).footprint = i.footprint := by
  unfold Lowering.declare
  split <;> rfl

theorem mark?_declare (i : Instruction) : (Lowering.declare index i).mark? = i.mark? := by
  unfold Lowering.declare
  split <;> rfl

theorem extent_map_declare : extent (stream.map (Lowering.declare index)) = extent stream := by
  induction stream with
  | nil => rfl
  | cons i rest ih => rw [List.map_cons, extent_cons, extent_cons, footprint_declare, ih]

theorem marks_map_declare : marks (stream.map (Lowering.declare index)) = marks stream := by
  simp only [marks, List.filterMap_map, Function.comp_def, mark?_declare]

theorem code_mem_map_declare {op : Opcode} {operands : List Operand} :
    .code op operands ∈ stream.map (Lowering.declare index) ↔ .code op operands ∈ stream := by
  rw [List.mem_map]
  constructor
  · rintro ⟨i, hi, he⟩
    unfold Lowering.declare at he
    split at he
    · cases he
    · exact he ▸ hi
  · exact fun h => ⟨_, h, rfl⟩

theorem located_map_declare {fetch : Nat → Option Cell} {resolution : Resolution}
    {mask address : Nat} :
    Located fetch resolution mask address (stream.map (Lowering.declare index)) ↔
      Located fetch resolution mask address stream := by
  induction stream generalizing address with
  | nil => exact Iff.rfl
  | cons i rest ih =>
    rw [List.map_cons, Located, Located, footprint_declare, ih]
    refine and_congr_left fun _ => ?_
    unfold Lowering.declare
    split <;> exact Iff.rfl

/-- What is stated about registers is no part of the program that is executed. -/
theorem Code.Carries.of_declare {code : Code}
    (h : code.Carries (stream.map (Lowering.declare index))) : code.Carries stream where
  size := h.size.trans extent_map_declare
  holds := located_map_declare.1 h.holds
  unmarked label hl := h.unmarked label (by rwa [marks_map_declare])
  cells address decoded hd := by
    obtain ⟨op, operands, hmem, hop, rfl⟩ := h.cells address decoded hd
    exact ⟨op, operands, code_mem_map_declare.1 hmem, hop, rfl⟩

end Declare

end Wordcode
