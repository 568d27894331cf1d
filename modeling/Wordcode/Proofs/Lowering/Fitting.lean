import Wordcode.Proofs.Lowering.Checked
import Wordcode.Proofs.Lowering.Runs

/-!
# Lowering fits a program to its target

An expansion may hold instructions that the target lacks as well, of the same tier (data of
four words becomes data of two) or of a higher one (a division traps with a breakpoint). So
tiers are no measure of how long lowering goes on; what is, is how many times in a row an
instruction can be expanded (`Lowering.depth`). Lowering an instruction asks for no more than
that, and a greater bound changes nothing: the recursion needs no bound at all.

* `Lowering.Nested`: which lowerings are part of which others;
* `Lowering.unbounded`: the recursion of lowering, without a bound;
* `Lowering.Leaves`: what an instruction leaves behind before the stream is simplified;
* `Peephole.retains`: which entries of a stream are never simplified away;
* `Lowering.fits_of_lower`: lowering ends, and what is lowered fits the target.
-/

namespace Wordcode

open Instruction

/-! ## The operands of expansions -/

namespace Expansion

variable {op : Opcode} {operands : List Operand}

/-- The operands of a well-formed instruction are those that its expansion works on. -/
theorem check_of_wellFormed (hw : (code op operands).WellFormed) :
    check op operands = .ok () := by
  have hlength := hw.length_operands
  cases op with
  | mlt | div | mod | bsl | bsr =>
    obtain ⟨t, x, y, rfl⟩ := hw.exists_ternary rfl
    rfl
  | cal =>
    obtain ⟨x, rfl⟩ := List.length_eq_one_iff.1 hlength
    rfl
  | dd | dq =>
    obtain ⟨x, rfl⟩ := List.length_eq_one_iff.1 hlength
    cases x with
    | immediate n => rfl
    | register | label => cases hw
  | _ => rfl

theorem lt_length_of_operandAt {position : Nat} {x : Operand}
    (h : operandAt op operands position = .ok x) : position - 1 < operands.length := by
  unfold operandAt at h
  split at h
  · next hx => exact (List.getElem?_eq_some_iff.1 hx).1
  · cases h

/-- What can be expanded at all has an expansion if the operands are there that it works on. An
    instruction has at most three. -/
theorem exists_expand_of_check (context : Context) (first : Nat) (hd : 0 < op.depth)
    (hlength : operands.length ≤ 3) (h : check op operands = .ok ()) :
    ∃ expansion, expand? context first op operands = some expansion := by
  have harithmetic (ha : op.isExpandable = true) (hthree : 3 ≤ operands.length) :
      ∃ expansion, expand? context first op operands = some expansion := by
    obtain ⟨d, x, y, rfl⟩ := List.length_eq_three.1 (Nat.le_antisymm hlength hthree)
    exact exists_expand context first ha d x y
  cases op with
  | mlt | div | mod | bsl | bsr =>
    obtain ⟨-, -, h⟩ := bind_eq_ok_iff.1 h
    obtain ⟨-, -, h⟩ := bind_eq_ok_iff.1 h
    obtain ⟨y, hy, -⟩ := bind_eq_ok_iff.1 h
    exact harithmetic rfl (lt_length_of_operandAt hy)
  | cal =>
    obtain ⟨x, hx, -⟩ := bind_eq_ok_iff.1 h
    obtain ⟨x, rest, rfl⟩ := List.exists_cons_of_length_pos (lt_length_of_operandAt hx)
    exact ⟨_, rfl⟩
  | ret | brk => exact ⟨_, rfl⟩
  | dd | dq =>
    rcases operands with _ | ⟨_ | value | _, rest⟩
    · cases h
    · cases h
    · exact ⟨_, rfl⟩
    · cases h
  | _ => exact absurd hd (Nat.lt_irrefl 0)

/-- What cannot do without an equivalent has one, whatever its operands are. So no lowering is
    refused before it begins. -/
theorem exists_expand_of_requiresConverter (context : Context) (first : Nat)
    (h : op.signature.requiresConverter = true) :
    ∃ expansion, expand? context first op operands = some expansion := by
  obtain rfl : op = .brk := beq_iff_eq.1 h
  exact ⟨_, rfl⟩

end Expansion

namespace Lowering

variable {target : Tier} {context : Expansion.Context} {i j : Instruction} {op : Opcode}
  {operands : List Operand} {expansion : Expansion} {first : Nat}

/-! ## Sequences -/

section Sequence

variable {f g : Nat → Instruction → List Instruction × Nat} {stream : List Instruction}

theorem sequence_cons (f : Nat → Instruction → List Instruction × Nat) (first : Nat)
    (i : Instruction) (rest : List Instruction) :
    (sequence f first (i :: rest)).1 = (f first i).1 ++ (sequence f (f first i).2 rest).1 :=
  rfl

theorem sequence_congr (h : ∀ i ∈ stream, ∀ n, f n i = g n i) (first : Nat) :
    sequence f first stream = sequence g first stream := by
  induction stream generalizing first with
  | nil => rfl
  | cons i rest ih =>
    rw [List.forall_mem_cons] at h
    simp only [sequence, h.1, ih h.2]

/-- What stands in a lowered sequence comes from one of its instructions. -/
theorem exists_of_mem_sequence (h : j ∈ (sequence f first stream).1) :
    ∃ i ∈ stream, ∃ n, j ∈ (f n i).1 := by
  induction stream generalizing first with
  | nil => exact absurd h List.not_mem_nil
  | cons i rest ih =>
    rcases List.mem_append.1 h with h | h
    · exact ⟨i, List.mem_cons_self, first, h⟩
    · obtain ⟨i', hi', hj⟩ := ih h
      exact ⟨i', List.mem_cons_of_mem _ hi', hj⟩

/-- All that an instruction becomes stands in the lowered sequence. -/
theorem exists_subset_sequence (h : i ∈ stream) (first : Nat) :
    ∃ n, (f n i).1 ⊆ (sequence f first stream).1 := by
  induction stream generalizing first with
  | nil => exact absurd h List.not_mem_nil
  | cons i' rest ih =>
    rcases List.mem_cons.1 h with rfl | h
    · exact ⟨first, List.subset_append_left _ _⟩
    · obtain ⟨n, hn⟩ := ih h (f first i').2
      exact ⟨n, List.subset_append_of_subset_right _ hn⟩

/-- Instructions that stay as they are stay in order. -/
theorem filter_sublist_sequence {p : Instruction → Bool}
    (h : ∀ i ∈ stream, p i = true → ∀ n, (f n i).1 = [i]) (first : Nat) :
    (stream.filter p).Sublist (sequence f first stream).1 := by
  induction stream generalizing first with
  | nil => exact .slnil
  | cons i rest ih =>
    rw [List.forall_mem_cons] at h
    have hrest := ih h.2 (f first i).2
    rw [sequence_cons]
    cases hp : p i with
    | true =>
      rw [List.filter_cons_of_pos hp, h.1 hp first]
      exact hrest.cons_cons i
    | false =>
      rw [List.filter_cons_of_neg (by simp [hp])]
      exact hrest.trans (List.sublist_append_right _ _)

end Sequence

/-! ## The recursion ends -/

/-- The lowering of `j` is part of the lowering of `i`: the target lacks `i`, and `j` stands in
    its expansion. -/
inductive Nested (target : Tier) (context : Expansion.Context) (j : Instruction) :
    Instruction → Prop
  | intro {op : Opcode} {operands : List Operand} {first : Nat} {expansion : Expansion} :
      fits target (.code op operands) = false →
      Expansion.expand? context first op operands = some expansion → j ∈ expansion.body →
      Nested target context j (.code op operands)

theorem depth_eq_zero_of_fits (h : fits .core i = true) : depth i = 0 := by
  cases i with
  | note n => rfl
  | code op operands => cases op <;> first | rfl | cases h

theorem depth_pos_of_expand (h : Expansion.expand? context first op operands = some expansion) :
    0 < op.depth := by
  unfold Expansion.expand? at h
  split at h <;> first | decide | cases h

/-- What stands in an expansion can be expanded fewer times in a row. -/
theorem depth_lt_of_nested (h : Nested target context j i) : depth j < depth i := by
  obtain ⟨-, he, hj⟩ := h
  have hfits : fits .core j = true ∨ _ := fits_of_part (Expansion.part_of_expand he j hj)
  rcases hfits with hf | ⟨rfl, rfl | rfl⟩ | ⟨⟨n, rfl⟩, rfl⟩
  · rw [depth_eq_zero_of_fits hf]
    exact depth_pos_of_expand he
  · exact Nat.lt_succ_self 1
  · exact Nat.lt_succ_self 1
  · exact Nat.lt_succ_self 1

theorem wellFounded_nested (target : Tier) (context : Expansion.Context) :
    WellFounded (Nested target context) :=
  Subrelation.wf depth_lt_of_nested (measure depth).wf

/-- How an instruction is lowered, given how those in its expansion are. -/
def unbounded (target : Tier) (context : Expansion.Context)
    (lowerOne : Nat → Instruction → List Instruction × Nat) (first : Nat) :
    Instruction → List Instruction × Nat
  | .note n => ([.note n], first)
  | .code op operands =>
    if fits target (.code op operands) then ([.code op operands], first)
    else
      match Expansion.expand? context first op operands with
      | some expansion =>
        (sequence lowerOne (first + expansion.labels) expansion.body).map
          (.note (.comment (code op operands).render) :: ·) id
      | none => (residue op operands, first)

theorem unbounded_of_fits {lowerOne : Nat → Instruction → List Instruction × Nat}
    (h : fits target i = true) : unbounded target context lowerOne first i = ([i], first) := by
  cases i with
  | note n => rfl
  | code op operands => rw [unbounded, if_pos h]

/-- Lowering with a bound that is not exceeded follows the recursion without one. -/
theorem instructionAt_eq_unbounded {bound : Nat} (h : depth i ≤ bound) (first : Nat) :
    instructionAt target context bound first i =
      unbounded target context (instruction target context) first i := by
  induction i using (wellFounded_nested target context).induction generalizing bound first with
  | _ i ih =>
    cases hf : fits target i with
    | true => rw [instructionAt_of_fits hf, unbounded_of_fits hf]
    | false =>
      rcases i with ⟨op, operands⟩ | n
      · rw [unbounded, if_neg (by simp [hf])]
        cases he : Expansion.expand? context first op operands with
        | none => exact instructionAt_of_none hf he
        | some expansion =>
          have hpos : 0 < depth (.code op operands) := depth_pos_of_expand he
          obtain ⟨bound, rfl⟩ : ∃ n, bound = n + 1 := Nat.exists_eq_add_one.2 (by omega)
          rw [instructionAt_succ hf he]
          -- What stands in the expansion is within the bound that is left, and within its own.
          rw [sequence_congr fun j hj m => ?_]
          have hnested : Nested target context j (.code op operands) := .intro hf he hj
          have hlt := depth_lt_of_nested hnested
          exact (ih j hnested (by omega) m).trans (ih j hnested (Nat.le_refl _) m).symm
      · cases hf

theorem instruction_eq_unbounded (target : Tier) (context : Expansion.Context) :
    instruction target context = unbounded target context (instruction target context) := by
  funext first i
  exact instructionAt_eq_unbounded (Nat.le_refl (depth i)) first

theorem instruction_eq_sequence (hf : fits target (.code op operands) = false)
    (he : Expansion.expand? context first op operands = some expansion) :
    instruction target context first (.code op operands) =
      (sequence (instruction target context) (first + expansion.labels) expansion.body).map
        (.note (.comment (code op operands).render) :: ·) id := by
  rw [instruction_eq_unbounded, unbounded, if_neg (by simp [hf]), he,
    ← instruction_eq_unbounded]

/-! ## What is lowered fits -/

theorem fits_of_mem_residue (h : j ∈ residue op operands) : fits target j = true := by
  unfold residue at h
  split at h
  · exact absurd h List.not_mem_nil
  · rcases List.mem_cons.1 h with rfl | h
    · rfl
    · cases List.mem_singleton.1 h
      rfl

/-- By induction on the lowerings that are part of this one. -/
theorem fits_of_mem_instruction (h : j ∈ (instruction target context first i).1) :
    fits target j = true := by
  induction i using (wellFounded_nested target context).induction generalizing first j with
  | _ i ih =>
    cases hf : fits target i with
    | true =>
      rw [instruction_of_fits hf] at h
      exact List.mem_singleton.1 h ▸ hf
    | false =>
      rcases i with ⟨op, operands⟩ | n
      · cases he : Expansion.expand? context first op operands with
        | none =>
          rw [instruction_of_none hf he] at h
          exact fits_of_mem_residue h
        | some expansion =>
          rw [instruction_eq_sequence hf he] at h
          rcases List.mem_cons.1 h with rfl | h
          · rfl
          · obtain ⟨i, hi, n, hj⟩ := exists_of_mem_sequence h
            exact ih i (.intro hf he hi) hj
      · cases hf

/-! ## What is left of an instruction -/

/-- What is left of an instruction before the stream is simplified. A note stays, and so do
    instructions that the target has; those it lacks leave others in their place. Only `NOP`
    leaves nothing, and instructions on ports leave a warning. -/
inductive Leaves (target : Tier) : Instruction → List Instruction → Prop
  | note (n : Note) : Leaves target (.note n) [.note n]
  | code {op : Opcode} {operands : List Operand} {left : List Instruction} :
      op.tier ≤ target ∨ op ≠ .nop ∧ op ≠ .inp ∧ op ≠ .out →
      (∃ op' operands', .code op' operands' ∈ left) → Leaves target (.code op operands) left
  | nothing (operands : List Operand) : target < Opcode.nop.tier →
      Leaves target (.code .nop operands) []
  | warning {op : Opcode} (operands : List Operand) : op = .inp ∨ op = .out → target < op.tier →
      Leaves target (.code op operands)
        [.note (.pragma ("warning " ++ op.name ++ " is not supported by the target")),
          .note (.comment (code op operands).render)]

/-- A well-formed instruction can be expanded if it has to be. -/
theorem check_of_wellFormed (hw : i.WellFormed) : check target i = .ok () := by
  cases i with
  | note n => rfl
  | code op operands =>
    rw [check, Expansion.check_of_wellFormed hw]
    exact ite_self _

/-- There is an expansion for every instruction above the least tier, but for `NOP` and those
    on ports. -/
theorem exists_expand_of_wellFormed (context : Expansion.Context) (first : Nat)
    (hw : (code op operands).WellFormed) (ht : op.tier ≠ .core)
    (hop : op ≠ .nop ∧ op ≠ .inp ∧ op ≠ .out) :
    ∃ expansion, Expansion.expand? context first op operands = some expansion := by
  have hlength : op.slots.length ≤ 3 := by
    cases op <;> decide
  refine Expansion.exists_expand_of_check context first ?_ (hw.length_operands ▸ hlength)
    (Expansion.check_of_wellFormed hw)
  cases op with
  | nop => exact absurd rfl hop.1
  | inp => exact absurd rfl hop.2.1
  | out => exact absurd rfl hop.2.2
  | mlt | div | mod | bsl | bsr | cal | ret | brk | dd | dq => decide
  | _ => exact absurd rfl ht

/-- An expansion holds more than notes. -/
theorem exists_code_mem_of_expand
    (h : Expansion.expand? context first op operands = some expansion) :
    ∃ op' operands', .code op' operands' ∈ expansion.body := by
  have harithmetic {d x y : Operand} (hop : op.isExpandable = true) (ho : operands = [d, x, y]) :
      ∃ op' operands', .code op' operands' ∈ expansion.body := by
    subst ho
    obtain ⟨index, hd⟩ := Expansion.exists_deliver_mem hop h
    exact ⟨_, _, hd⟩
  unfold Expansion.expand? at h
  split at h
  · exact harithmetic rfl rfl
  · exact harithmetic rfl rfl
  · exact harithmetic rfl rfl
  · exact harithmetic rfl rfl
  · exact harithmetic rfl rfl
  · next x _ =>
    cases h
    exact ⟨.bra, [x], by simp [Expansion.call]⟩
  · cases h
    exact ⟨_, _, List.mem_cons_self⟩
  · cases h
    exact ⟨_, _, List.mem_cons_self⟩
  · next value _ =>
    cases h
    have hlength : (Word.split value context.wordBits 2).length = 2 :=
      Image.length_split_footprint value context.wordBits (show Opcode.dd.isData = true from rfl)
    obtain ⟨high, low, hwords⟩ := List.length_eq_two.1 hlength
    exact ⟨.dw, [.immediate high], by simp [Expansion.doubleWord, hwords]⟩
  · cases h
    exact ⟨_, _, List.mem_cons_self⟩
  · cases h

/-- No part of an expansion is a `NOP` or works on ports. -/
theorem ne_of_part {given : List Operand} {count : Nat} {op' : Opcode} {operands' : List Operand}
    (h : Expansion.Part op given first count (.code op' operands')) :
    op' ≠ .nop ∧ op' ≠ .inp ∧ op' ≠ .out := by
  have hfits : fits .core (.code op' operands') = true ∨ _ := fits_of_part h
  rcases hfits with hf | ⟨he, -⟩ | ⟨⟨n, he⟩, -⟩
  · refine ⟨?_, ?_, ?_⟩ <;>
    · rintro rfl
      cases hf
  · cases he
    decide
  · cases he
    decide

/-- Instructions with an equivalent leave instructions. -/
theorem exists_code_mem_instruction (hw : (code op operands).WellFormed)
    (hop : op ≠ .nop ∧ op ≠ .inp ∧ op ≠ .out) (first : Nat) :
    ∃ op' operands', .code op' operands' ∈
      (instruction target context first (.code op operands)).1 := by
  generalize hi : Instruction.code op operands = i
  induction i using (wellFounded_nested target context).induction
    generalizing op operands first with
  | _ i ih =>
    subst hi
    cases hf : fits target (.code op operands) with
    | true =>
      rw [instruction_of_fits hf]
      exact ⟨op, operands, List.mem_cons_self⟩
    | false =>
      have htier : op.tier ≠ .core := by
        intro h
        rw [fits_of_tier h] at hf
        cases hf
      obtain ⟨expansion, he⟩ := exists_expand_of_wellFormed context first hw htier hop
      obtain ⟨op₁, operands₁, hmem⟩ := exists_code_mem_of_expand he
      have hpart := Expansion.part_of_expand he _ hmem
      obtain ⟨n, hn⟩ := exists_subset_sequence (f := instruction target context) hmem
        (first + expansion.labels)
      obtain ⟨op', operands', hcode⟩ :=
        ih _ (.intro hf he hmem) (hpart.wellFormed hw) (ne_of_part hpart) n rfl
      rw [instruction_eq_sequence hf he]
      exact ⟨op', operands', List.mem_cons_of_mem _ (hn hcode)⟩

/-- What a well-formed instruction becomes is what it may leave. -/
theorem leaves_instruction (hw : i.WellFormed) (first : Nat) :
    Leaves target i (instruction target context first i).1 := by
  rcases i with ⟨op, operands⟩ | n
  · by_cases hop : op ≠ .nop ∧ op ≠ .inp ∧ op ≠ .out
    · exact .code (.inr hop) (exists_code_mem_instruction hw hop first)
    · cases hf : fits target (.code op operands) with
      | true =>
        rw [instruction_of_fits hf]
        exact .code (.inl (of_decide_eq_true hf)) ⟨op, operands, List.mem_cons_self⟩
      | false =>
        have hlt := lt_tier_of_fits hf
        have hcases : op = .nop ∨ op = .inp ∨ op = .out := by
          rwa [not_and_or, not_and_or, not_not, not_not, not_not] at hop
        rcases hcases with rfl | rfl | rfl
        · rw [instruction_of_none hf rfl]
          exact .nothing operands hlt
        · rw [instruction_of_none hf rfl]
          exact .warning operands (.inl rfl) hlt
        · rw [instruction_of_none hf rfl]
          exact .warning operands (.inr rfl) hlt
  · rw [instruction_of_fits rfl]
    exact .note n

end Lowering

/-! ## What the peephole pass retains -/

namespace Peephole

variable {settings : Peephole}

/-- Whether an instruction is a placed label, or a pragma that is not left out. -/
def retains (settings : Peephole) : Instruction → Bool
  | .note (.markLabel _) => true
  | .note (.pragma _) => !settings.pragmas
  | _ => false

theorem filter_retains_canonical (kept : List Instruction) {i : Instruction}
    (h : settings.retains i = false) :
    (settings.canonical i :: kept).filter settings.retains = kept.filter settings.retains := by
  refine List.filter_cons_of_neg ?_
  unfold canonical
  split
  · split <;> exact Bool.false_ne_true
  · simp [h]

/-- Taking in an instruction takes nothing away that is retained, and adds nothing but the
    instruction. -/
theorem filter_retains_push (kept : List Instruction) (i : Instruction) :
    (settings.push kept i).filter settings.retains = (i :: kept).filter settings.retains := by
  unfold push
  split
  · next n =>
    split
    · next hd =>
      rw [List.filter_cons_of_neg]
      cases n with
      | markLabel => cases hd
      | pragma => simpa [retains, drops] using hd
      | _ => exact Bool.false_ne_true
    · rfl
  · next popped =>
    split
    · split
      · next comments pushed before hp =>
        obtain ⟨rfl, -⟩ := pendingPush?_eq_some hp
        have hkept : (comments ++ before).filter settings.retains =
            (comments ++ .code .psh [pushed] :: before).filter settings.retains := by
          rw [List.filter_append, List.filter_append, List.filter_cons_of_neg Bool.false_ne_true]
        rw [List.filter_cons_of_neg Bool.false_ne_true, ← hkept]
        split
        · rfl
        · refine filter_retains_canonical _ ?_
          cases pushed <;> rfl
      · rfl
    · rfl
  · next _ hnote _ =>
    have hi : settings.retains i = false := by
      cases i with
      | note n => exact (hnote n rfl).elim
      | code op operands => rfl
    rw [filter_retains_canonical kept hi, List.filter_cons_of_neg (by simp [hi])]

/-- The pass leaves labels and pragmas as they are, in order. -/
theorem filter_retains_apply (settings : Peephole) (stream : List Instruction) :
    (settings.apply stream).filter settings.retains = stream.filter settings.retains := by
  suffices h : ∀ kept, (stream.foldl settings.push kept).reverse.filter settings.retains =
      (kept.reverse ++ stream).filter settings.retains from h []
  induction stream with
  | nil => exact fun kept => by rw [List.foldl_nil, List.append_nil]
  | cons i rest ih =>
    intro kept
    have hpush : (settings.push kept i).reverse.filter settings.retains =
        (kept.reverse ++ [i]).filter settings.retains := by
      rw [List.filter_reverse, filter_retains_push, ← List.filter_reverse, List.reverse_cons]
    rw [List.foldl_cons, ih, List.filter_append, hpush, ← List.filter_append,
      List.append_assoc, List.singleton_append]

end Peephole

/-! ## Lowered programs -/

namespace Lowering

variable {config : Config} {settings : Peephole} {program : Program} {lowered : Lowered}

theorem filter_retains_declare (highest : Nat) (stream : List Instruction) :
    (stream.map (declare highest)).filter settings.retains = stream.filter settings.retains := by
  induction stream with
  | nil => rfl
  | cons i rest ih =>
    rw [List.map_cons, List.filter_cons, List.filter_cons, ih]
    unfold declare
    split
    · rfl
    · rfl

theorem fits_declare (highest : Nat) (i : Instruction) :
    fits target (declare highest i) = fits target i := by
  unfold declare
  split <;> rfl

/-- What the peephole pass puts into a stream is for every target. -/
theorem fits_of_rewrites {stream stream' : List Instruction}
    (h : Peephole.Rewrites stream stream') (hs : ∀ i ∈ stream, fits target i = true) :
    ∀ i ∈ stream', fits target i = true := by
  obtain ⟨before, after, h⟩ := h
  simp only [List.forall_mem_append] at hs ⊢
  refine ⟨hs.1, fun i hi => ?_, hs.2.2⟩
  rcases h.mem_new hi with hold | ⟨op, operands, rfl, rfl | rfl, -⟩
  · exact hs.2.1 i hold
  · exact fits_of_tier rfl operands
  · exact fits_of_tier rfl operands

theorem fits_of_mem_apply {stream : List Instruction} (settings : Peephole)
    (hs : ∀ i ∈ stream, fits target i = true) :
    ∀ i ∈ settings.apply stream, fits target i = true :=
  settings.keeps_apply fits_of_rewrites hs

theorem fits_of_mem_expanded (config : Config) (program : Program) :
    ∀ i ∈ (expanded config program).instructions, fits config.maxTier i = true := by
  intro i hi
  obtain ⟨j, -, n, hj⟩ := exists_of_mem_sequence hi
  exact fits_of_mem_instruction hj

theorem fits_of_mem_lowered (h : lower config settings program = .ok lowered) :
    ∀ i ∈ lowered.program.instructions, fits config.maxTier i = true := by
  obtain ⟨highest, -, -, hi, -⟩ := exists_of_lower h
  rw [hi, List.forall_mem_map]
  intro i hmem
  rw [fits_declare]
  exact fits_of_mem_apply settings (fits_of_mem_expanded config program) i hmem

/-- Labels and pragmas of a program are there, in order, in what it is lowered to. -/
theorem filter_retains_sublist (h : lower config settings program = .ok lowered) :
    (program.instructions.filter settings.retains).Sublist lowered.program.instructions := by
  obtain ⟨highest, -, -, hi, -⟩ := exists_of_lower h
  have hexpanded : (program.instructions.filter settings.retains).Sublist
      (expanded config program).instructions := by
    refine filter_sublist_sequence (fun i _ hr n => ?_) _
    cases i with
    | note n => rw [instruction_of_fits rfl]
    | code => cases hr
  -- neither the pass nor what is stated at last touches what is retained
  have hlowered : (expanded config program).instructions.filter settings.retains =
      lowered.program.instructions.filter settings.retains := by
    rw [hi, filter_retains_declare, Peephole.filter_retains_apply]
  have hfiltered := hexpanded.filter settings.retains
  rw [List.filter_filter, hlowered] at hfiltered
  simp only [Bool.and_self] at hfiltered
  exact hfiltered.trans List.filter_sublist

/-- Lowering ends: no lowering has others as part of it without end, and what it gives is what
    the recursion says. Before the stream is simplified, every instruction has left what it
    should; what is lowered at last fits the target, and retains labels and pragmas in order. -/
theorem fits_of_lower (config : Config) (settings : Peephole) {program : Program}
    (hw : ∀ i ∈ program.instructions, i.WellFormed) :
    (∀ context, WellFounded (Nested config.maxTier context) ∧
      instruction config.maxTier context =
        unbounded config.maxTier context (instruction config.maxTier context)) ∧
    (∃ pieces : Pieces, pieces.source = program.instructions ∧
      pieces.target = (expanded config program).instructions ∧
      ∀ p ∈ pieces, ∃ i, p.1 = [i] ∧ Leaves config.maxTier i p.2) ∧
    ∀ lowered, lower config settings program = .ok lowered →
      lowered.program.instructions = (settings.apply (expanded config program).instructions).map
        (declare (lowered.registersRequired - 1)) ∧
      (∀ i ∈ lowered.program.instructions, fits config.maxTier i = true) ∧
      (program.instructions.filter settings.retains).Sublist lowered.program.instructions := by
  refine ⟨fun context => ⟨wellFounded_nested _ _, instruction_eq_unbounded _ _⟩,
    ⟨blocks config.maxTier ⟨scratch program, config.wordBits⟩ program.labels.nextId
      program.instructions, source_blocks _ _ _ _, target_blocks _ _ _ _, fun p hp => ?_⟩,
    fun lowered h => ⟨?_, fits_of_mem_lowered h, filter_retains_sublist h⟩⟩
  · obtain ⟨i, hi, n, rfl⟩ := mem_blocks hp
    exact ⟨i, rfl, leaves_instruction (hw i hi) n⟩
  · obtain ⟨highest, -, hr, hi, -⟩ := exists_of_lower h
    rw [hi, hr, Nat.add_sub_cancel]

/-- A program with a label and a pragma that divides what it reads, and has data of four words. -/
def reporting : Program where
  instructions :=
    [.note (.pragma "aloud"),
      .note (.markLabel (.anonymous 0)),
      .code .inp [.register 1, .immediate 0],
      .code .div [.register 1, .register 1, .immediate 3],
      .code .out [.immediate 0, .register 1],
      .code .nop [],
      .code .bnz [.label (.anonymous 0)],
      .code .dq [.immediate 70000]]
  labels := { nextId := 1 }

/-- Input, output and data are lowered to nothing but what the least tier executes, and the label
    and the pragma are kept in their order. -/
theorem fits_of_lower_reporting :
    (∀ i ∈ reporting.instructions, i.WellFormed) ∧
      lower { maxTier := .core } .standard reporting =
        .ok (lowering { maxTier := .core } .standard reporting) ∧
      (∀ i ∈ (lowering { maxTier := .core } .standard reporting).program.instructions,
        fits .core i = true) ∧
      [.note (.pragma "aloud"), .note (.markLabel (.anonymous 0))].Sublist
        (lowering { maxTier := .core } .standard reporting).program.instructions := by
  have hw : ∀ i ∈ reporting.instructions, i.WellFormed := by decide
  have hl : lower { maxTier := .core } .standard reporting =
      .ok (lowering { maxTier := .core } .standard reporting) :=
    lower_eq_ok_lowering (by decide +kernel)
  obtain ⟨-, -, hfits⟩ := fits_of_lower { maxTier := .core } .standard hw
  obtain ⟨-, hfits, hretained⟩ := hfits _ hl
  exact ⟨hw, hl, hfits, hretained⟩

end Lowering
end Wordcode
