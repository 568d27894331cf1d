import Wordcode.Proofs.Assembly
import Wordcode.Proofs.Lowering.Blocks
import Wordcode.Proofs.Peephole.Rewriting

/-!
# Lowered streams

What is lowered from a checked stream is checked again. An expansion takes its labels from
where the table of the program ends, so they differ from all that are there, and places
each of them once; all else in it is well-formed because the instruction is. The
peephole pass leaves all labels in place, and builds its moves from operands that are
already there. At last the stream states a register index that is no less than any it
names, those that expansions borrow and the scratch register among them.

* `Lowering.Introduces`: what becomes of instructions, with labels from a range;
* `Lowering.introduces_stream`: the labels of a lowered program;
* `Peephole.wired_apply`: the peephole pass keeps a stream wired;
* `Lowering.checked_of_lower`: a lowered stream is checked;
* `Source.safe_assembleText`: what is assembled, and what is lowered from it, is safe.
-/

namespace Wordcode

open Instruction

/-! ## Labels and operands of expansions -/

namespace Expansion

variable {context : Context} {op : Opcode} {first count : Nat} {d x y : Operand}
  {given : List Operand} {expansion : Expansion}

theorem marks_mark_cons (id : Nat) (rest : List Instruction) :
    marks (mark id :: rest) = id :: marks rest := rfl

theorem marks_copy_cons (t : Nat) (x : Operand) (rest : List Instruction) :
    marks (copy t x :: rest) = marks rest := by
  cases x <;> rfl

theorem marks_save (registers : List Nat) : marks (save registers) = [] :=
  List.filterMap_eq_nil_iff.2 (List.forall_mem_map.2 fun _ _ => rfl)

theorem marks_restore (registers : List Nat) : marks (restore registers) = [] :=
  List.filterMap_eq_nil_iff.2 (List.forall_mem_map.2 fun _ _ => rfl)

theorem marks_announce (first count : Nat) : marks (announce first count) = [] :=
  List.filterMap_eq_nil_iff.2 (List.forall_mem_map.2 fun _ _ => rfl)

theorem marks_load {spare : List Nat} {index : Nat} {load : List Instruction}
    (h : divisor spare y = some (index, load)) : marks load = [] := by
  unfold divisor at h
  split at h
  · cases h
    rfl
  · split at h
    · cases h
      exact marks_copy_cons _ _ []
    · cases h

theorem marks_multiply (h : multiply context first d x y = some expansion) :
    marks expansion.body = List.range' first expansion.labels := by
  unfold multiply at h
  split at h
  · cases h
    simp only [marks_append, marks_save, marks_restore, marks_announce, marks_copy_cons]
    rfl
  · cases h

theorem marks_divide (h : divide context first d x y = some expansion) :
    marks expansion.body = List.range' first expansion.labels := by
  unfold divide at h
  split at h
  · obtain ⟨⟨index, load⟩, hd, h⟩ := Option.bind_eq_some_iff.1 h
    cases h
    simp only [marks_append, marks_save, marks_restore, marks_announce, marks_load hd,
      marks_mark_cons, marks_copy_cons]
    rfl
  · cases h

theorem marks_modulo (h : modulo context first d x y = some expansion) :
    marks expansion.body = List.range' first expansion.labels := by
  unfold modulo at h
  obtain ⟨⟨index, load⟩, hd, h⟩ := Option.bind_eq_some_iff.1 h
  cases h
  simp only [marks_append, marks_save, marks_restore, marks_announce, marks_load hd,
    marks_copy_cons]
  rfl

theorem marks_shiftBy {shift : Opcode} (h : shiftBy shift context first d x y = some expansion) :
    marks expansion.body = List.range' first expansion.labels := by
  unfold shiftBy at h
  split at h
  · cases h
    simp only [marks_append, marks_save, marks_restore, marks_announce, marks_copy_cons]
    rfl
  · cases h

/-- An expansion places each of its labels once, in order. -/
theorem marks_of_expand (h : expand? context first op given = some expansion) :
    marks expansion.body = List.range' first expansion.labels := by
  unfold expand? at h
  split at h
  · exact marks_multiply h
  · exact marks_divide h
  · exact marks_modulo h
  · exact marks_shiftBy h
  · exact marks_shiftBy h
  -- calls have one label, all others none
  · cases h
    rfl
  · cases h
    rfl
  · cases h
    rfl
  · cases h
    exact List.filterMap_eq_nil_iff.2 (List.forall_mem_map.2 fun _ _ => rfl)
  · cases h
    rfl
  · cases h

theorem operands_copy (t : Nat) (x : Operand) : (copy t x).operands = [.register t, x] := by
  cases x <;> rfl

variable {i : Instruction}

/-- The parts of an expansion are well-formed if the instruction is. -/
theorem Part.wellFormed (h : Part op given first count i) (hw : (code op given).WellFormed) :
    i.WellFormed := by
  cases h with
  | @copy t x hx => cases x <;> rfl
  | @jump branch k hb hk => cases branch <;> first | rfl | cases hb
  | @onto u j hs ht => exact (congrArg (Signature.accepts · _) hs).trans rfl
  | @combine b j k hs ht => exact (congrArg (Signature.accepts · _) hs).trans rfl
  | @deliver d j hs hd =>
    obtain ⟨t, x, y, rfl⟩ := hw.exists_ternary hs
    cases hd
    rfl
  | @go x hop hx => cases x <;> rfl
  | _ => rfl

/-- A label in an expansion is its own or stands in the instruction. Its own labels are
    numbered from `first` and have no names. -/
theorem Part.exists_label (h : Part op given first count i) {l : Label}
    (hl : .label l ∈ i.operands) : .label l ∈ given ∨ ∃ k < count, l = .anonymous (first + k) := by
  have hown {k : Nat} (hk : k < count) (he : Operand.label l = .label (.anonymous (first + k))) :
      ∃ k < count, l = .anonymous (first + k) :=
    ⟨k, hk, Operand.label.inj he⟩
  cases h with
  | @copy t x hx =>
    rw [operands_copy] at hl
    rcases List.mem_cons.1 hl with hl | hl
    · cases hl
    · cases List.mem_singleton.1 hl
      exact .inl hx
  | announce k hk => exact .inr (hown hk (List.mem_singleton.1 hl))
  | mark k hk => exact .inr (hown hk (List.mem_singleton.1 hl))
  | jump k hb hk => exact .inr (hown hk (List.mem_singleton.1 hl))
  | site k hop hk => exact .inr (hown hk (List.mem_singleton.1 hl))
  | parity k j hk =>
    rcases List.mem_cons.1 hl with hl | hl
    · exact .inr (hown hk hl)
    · cases List.mem_singleton.1 hl
  | @deliver d j hs hd =>
    rcases List.mem_cons.1 hl with rfl | hl
    · exact .inl (List.mem_of_mem_head? hd)
    · simp [Operand.zero] at hl
  | @go x hop hx =>
    cases List.mem_singleton.1 hl
    exact .inl hx
  | _ =>
    simp [Instruction.operands, Expansion.clear, Expansion.compareZero, Expansion.onto,
      Expansion.combine, Operand.zero] at hl

theorem Part.label (h : Part op given first count i) {l : Label} (hl : .label l ∈ i.operands) :
    .label l ∈ given ∨ first ≤ l.id ∧ l.id < first + count := by
  refine (h.exists_label hl).imp_right ?_
  rintro ⟨k, hk, rfl⟩
  exact ⟨Nat.le_add_right first k, Nat.add_lt_add_left hk first⟩

end Expansion

/-! ## Labels and operands of lowered instructions -/

namespace Lowering

/-- What `stream` becomes when labels from `first` up to `last` are free: each of them is
    placed once, beside them only labels of the stream are named, and all notes stay. -/
structure Introduces (stream : List Instruction) (first last : Nat) (lowered : List Instruction) :
    Prop where
  le : first ≤ last
  marks : (marks lowered).Perm (marks stream ++ List.range' first (last - first))
  wellFormed : (∀ i ∈ stream, i.WellFormed) → ∀ i ∈ lowered, i.WellFormed
  labels : ∀ i ∈ lowered, ∀ l : Label, .label l ∈ i.operands →
    (∃ j ∈ stream, .label l ∈ j.operands) ∨ first ≤ l.id ∧ l.id < last
  notes : ∀ n, .note n ∈ stream → .note n ∈ lowered

namespace Introduces

variable {stream stream' lowered lowered' : List Instruction} {first next last : Nat}

theorem range'_append (h : first ≤ next) (h' : next ≤ last) :
    List.range' first (next - first) ++ List.range' next (last - next) =
      List.range' first (last - first) := by
  have hnext : next = first + (next - first) := by omega
  have hsum : next - first + (last - next) = last - first := by omega
  rw [← hsum, ← List.range'_append_1, ← hnext]

theorem refl (stream : List Instruction) (first : Nat) :
    Introduces stream first first stream where
  le := Nat.le_refl first
  marks := by
    rw [Nat.sub_self, List.range'_zero, List.append_nil]
  wellFormed h := h
  labels i hi _ hl := .inl ⟨i, hi, hl⟩
  notes _ h := h

theorem trans (h : Introduces stream first next lowered)
    (h' : Introduces lowered next last lowered') : Introduces stream first last lowered' where
  le := Nat.le_trans h.le h'.le
  marks := by
    have := h'.marks.trans (h.marks.append_right (List.range' next (last - next)))
    rwa [List.append_assoc, range'_append h.le h'.le] at this
  wellFormed hw := h'.wellFormed (h.wellFormed hw)
  labels i hi l hl := by
    rcases h'.labels i hi l hl with ⟨j, hj, hl⟩ | hlt
    · rcases h.labels j hj l hl with hgiven | hlt
      · exact .inl hgiven
      · exact .inr ⟨hlt.1, Nat.lt_of_lt_of_le hlt.2 h'.le⟩
    · exact .inr ⟨Nat.le_trans h.le hlt.1, hlt.2⟩
  notes n hn := h'.notes n (h.notes n hn)

/-- Streams that are introduced one after the other are introduced together. -/
theorem append (h : Introduces stream first next lowered)
    (h' : Introduces stream' next last lowered') :
    Introduces (stream ++ stream') first last (lowered ++ lowered') where
  le := Nat.le_trans h.le h'.le
  marks := by
    rw [marks_append, marks_append, ← range'_append h.le h'.le]
    refine (h.marks.append h'.marks).trans ?_
    rw [List.append_assoc, List.append_assoc]
    exact (List.perm_append_comm_assoc _ _ _).append_left _
  wellFormed hw := by
    rw [List.forall_mem_append] at hw ⊢
    exact ⟨h.wellFormed hw.1, h'.wellFormed hw.2⟩
  labels i hi l hl := by
    rcases List.mem_append.1 hi with hi | hi
    · rcases h.labels i hi l hl with ⟨j, hj, hl⟩ | hlt
      · exact .inl ⟨j, List.mem_append_left _ hj, hl⟩
      · exact .inr ⟨hlt.1, Nat.lt_of_lt_of_le hlt.2 h'.le⟩
    · rcases h'.labels i hi l hl with ⟨j, hj, hl⟩ | hlt
      · exact .inl ⟨j, List.mem_append_right _ hj, hl⟩
      · exact .inr ⟨Nat.le_trans h.le hlt.1, hlt.2⟩
  notes n hn := List.mem_append.2 ((List.mem_append.1 hn).imp (h.notes n) (h'.notes n))

/-- Notes that name no label may stand before what an instruction becomes. -/
theorem comment (h : Introduces stream first last lowered) (text : String) :
    Introduces stream first last (.note (.comment text) :: lowered) where
  le := h.le
  marks := h.marks
  wellFormed hw := List.forall_mem_cons.2 ⟨rfl, h.wellFormed hw⟩
  labels := List.forall_mem_cons.2 ⟨fun _ hl => absurd hl List.not_mem_nil, h.labels⟩
  notes n hn := List.mem_cons_of_mem _ (h.notes n hn)

end Introduces

variable {target : Tier} {context : Expansion.Context}

/-- An expansion introduces its labels. -/
theorem introduces_expand {op : Opcode} {operands : List Operand} {first : Nat}
    {expansion : Expansion} (h : Expansion.expand? context first op operands = some expansion) :
    Introduces [.code op operands] first (first + expansion.labels) expansion.body where
  le := Nat.le_add_right _ _
  marks := by
    rw [Expansion.marks_of_expand h, Nat.add_sub_cancel_left]
    rfl
  wellFormed hw i hi := (Expansion.part_of_expand h i hi).wellFormed (hw _ List.mem_cons_self)
  labels i hi l hl := by
    rcases (Expansion.part_of_expand h i hi).label hl with hgiven | hown
    · exact .inl ⟨_, List.mem_cons_self, hgiven⟩
    · exact .inr hown
  notes n hn := by cases List.mem_singleton.1 hn

/-- What is left in the place of an instruction that has no expansion introduces no labels. -/
theorem introduces_residue (op : Opcode) (operands : List Operand) (first : Nat) :
    Introduces [.code op operands] first first (residue op operands) := by
  have hmarks : marks (residue op operands) = [] := by
    unfold residue
    split <;> rfl
  have hnotes : ∀ i ∈ residue op operands, i.WellFormed ∧ i.operands = [] := by
    unfold residue
    split
    · exact fun _ hi => absurd hi List.not_mem_nil
    · exact List.forall_mem_cons.2 ⟨⟨rfl, rfl⟩, List.forall_mem_singleton.2 ⟨rfl, rfl⟩⟩
  refine ⟨Nat.le_refl first, ?_, fun _ i hi => (hnotes i hi).1, fun i hi l hl => ?_, fun n hn => ?_⟩
  · rw [Nat.sub_self, hmarks]
    exact .refl []
  · rw [(hnotes i hi).2] at hl
    exact absurd hl List.not_mem_nil
  · cases List.mem_singleton.1 hn

theorem introduces_sequence {lowerOne : Nat → Instruction → List Instruction × Nat}
    (h : ∀ first i, Introduces [i] first (lowerOne first i).2 (lowerOne first i).1)
    (first : Nat) (stream : List Instruction) :
    Introduces stream first (sequence lowerOne first stream).2
      (sequence lowerOne first stream).1 := by
  induction stream generalizing first with
  | nil => exact .refl [] first
  | cons i rest ih => exact (h first i).append (ih (lowerOne first i).2)

/-- By induction on how often an instruction can be expanded. -/
theorem introduces_instructionAt (depth first : Nat) (i : Instruction) :
    Introduces [i] first (instructionAt target context depth first i).2
      (instructionAt target context depth first i).1 := by
  induction depth generalizing first i with
  | zero =>
    cases i with
    | note n => exact .refl _ first
    | code op operands =>
      unfold instructionAt
      split
      · exact .refl _ first
      · exact introduces_residue op operands first
  | succ depth ih =>
    cases hf : fits target i with
    | true =>
      rw [instructionAt_of_fits hf]
      exact .refl _ first
    | false =>
      cases i with
      | note n => cases hf
      | code op operands =>
        cases he : Expansion.expand? context first op operands with
        | none =>
          rw [instructionAt_of_none hf he]
          exact introduces_residue op operands first
        | some expansion =>
          rw [instructionAt_succ hf he]
          -- An expansion introduces its labels before those of its own instructions.
          exact ((introduces_expand he).trans (introduces_sequence ih _ _)).comment _

/-- A program is lowered with labels from where its table ends to where the new one does. -/
theorem introduces_stream (target : Tier) (context : Expansion.Context) (program : Program) :
    Introduces program.instructions program.labels.nextId
      (Lowering.stream target context program).labels.nextId
      (Lowering.stream target context program).instructions :=
  introduces_sequence (fun first i => introduces_instructionAt (depth i) first i) _ _

/-- A program stays wired when its instructions are lowered, if its table knows its labels. -/
theorem wired_stream {program : Program} (h : Wired program.instructions)
    (hlt : ∀ id ∈ marks program.instructions, id < program.labels.nextId) :
    Wired (Lowering.stream target context program).instructions := by
  have hi := introduces_stream target context program
  have hmem (id : Nat) : id ∈ marks (Lowering.stream target context program).instructions ↔ _ :=
    hi.marks.mem_iff
  refine ⟨hi.wellFormed h.wellFormed, ?_, ?_⟩
  · rw [hi.marks.nodup_iff, List.nodup_append]
    refine ⟨h.nodup, List.nodup_range', fun id hid id' hid' he => ?_⟩
    have := hlt id hid
    have := (List.mem_range'_1.1 hid').1
    omega
  · intro i him l hl
    rw [hmem, List.mem_append, List.mem_range'_1]
    rcases hi.labels i him l hl with ⟨j, hj, hl⟩ | ⟨hge, hle⟩
    · exact .inl (h.marked j hj l hl)
    · exact .inr ⟨hge, by omega⟩

end Lowering

/-! ## The peephole pass -/

namespace Peephole

variable {stream stream' : List Instruction}

theorem Rewrites.wired (h : Rewrites stream stream') (hw : Wired stream) : Wired stream' := by
  obtain @⟨old, new, before, after, hs⟩ := h
  have hmarks : marks (before ++ (new ++ after)) = marks (before ++ (old ++ after)) := by
    simp only [marks_append, hs.marks_eq_nil]
  obtain ⟨hwell, hnodup, hmarked⟩ := hw
  simp only [List.forall_mem_append] at hwell hmarked
  refine ⟨?_, hmarks ▸ hnodup, ?_⟩
  · simp only [List.forall_mem_append]
    exact ⟨hwell.1, hs.wellFormed hwell.2.1, hwell.2.2⟩
  · simp only [List.forall_mem_append, hmarks]
    refine ⟨hmarked.1, fun i hi l hl => ?_, hmarked.2.2⟩
    rcases hs.exists_operand hi hl with hzero | ⟨j, hj, hl⟩
    · cases hzero
    · exact hmarked.2.1 j hj l hl

theorem Rewrites.maxReg_mem (h : Rewrites stream stream') {index : Nat}
    (hi : .note (.maxReg index) ∈ stream) : .note (.maxReg index) ∈ stream' := by
  obtain @⟨old, new, before, after, hs⟩ := h
  simp only [List.mem_append] at hi ⊢
  rcases hi with hi | hi | hi
  · exact .inl hi
  · exact absurd hi (hs.maxReg_not_mem index)
  · exact .inr (.inr hi)

/-- The peephole pass keeps a stream wired, and all that it states about registers. -/
theorem wired_apply (settings : Peephole) (hw : Wired stream) :
    Wired (settings.apply stream) ∧
      ∀ index, .note (.maxReg index) ∈ stream → .note (.maxReg index) ∈ settings.apply stream :=
  ⟨settings.keeps_apply Rewrites.wired hw,
    fun _ hi => settings.keeps_apply (fun h hi => h.maxReg_mem hi) hi⟩

end Peephole

/-! ## Lowered programs -/

theorem wellFormed_declare {index : Nat} {i : Instruction} (h : i.WellFormed) :
    (Lowering.declare index i).WellFormed := by
  unfold Lowering.declare
  split
  · rfl
  · exact h

/-- A stated register index is a number, so labels and registers stay. -/
theorem mem_operands_declare {index : Nat} {i : Instruction} {x : Operand}
    (hx : x ∈ (Lowering.declare index i).operands) (hn : ∀ n, x ≠ .immediate n) :
    x ∈ i.operands := by
  unfold Lowering.declare at hx
  split at hx
  · cases List.mem_singleton.1 hx
    exact absurd rfl (hn index)
  · exact hx

/-- All that is stated about registers is the index that was given. -/
theorem eq_of_maxReg_mem_declare {stream : List Instruction} {index highest : Nat}
    (h : .note (.maxReg index) ∈ stream.map (Lowering.declare highest)) : index = highest := by
  obtain ⟨i, -, he⟩ := List.mem_map.1 h
  unfold Lowering.declare at he
  split at he
  · cases he
    rfl
  · next hne => exact absurd he (hne index)

theorem Wired.declare {stream : List Instruction} (h : Wired stream) (index : Nat) :
    Wired (stream.map (Lowering.declare index)) := by
  refine ⟨?_, by rw [marks_map_declare]; exact h.nodup, ?_⟩
  · exact List.forall_mem_map.2 fun i hi => wellFormed_declare (h.wellFormed i hi)
  · rw [List.forall_mem_map, marks_map_declare]
    exact fun i hi l hl => h.marked i hi l (mem_operands_declare hl (by simp))

namespace Lowering

/-- A lowered stream is checked, and states no register index from the required number of
    registers on. -/
theorem checked_of_lower {config : Config} {settings : Peephole} {program : Program}
    {lowered : Lowered} (hc : Checked program.instructions)
    (hlt : ∀ id ∈ marks program.instructions, id < program.labels.nextId)
    (h : lower config settings program = .ok lowered) :
    Checked lowered.program.instructions ∧
      ∀ index, .note (.maxReg index) ∈ lowered.program.instructions →
        index < lowered.registersRequired := by
  obtain ⟨highest, hh, hr, hi, -⟩ := exists_of_lower h
  obtain ⟨stated, hs, -⟩ := hc.registers
  have hexpanded := introduces_stream config.maxTier ⟨scratch program, config.wordBits⟩ program
  obtain ⟨hw, hkept⟩ := Peephole.wired_apply settings (wired_stream hc.toWired hlt)
  rw [hi, hr]
  refine ⟨⟨hw.declare highest, highest, ?_, ?_⟩, ?_⟩
  · exact List.mem_map.2 ⟨_, hkept stated (hexpanded.notes _ hs), rfl⟩
  · rw [List.forall_mem_map]
    intro i him j hj
    calc j ≤ highestRegister (settings.apply (expanded config program).instructions) :=
          le_highestRegister him (mem_operands_declare hj (by simp))
      _ ≤ highest := hh ▸ Nat.le_max_left _ _
  · intro index hindex
    rw [eq_of_maxReg_mem_declare hindex]
    exact Nat.lt_succ_self _

end Lowering

/-- The programs of a text, and all that are lowered from it, are safe: a machine refuses them
    only if it is too small, which for a lowered program and enough registers does not mean
    the registers, and their runs raise no static fault. -/
theorem Source.safe_assembleText {text : String} {program : Program}
    (h : assembleText text = .ok program) :
    Safe program.instructions ∧
      ∀ (config : Config) (settings : Peephole) (lowered : Lowered),
        Lowering.lower config settings program = .ok lowered →
        Safe lowered.program.instructions ∧
          ∀ {Bus : Type} (m : Machine Bus), lowered.registersRequired ≤ m.config.registers →
            ∀ needed available, (m.load lowered.program.instructions).2 ≠
              .error (.insufficientRegisters needed available) := by
  obtain ⟨hc, hmarks⟩ := checked_of_assemble h
  refine ⟨hc.safe, fun config settings lowered hl => ?_⟩
  obtain ⟨hlowered, hstated⟩ := Lowering.checked_of_lower hc
    (fun id hid => List.mem_range.1 (hmarks ▸ hid)) hl
  refine ⟨hlowered.safe, fun {_} m hm needed available he => ?_⟩
  cases LoadError.arises_of_load he with
  | insufficientRegisters hi hle =>
    have := hstated needed hi
    omega

/-- The program of a text, or the empty one if there is none. -/
def Source.assembled (text : String) : Program := (assembleText text).toOption.getD {}

/-- A text with a label and a macro, in which a number is halved until nothing is left of it. -/
def halving : String :=
  "@macro begin halve\nDIV R1, R1, 2\n@macro end\n.loop\n@macro halve\nBNZ .loop"

theorem Source.safe_assembleText_halving :
    assembleText halving = .ok (assembled halving) ∧
      ∃ lowered, Lowering.lower { maxTier := .core } .all (assembled halving) = .ok lowered ∧
        lowered.registersRequired = 7 ∧ Safe (assembled halving).instructions ∧
        Safe lowered.program.instructions := by
  have h : assembleText halving = .ok (assembled halving) :=
    eq_ok_of_isOk (by decide +kernel) _
  have hl := Lowering.lower_eq_ok_lowering
    (show (Lowering.lower { maxTier := .core } .all (assembled halving)).isOk = true by
      decide +kernel)
  obtain ⟨hsafe, hlowered⟩ := safe_assembleText h
  exact ⟨h, _, hl, by decide +kernel, hsafe, (hlowered _ _ _ hl).1⟩

end Wordcode
