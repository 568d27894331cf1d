import Wordcode.Proofs.Integrity
import Wordcode.Proofs.Lowering.Fitting
import Wordcode.Proofs.Relabeling

/-!
# Lowered data

Data of two and four words can be loaded as it is, or lowered to single words first. The loader
cuts a number into all of its words at once; lowering cuts data of four words in two, at twice
the width of a word, and then each half. Both come to the same: the lowered stream stands in
memory like the one that it is lowered from.

* `Image.alike_data`: numbers that are cut into the same words make no difference;
* `Lowering.lowerData`: data lowered, and all else as it is;
* `Lowering.load_lowerData`: a machine loads the same either way.
-/

namespace Wordcode

variable {Bus : Type}

open Instruction

/-! ## Numbers as data -/

namespace Image

/-- Numbers as data of a given size. -/
def data (op : Opcode) (values : List Nat) : List Instruction :=
  values.map fun value => .code op [.immediate value]

section Data

variable {config : Config} {op op' : Opcode} {values values' : List Nat}

theorem extent_data (op : Opcode) (values : List Nat) :
    extent (data op values) = values.length * op.footprint := by
  induction values with
  | nil => simp [data]
  | cons value rest ih =>
    rw [List.length_cons, Nat.succ_mul, Nat.add_comm, ← ih]
    rfl

/-- Data asks nothing of the place where it is to stand. -/
theorem foldlM_add_data (op : Opcode) (values : List Nat) (placement : Placement) :
    (data op values).foldlM (Placement.add config) placement =
      .ok ⟨placement.size + values.length * op.footprint, placement.resolution⟩ := by
  induction values generalizing placement with
  | nil =>
    rw [List.length_nil, Nat.zero_mul]
    rfl
  | cons value rest ih =>
    rw [List.length_cons, Nat.succ_mul, Nat.add_comm (rest.length * _), ← Nat.add_assoc]
    exact ih _

theorem cells_data (hop : op.isData = true) (values : List Nat) (resolution : Resolution) :
    List.flatten <$> (data op values).mapM (wordsOf config resolution) =
      .ok ((values.flatMap (Word.split · config.wordBits op.footprint)).map .data) := by
  suffices h : (data op values).mapM (wordsOf config resolution) =
      .ok (values.map fun value => (Word.split value config.wordBits op.footprint).map .data) by
    rw [h, List.map_flatMap]
    rfl
  rw [mapM_eq_ok_iff, data, List.forall₂_map_left_iff, List.forall₂_map_right_iff]
  exact List.forall₂_same.2 fun value _ => wordsOf_data hop

/-- Numbers stand in memory like others that are cut into the same words. -/
theorem alike_data (hop : op.isData = true) (hop' : op'.isData = true)
    (hlength : values.length * op.footprint = values'.length * op'.footprint)
    (hwords : values.flatMap (Word.split · config.wordBits op.footprint) =
      values'.flatMap (Word.split · config.wordBits op'.footprint)) :
    Alike config (data op values) (data op' values') where
  extent := by rw [extent_data, extent_data, hlength]
  place placement := by rw [foldlM_add_data, foldlM_add_data, hlength]
  cells resolution := by rw [cells_data hop, cells_data hop', hwords]

/-- A word of a number is cut no further. -/
theorem split_one_of_mem {value bits count word : Nat} (h : word ∈ Word.split value bits count) :
    Word.split word bits 1 = [word] := by
  have hle : word &&& Word.mask bits = word := by
    rw [Word.and_mask, Nat.mod_eq_of_lt]
    exact Word.mask_add_one bits ▸ Nat.lt_succ_of_le (Word.le_mask_of_mem_split h)
  rw [Word.split_one, hle]

/-- The two words of a number stand in memory like the number. -/
theorem alike_dd (config : Config) (value : Nat) :
    Alike config (data .dw (Word.split value config.wordBits 2)) (data .dd [value]) := by
  have hlength : (Word.split value config.wordBits 2).length = 2 :=
    length_split_footprint value config.wordBits (show Opcode.dd.isData = true from rfl)
  refine alike_data rfl rfl ?_ ?_
  · rw [hlength]
    rfl
  · calc (Word.split value config.wordBits 2).flatMap (Word.split · config.wordBits 1)
        = (Word.split value config.wordBits 2).flatMap ([·]) :=
          List.flatMap_congr fun _ h => split_one_of_mem h
      _ = Word.split value config.wordBits 2 := List.flatMap_singleton' _
      _ = [value].flatMap (Word.split · config.wordBits 2) := (List.flatMap_singleton _ _).symm

/-- The halves of a number, cut above two words, stand in memory like the number. -/
theorem alike_dq (config : Config) (value : Nat) :
    let parts := Word.halves value (Word.place config.wordBits 2)
    Alike config (data .dd [parts.high, parts.low]) (data .dq [value]) := by
  refine alike_data rfl rfl rfl ?_
  have hsplit : Word.split value config.wordBits 4 =
      Word.split (Word.halves value (Word.place config.wordBits 2)).high config.wordBits 2 ++
        Word.split (Word.halves value (Word.place config.wordBits 2)).low config.wordBits 2 :=
    Word.split_of_one_lt value config.wordBits (by decide)
  rw [List.flatMap_cons, List.flatMap_singleton, List.flatMap_singleton]
  exact hsplit.symm

end Data
end Image

/-! ## Lowered data -/

namespace Lowering

variable {config : Config} {target : Tier} {context : Expansion.Context}

/-- Data of two and four words lowered, and all else as it is. -/
def lowerData (target : Tier) (context : Expansion.Context) (first : Nat) (i : Instruction) :
    List Instruction :=
  match i with
  | .code .dd _ | .code .dq _ => (instruction target context first i).1
  | _ => [i]

/-- Two words of data, lowered. -/
theorem instruction_dd (ht : target < .complex) (first value : Nat) :
    (instruction target context first (.code .dd [.immediate value])).1 =
      .note (.comment (code .dd [.immediate value]).render) ::
        Image.data .dw (Word.split value context.wordBits 2) := by
  have he : Expansion.expand? context first .dd [.immediate value] =
      some (Expansion.doubleWord context value) := rfl
  rw [instruction_of_expand (fits_of_lt_tier ht _) he, flatMap_settle he (by decide)]
  rfl

/-- Four words of data, lowered to two words each, and these lowered in turn. -/
theorem instruction_dq (ht : target < .complex) (first value : Nat) :
    (instruction target context first (.code .dq [.immediate value])).1 =
      let parts := Word.halves value (Word.place context.wordBits 2)
      .note (.comment (code .dq [.immediate value]).render) ::
        (Image.data .dd [parts.high, parts.low]).flatMap (settle target context) := by
  rw [instruction_of_expand (fits_of_lt_tier ht _) rfl]
  rfl

theorem alike_instruction_dd (ht : target < .complex) (hbits : context.wordBits = config.wordBits)
    (first value : Nat) :
    Image.Alike config (instruction target context first (.code .dd [.immediate value])).1
      [.code .dd [.immediate value]] := by
  rw [instruction_dd ht, hbits]
  exact (Image.alike_dd config value).remark rfl

theorem alike_instruction_dq (ht : target < .complex) (hbits : context.wordBits = config.wordBits)
    (first value : Nat) :
    Image.Alike config (instruction target context first (.code .dq [.immediate value])).1
      [.code .dq [.immediate value]] := by
  rw [instruction_dq ht, hbits]
  refine .remark (.trans (.flatMap ?_) (Image.alike_dq config value)) rfl
  rw [Image.data, List.forall_mem_map]
  exact fun value _ => alike_instruction_dd ht hbits 0 value

/-- Lowered data stands in memory like the data. -/
theorem alike_lowerData (ht : target < .complex) (hbits : context.wordBits = config.wordBits)
    (first : Nat) {i : Instruction} (hw : i.WellFormed) :
    Image.Alike config (lowerData target context first i) [i] := by
  unfold lowerData
  split
  · next operands =>
    obtain ⟨value, rfl⟩ | ⟨_, h, -⟩ := hw.data rfl
    · exact alike_instruction_dd ht hbits first value
    · cases h
  · next operands =>
    obtain ⟨value, rfl⟩ | ⟨_, h, -⟩ := hw.data rfl
    · exact alike_instruction_dq ht hbits first value
    · cases h
  · exact .refl config [i]

/-- Of two words of data, single words are left and a comment. -/
theorem mem_instruction_dd (ht : target < .complex) {first value : Nat} {j : Instruction}
    (hj : j ∈ (instruction target context first (.code .dd [.immediate value])).1) :
    (∃ text, j = .note (.comment text)) ∨ ∃ word, j = .code .dw [.immediate word] := by
  rw [instruction_dd ht] at hj
  rcases List.mem_cons.1 hj with rfl | hj
  · exact .inl ⟨_, rfl⟩
  · obtain ⟨word, -, rfl⟩ := List.mem_map.1 hj
    exact .inr ⟨word, rfl⟩

theorem mem_instruction_dq (ht : target < .complex) {first value : Nat} {j : Instruction}
    (hj : j ∈ (instruction target context first (.code .dq [.immediate value])).1) :
    (∃ text, j = .note (.comment text)) ∨ ∃ word, j = .code .dw [.immediate word] := by
  rw [instruction_dq ht] at hj
  rcases List.mem_cons.1 hj with rfl | hj
  · exact .inl ⟨_, rfl⟩
  · obtain ⟨i, hi, hj⟩ := List.mem_flatMap.1 hj
    obtain ⟨half, -, rfl⟩ := List.mem_map.1 hi
    exact mem_instruction_dd ht hj

/-- Let the data of two and four words in a stream be lowered to single words. Then the stream
    takes as many words of memory, its labels resolve to the same addresses, and a machine of the
    same width loads the same cells, or refuses it for the same reason. -/
theorem load_lowerData (m : Machine Bus) (ht : target < .complex)
    (hbits : context.wordBits = m.config.wordBits) (first : Nat) {stream : List Instruction}
    (hw : ∀ i ∈ stream, i.WellFormed) :
    let lowered := stream.flatMap (lowerData target context first)
    (∀ op operands, .code op operands ∈ stream → op = .dd ∨ op = .dq →
      ∀ j ∈ lowerData target context first (.code op operands),
        (∃ text, j = .note (.comment text)) ∨ ∃ word, j = .code .dw [.immediate word]) ∧
    extent lowered = extent stream ∧
    Placement.ofStream? m.config lowered = Placement.ofStream? m.config stream ∧
    Image.ofStream? m.config lowered = Image.ofStream? m.config stream ∧
    m.load lowered = m.load stream := by
  have halike : Image.Alike m.config (stream.flatMap (lowerData target context first)) stream :=
    .flatMap fun i hi => alike_lowerData ht hbits first (hw i hi)
  refine ⟨fun op operands hi hop => ?_, halike.extent, halike.placement_eq, halike.image_eq,
    by rw [Machine.load_eq, Machine.load_eq, halike.image_eq]⟩
  have hdata : op.isData = true := by rcases hop with rfl | rfl <;> rfl
  obtain ⟨value, rfl⟩ | ⟨_, rfl, -⟩ := (hw _ hi).data hdata
  · rcases hop with rfl | rfl
    · exact fun j => mem_instruction_dd ht
    · exact fun j => mem_instruction_dq ht
  · rcases hop with h | h <;> cases h

/-- Numbers of two and four words around a label, and its address among them. -/
def tabulating : List Instruction :=
  [.code .imm [.register 1, .label (.anonymous 0)], .code .hlt [], .code .dq [.immediate 1000000],
    .note (.markLabel (.anonymous 0)), .code .dd [.immediate 5000],
    .code .dw [.label (.anonymous 0)]]

theorem load_lowerData_tabulating :
    let m := Machine.blank { wordBits := 6 } QueueBus.empty
    let lowered := tabulating.flatMap (lowerData .basic ⟨2, 6⟩ 1)
    (∀ i ∈ tabulating, i.WellFormed) ∧ lowered.length = 14 ∧
      (Image.ofStream? m.config lowered).map (·.cells.drop 2) =
        .ok ([3, 52, 9, 0, 14, 8, 6].map .data) ∧
      m.load lowered = m.load tabulating := by
  intro m lowered
  have hw : ∀ i ∈ tabulating, i.WellFormed := by decide
  obtain ⟨-, -, -, -, hload⟩ := load_lowerData m (by decide : Tier.basic < .complex)
    (show Expansion.Context.wordBits ⟨2, 6⟩ = m.config.wordBits from rfl) 1 hw
  exact ⟨hw, by decide +kernel, by decide +kernel, hload⟩

end Lowering
end Wordcode
