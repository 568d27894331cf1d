import Mathlib.Data.List.Forall2
import Mathlib.Data.List.Nodup
import Wordcode.Machine.Basic

/-!
# The layout of a loaded stream

Where the instructions of a stream stand in memory. The address of an instruction, and
of a label marked before it, is the *extent* of what precedes it in the stream.

* `Loadable`: what a stream must satisfy to be loaded, said without placing it;
* `Image.exists_ofStream?_iff`: the streams that have an image are the loadable ones;
* `Image.addressOf_eq_some_iff`: a label resolves to the address that it is marked at;
* `Image.exists_wordsOf_of_split`, `Image.located`: every instruction stands at its extent.
-/

namespace Wordcode

/-! ## Successful computations -/

section Except

variable {ε α β : Type}

theorem bind_eq_error_iff {x : Except ε α} {f : α → Except ε β} {e : ε} :
    x >>= f = .error e ↔ x = .error e ∨ ∃ a, x = .ok a ∧ f a = .error e := by
  cases x with
  | error e' => simp [bind, Except.bind]
  | ok a => simp [bind, Except.bind]

/-- A sequence succeeds if its first part does and the rest does with what this gives. -/
theorem bind_eq_ok_iff {x : Except ε α} {f : α → Except ε β} {b : β} :
    x >>= f = .ok b ↔ ∃ a, x = .ok a ∧ f a = .ok b := by
  cases x with
  | error e =>
    constructor
    · intro h
      cases h
    · rintro ⟨_, h, _⟩
      cases h
  | ok a =>
    constructor
    · exact fun h => ⟨a, rfl, h⟩
    · rintro ⟨_, h, hf⟩
      cases h
      exact hf

theorem eq_ok_of_isOk {x : Except ε α} (h : x.isOk = true) (a : α) :
    x = .ok (x.toOption.getD a) := by
  cases x with
  | error e => cases h
  | ok b => rfl

theorem forM_eq_ok_iff {f : α → Except ε Unit} {xs : List α} :
    forM xs f = .ok () ↔ ∀ x ∈ xs, f x = .ok () := by
  induction xs with
  | nil => exact iff_of_true rfl fun _ hx => absurd hx List.not_mem_nil
  | cons x xs ih =>
    rw [List.forM_cons, bind_eq_ok_iff, List.forall_mem_cons, ← ih]
    exact ⟨fun ⟨_, hx, hxs⟩ => ⟨hx, hxs⟩, fun ⟨hx, hxs⟩ => ⟨(), hx, hxs⟩⟩

/-- A function succeeds on a list if it does on each member. -/
theorem mapM_eq_ok_iff {f : α → Except ε β} {xs : List α} {ys : List β} :
    xs.mapM f = .ok ys ↔ List.Forall₂ (fun x y => f x = .ok y) xs ys := by
  induction xs generalizing ys with
  | nil =>
    rw [List.mapM_nil, List.forall₂_nil_left_iff]
    exact ⟨fun h => by cases h; rfl, fun h => by rw [h]; rfl⟩
  | cons x xs ih =>
    rw [List.mapM_cons, bind_eq_ok_iff, List.forall₂_cons_left_iff]
    constructor
    · rintro ⟨y, hy, h⟩
      obtain ⟨ys', hys', h⟩ := bind_eq_ok_iff.1 h
      cases h
      exact ⟨y, ys', hy, ih.1 hys', rfl⟩
    · rintro ⟨y, ys', hy, hys', rfl⟩
      exact ⟨y, hy, bind_eq_ok_iff.2 ⟨ys', ih.2 hys', rfl⟩⟩

theorem exists_of_mem_mapM {f : α → Except ε β} {xs : List α} {ys : List β} {y : β}
    (h : xs.mapM f = .ok ys) (hy : y ∈ ys) : ∃ x ∈ xs, f x = .ok y := by
  rw [mapM_eq_ok_iff] at h
  induction h with
  | nil => cases hy
  | @cons x _ xs _ hx _ ih =>
    rcases List.mem_cons.1 hy with rfl | hy
    · exact ⟨x, List.mem_cons_self, hx⟩
    · obtain ⟨x', hx', he⟩ := ih hy
      exact ⟨x', List.mem_cons_of_mem _ hx', he⟩

theorem exists_mapM_eq_ok_iff {f : α → Except ε β} {xs : List α} :
    (∃ ys, xs.mapM f = .ok ys) ↔ ∀ x ∈ xs, ∃ y, f x = .ok y := by
  simp only [mapM_eq_ok_iff]
  induction xs with
  | nil => simp
  | cons x xs ih =>
    rw [List.forall_mem_cons, ← ih]
    constructor
    · rintro ⟨_, hf⟩
      obtain ⟨y, ys, hy, hys, rfl⟩ := List.forall₂_cons_left_iff.1 hf
      exact ⟨⟨y, hy⟩, ys, hys⟩
    · rintro ⟨⟨y, hy⟩, ys, hys⟩
      exact ⟨y :: ys, .cons hy hys⟩

end Except

/-! ## Extents and marks -/

namespace Opcode

/-- Whether an instruction is data and not to be executed. -/
def isData : Opcode → Bool
  | .dw | .dd | .dq => true
  | _ => false

theorem footprint_pos (op : Opcode) : 0 < op.footprint := by
  cases op <;> decide

theorem footprint_of_not_isData {op : Opcode} (h : op.isData = false) : op.footprint = 1 := by
  cases op <;> simp_all [isData, footprint]

end Opcode

namespace Instruction

/-- The number of words that a stream occupies. -/
def extent : List Instruction → Nat
  | [] => 0
  | i :: rest => i.footprint + extent rest

@[simp] theorem extent_nil : extent [] = 0 := rfl

@[simp] theorem extent_cons (i : Instruction) (rest : List Instruction) :
    extent (i :: rest) = i.footprint + extent rest := rfl

@[simp] theorem extent_append (xs ys : List Instruction) :
    extent (xs ++ ys) = extent xs + extent ys := by
  induction xs with
  | nil => simp
  | cons i xs ih => simp [ih, Nat.add_assoc]

@[simp] theorem footprint_note (n : Note) : (note n).footprint = 0 := rfl

@[simp] theorem footprint_code (op : Opcode) (operands : List Operand) :
    (code op operands).footprint = op.footprint := rfl

/-- The label that an instruction places. -/
def mark? : Instruction → Option Label
  | .note (.markLabel label) => some label
  | _ => none

/-- The labels that a stream places, by identity and in order. -/
def marks (stream : List Instruction) : List Nat :=
  stream.filterMap fun i => i.mark?.map Label.id

@[simp] theorem marks_nil : marks [] = [] := rfl

@[simp] theorem marks_append (xs ys : List Instruction) : marks (xs ++ ys) = marks xs ++ marks ys :=
  List.filterMap_append

theorem marks_cons (i : Instruction) (rest : List Instruction) :
    marks (i :: rest) = (i.mark?.map Label.id).toList ++ marks rest := by
  rw [marks, List.filterMap_cons]
  cases i.mark? <;> rfl

@[simp] theorem marks_cons_mark (label : Label) (rest : List Instruction) :
    marks (.note (.markLabel label) :: rest) = label.id :: marks rest := rfl

@[simp] theorem marks_cons_code (op : Opcode) (operands : List Operand) (rest : List Instruction) :
    marks (.code op operands :: rest) = marks rest := rfl

theorem mem_marks_iff {stream : List Instruction} {id : Nat} :
    id ∈ marks stream ↔ ∃ label : Label, .note (.markLabel label) ∈ stream ∧ label.id = id := by
  simp only [marks, List.mem_filterMap, Option.map_eq_some_iff]
  constructor
  · rintro ⟨i, hi, label, hm, rfl⟩
    unfold mark? at hm
    split at hm
    · cases hm
      exact ⟨_, hi, rfl⟩
    · cases hm
  · rintro ⟨label, hi, rfl⟩
    exact ⟨_, hi, label, rfl, rfl⟩

/-- A marked label cuts the stream at its mark. -/
theorem exists_split_of_mem_marks {stream : List Instruction} {id : Nat} (h : id ∈ marks stream) :
    ∃ before label after, stream = before ++ .note (.markLabel label) :: after ∧ label.id = id := by
  obtain ⟨label, hi, rfl⟩ := mem_marks_iff.1 h
  obtain ⟨before, after, rfl⟩ := List.append_of_mem hi
  exact ⟨before, label, after, rfl, rfl⟩

/-- A label is marked at an address: what precedes its mark extends up to there. -/
def MarkedAt (stream : List Instruction) (label : Label) (address : Nat) : Prop :=
  ∃ before mark after, stream = before ++ .note (.markLabel mark) :: after ∧
    mark.id = label.id ∧ extent before = address

theorem WellFormed.length_operands {op : Opcode} {operands : List Operand}
    (h : (code op operands).WellFormed) : operands.length = op.slots.length :=
  ((Signature.accepts_iff 1 _ _).1 h).1

/-- Data is a number or, if it is a single word, a label. -/
theorem WellFormed.data {op : Opcode} {operands : List Operand} (h : (code op operands).WellFormed)
    (hd : op.isData = true) :
    (∃ value, operands = [.immediate value]) ∨ ∃ label, op = .dw ∧ operands = [.label label] := by
  have haccepts : Signature.accepts op.slots operands = true := h
  match op, hd with
  | .dw, _ =>
    obtain ⟨x, rfl⟩ := List.length_eq_one_iff.1 h.length_operands
    cases x with
    | register j => cases haccepts
    | immediate value => exact .inl ⟨value, rfl⟩
    | label label => exact .inr ⟨label, rfl, rfl⟩
  | .dd, _ | .dq, _ =>
    obtain ⟨x, rfl⟩ := List.length_eq_one_iff.1 h.length_operands
    cases x with
    | immediate value => exact .inl ⟨value, rfl⟩
    | register | label => cases haccepts

/-- A bound on the highest register is one on all that an instruction names. -/
theorem highestRegister?_le_iff {i : Instruction} {bound : Nat} :
    i.highestRegister?.getD 0 ≤ bound ↔ ∀ j, .register j ∈ i.operands → j ≤ bound := by
  have hmem (j : Nat) : .register j ∈ i.operands ↔ j ∈ i.registers := by
    rw [registers, List.mem_filterMap]
    constructor
    · exact fun hj => ⟨_, hj, rfl⟩
    · rintro ⟨_ | _ | _, hx, ⟨⟩⟩
      exact hx
  simp only [hmem, highestRegister?]
  cases hh : i.registers.max? with
  | none => simp [List.max?_eq_none_iff.1 hh]
  | some highest =>
    obtain ⟨hin, hle⟩ := List.max?_eq_some_iff.1 hh
    exact ⟨fun h j hj => Nat.le_trans (hle j hj) h, fun h => h highest hin⟩

/-- Every register that a stream names is one of the first `count`. -/
def NamesBelow (count : Nat) (stream : List Instruction) : Prop :=
  ∀ i ∈ stream, ∀ j, .register j ∈ i.operands → j < count

end Instruction

open Instruction

/-- What a stream must satisfy to be loaded. -/
structure Loadable (config : Config) (stream : List Instruction) : Prop where
  /-- No label is placed twice. -/
  nodup : (marks stream).Nodup
  registers : ∀ index, .note (.maxReg index) ∈ stream → index < config.registers
  ram : ∀ words, .note (.minRam words) ∈ stream → words ≤ config.ramWords
  fits : extent stream ≤ config.codeWords
  /-- Every label that is written as data is placed. -/
  data : ∀ op label, op.isData = true → .code op [.label label] ∈ stream → label.id ∈ marks stream

/-! ## The first pass -/

namespace Resolution

theorem bind_eq_ok_iff {resolution resolution' : Resolution} {label : Label} {address : Nat} :
    resolution.bind label address = .ok resolution' ↔
      resolution.addressOf label = none ∧
        resolution' = ⟨(label.id, address) :: resolution.bound⟩ := by
  unfold bind
  cases h : resolution.addressOf label with
  | none => simp [eq_comm]
  | some earlier => simp

theorem addressOf_congr (resolution : Resolution) {a b : Label} (h : a.id = b.id) :
    resolution.addressOf a = resolution.addressOf b := by
  rw [addressOf, addressOf, h]

end Resolution

namespace Placement

variable {config : Config}

/-- What an instruction asks of the place where it is to stand. -/
def Accepts (config : Config) (placement : Placement) (i : Instruction) : Prop :=
  (∀ label, i.mark? = some label → placement.resolution.addressOf label = none) ∧
    (∀ index, i = .note (.maxReg index) → index < config.registers) ∧
    ∀ words, i = .note (.minRam words) → words ≤ config.ramWords

/-- The placement of one more instruction, whatever it asks. -/
def extend (placement : Placement) (i : Instruction) : Placement where
  size := placement.size + i.footprint
  resolution :=
    match i.mark? with
    | some label => ⟨(label.id, placement.size) :: placement.resolution.bound⟩
    | none => placement.resolution

/-- An instruction is placed exactly if it is accepted, and it is placed at the end. -/
theorem add_eq_ok_iff {placement placement' : Placement} {i : Instruction} :
    add config placement i = .ok placement' ↔
      Accepts config placement i ∧ placement' = placement.extend i := by
  have step : add config placement i = .ok placement' ↔
      ∃ r, placement.resolve config i = .ok r ∧ placement' = ⟨placement.size + i.footprint, r⟩ := by
    rw [add, bind_eq_ok_iff]
    exact exists_congr fun r => and_congr_right fun _ =>
      ⟨fun h => by cases h; rfl, fun h => h ▸ rfl⟩
  rw [step]
  unfold resolve
  split
  · next label =>
    -- a mark: accepted exactly if the label is still free
    cases h : placement.resolution.bind label placement.size with
    | error earlier =>
      have hne : placement.resolution.addressOf label ≠ none := fun hn => by
        rw [Resolution.bind, hn] at h
        cases h
      simp [Accepts, mark?, hne]
    | ok r =>
      obtain ⟨hn, rfl⟩ := Resolution.bind_eq_ok_iff.1 h
      simp [Accepts, mark?, hn, extend]
  · next index =>
    by_cases h : index < config.registers <;> simp [Accepts, mark?, h, extend]
  · next words =>
    by_cases h : words ≤ config.ramWords <;> simp [Accepts, mark?, h, extend]
  · next hmark hreg hram =>
    have hm : i.mark? = none := by
      unfold mark?
      split
      · exact absurd rfl (hmark _)
      · rfl
    have ha : Accepts config placement i :=
      ⟨fun _ h => absurd (hm.symm.trans h) (by simp), fun _ h => absurd h (hreg _),
        fun _ h => absurd h (hram _)⟩
    simp [ha, extend, hm]

/-- Placing a stream succeeds exactly if it places no label twice and asks nothing that
    the configuration lacks. -/
theorem foldlM_add_eq_ok_iff {stream : List Instruction} {placement placement' : Placement} :
    stream.foldlM (add config) placement = .ok placement' ↔
      ((marks stream).Nodup ∧
        (∀ label : Label, label.id ∈ marks stream → placement.resolution.addressOf label = none) ∧
        (∀ index, .note (.maxReg index) ∈ stream → index < config.registers) ∧
        ∀ words, .note (.minRam words) ∈ stream → words ≤ config.ramWords) ∧
      placement' = stream.foldl extend placement := by
  induction stream generalizing placement with
  | nil =>
    simp only [List.foldlM_nil, List.foldl_nil, marks_nil, List.nodup_nil, List.not_mem_nil,
      false_implies, implies_true, and_true, true_and]
    exact ⟨fun h => by cases h; rfl, fun h => by rw [h]; rfl⟩
  | cons i rest ih =>
    rw [List.foldlM_cons, bind_eq_ok_iff, List.foldl_cons]
    simp only [add_eq_ok_iff, ih]
    constructor
    · rintro ⟨_, ⟨⟨hm, hreg, hram⟩, rfl⟩, ⟨hnd, hfree, hregs, hrams⟩, rfl⟩
      refine ⟨⟨?_, ?_, ?_, ?_⟩, rfl⟩
      · rw [marks_cons]
        cases h : i.mark? with
        | none => simpa using hnd
        | some label =>
          -- Were the label placed again in the rest, it would have to be free after it was placed.
          refine List.nodup_cons.2 ⟨fun hmem => ?_, hnd⟩
          have := hfree label hmem
          simp [extend, h, Resolution.addressOf] at this
      · intro label hl
        rw [marks_cons, List.mem_append] at hl
        rcases hl with hl | hl
        · obtain ⟨label', h', hid⟩ := Option.map_eq_some_iff.1 (Option.mem_toList.1 hl)
          rw [← Resolution.addressOf_congr _ hid]
          exact hm _ h'
        · have := hfree label hl
          unfold extend at this
          split at this
          · rw [Resolution.addressOf, List.lookup_cons] at this
            split at this
            · cases this
            · exact this
          · exact this
      · exact fun index h => (List.mem_cons.1 h).elim (fun h => hreg _ h.symm) (hregs _)
      · exact fun words h => (List.mem_cons.1 h).elim (fun h => hram _ h.symm) (hrams _)
    · rintro ⟨⟨hnd, hfree, hregs, hrams⟩, rfl⟩
      refine ⟨placement.extend i, ⟨⟨?_, ?_, ?_⟩, rfl⟩, ⟨?_, ?_, ?_, ?_⟩, rfl⟩
      · intro label h
        refine hfree label ?_
        rw [marks_cons, h]
        exact List.mem_append_left _ (by simp)
      · exact fun index h => hregs _ (h ▸ List.mem_cons_self)
      · exact fun words h => hrams _ (h ▸ List.mem_cons_self)
      · rw [marks_cons] at hnd
        exact hnd.of_append_right
      · intro label hl
        have hold := hfree label (by rw [marks_cons]; exact List.mem_append_right _ hl)
        unfold extend
        split
        · next label' h' =>
          rw [marks_cons, h'] at hnd
          -- A label of the rest is not the one placed here, so it is as free as before.
          have hne : label.id ≠ label'.id := fun e => (List.nodup_cons.1 hnd).1 (e ▸ hl)
          rw [Resolution.addressOf, List.lookup_cons, beq_eq_false_iff_ne.2 hne]
          exact hold
        · exact hold
      · exact fun index h => hregs _ (List.mem_cons_of_mem _ h)
      · exact fun words h => hrams _ (List.mem_cons_of_mem _ h)

theorem size_foldl_extend (stream : List Instruction) (placement : Placement) :
    (stream.foldl extend placement).size = placement.size + extent stream := by
  induction stream generalizing placement with
  | nil => rfl
  | cons i rest ih => rw [List.foldl_cons, ih, extent_cons, extend, Nat.add_assoc]

/-- A label that the rest of a stream does not place keeps its address. -/
theorem addressOf_foldl_extend_of_not_mem {stream : List Instruction} {label : Label}
    (h : label.id ∉ marks stream) (placement : Placement) :
    (stream.foldl extend placement).resolution.addressOf label =
      placement.resolution.addressOf label := by
  induction stream generalizing placement with
  | nil => rfl
  | cons i rest ih =>
    rw [marks_cons, List.mem_append, not_or] at h
    rw [List.foldl_cons, ih h.2]
    unfold extend
    split
    · next label' h' =>
      have hne : label.id ≠ label'.id := fun e => h.1 (by simp [h', e])
      rw [Resolution.addressOf, List.lookup_cons, beq_eq_false_iff_ne.2 hne]
      rfl
    · rfl

/-- A label is bound to the extent of what stands before its mark. -/
theorem addressOf_foldl_extend_of_mark {before after : List Instruction} {label : Label}
    (h : label.id ∉ marks after) :
    ((before ++ .note (.markLabel label) :: after).foldl extend {}).resolution.addressOf label =
      some (extent before) := by
  rw [List.foldl_append, List.foldl_cons, addressOf_foldl_extend_of_not_mem h]
  have := size_foldl_extend before {}
  simp only [Nat.zero_add] at this
  simp [extend, mark?, Resolution.addressOf, this]

/-- A label has an address exactly if it is placed. -/
theorem addressOf_foldl_extend_eq_none_iff {stream : List Instruction}
    (hn : (marks stream).Nodup) (label : Label) :
    (stream.foldl extend {}).resolution.addressOf label = none ↔ label.id ∉ marks stream := by
  constructor
  · intro ha hl
    obtain ⟨before, label', after, rfl, hid⟩ := exists_split_of_mem_marks hl
    rw [marks_append, marks_cons_mark] at hn
    have hafter := (List.nodup_cons.1 hn.of_append_right).1
    rw [← Resolution.addressOf_congr _ hid, addressOf_foldl_extend_of_mark hafter] at ha
    cases ha
  · exact fun hl => addressOf_foldl_extend_of_not_mem hl {}

end Placement

/-! ## The second pass -/

namespace Image

variable {config : Config} {stream : List Instruction} {image : Image}

theorem length_split_footprint (value bits : Nat) {op : Opcode} (h : op.isData = true) :
    (Word.split value bits op.footprint).length = op.footprint := by
  match op, h with
  | .dw, _ | .dd, _ | .dq, _ => simp [Word.split, Opcode.footprint]

theorem wordsOf_data {resolution : Resolution} {op : Opcode} {operands : List Operand}
    (h : op.isData = true) :
    wordsOf config resolution (.code op operands) =
      (datum resolution operands).map fun value =>
        (Word.split value config.wordBits op.footprint).map .data := by
  match op, h with
  | .dw, _ | .dd, _ | .dq, _ =>
    simp only [wordsOf]
    cases datum resolution operands <;> rfl

theorem wordsOf_data_eq_ok_iff {resolution : Resolution} {op : Opcode} {operands : List Operand}
    {cells : List Cell} (h : op.isData = true) :
    wordsOf config resolution (.code op operands) = .ok cells ↔
      ∃ value, datum resolution operands = .ok value ∧
        cells = (Word.split value config.wordBits op.footprint).map .data := by
  rw [wordsOf_data h]
  cases datum resolution operands with
  | error e => simp [Except.map]
  | ok value => simp [Except.map, eq_comm]

theorem wordsOf_code {resolution : Resolution} {op : Opcode} {operands : List Operand}
    (h : op.isData = false) :
    wordsOf config resolution (.code op operands) =
      .ok [.code (Decoded.ofInstruction resolution config.mask (.code op operands))] := by
  cases op <;> simp_all [Opcode.isData, wordsOf]

/-- The cells of an instruction: as many as its footprint, and data or the instruction. -/
theorem wordsOf_eq_ok {resolution : Resolution} {i : Instruction} {cells : List Cell}
    (h : wordsOf config resolution i = .ok cells) :
    cells.length = i.footprint ∧ ∀ cell ∈ cells, (∃ word, cell = .data word) ∨
      ∃ op operands, i = .code op operands ∧ op.isData = false ∧
        cell = .code (Decoded.ofInstruction resolution config.mask i) := by
  cases i with
  | note n =>
    cases h
    exact ⟨rfl, fun _ hc => absurd hc List.not_mem_nil⟩
  | code op operands =>
    cases hd : op.isData with
    | false =>
      rw [wordsOf_code hd] at h
      cases h
      refine ⟨(Opcode.footprint_of_not_isData hd).symm, fun cell hc =>
        .inr ⟨op, operands, rfl, hd, ?_⟩⟩
      exact List.mem_singleton.1 hc
    | true =>
      obtain ⟨value, -, rfl⟩ := (wordsOf_data_eq_ok_iff hd).1 h
      refine ⟨by rw [List.length_map, length_split_footprint _ _ hd]; rfl, fun cell hc => .inl ?_⟩
      obtain ⟨word, -, rfl⟩ := List.mem_map.1 hc
      exact ⟨word, rfl⟩

/-- An instruction has cells unless it is data that stands for a label without address. -/
theorem exists_wordsOf_iff {resolution : Resolution} {i : Instruction} :
    (∃ cells, wordsOf config resolution i = .ok cells) ↔
      ∀ op label, op.isData = true → i = .code op [.label label] →
        resolution.addressOf label ≠ none := by
  cases i with
  | note n => exact ⟨fun _ _ _ _ h => (nomatch h), fun _ => ⟨[], rfl⟩⟩
  | code op operands =>
    cases hd : op.isData with
    | false =>
      refine ⟨fun _ op' label h h' => ?_, fun _ => ⟨_, wordsOf_code hd⟩⟩
      cases h'
      exact absurd (hd.symm.trans h) (by simp)
    | true =>
      simp only [wordsOf_data_eq_ok_iff hd]
      constructor
      · rintro ⟨_, value, hv, -⟩ op' label - h hn
        cases h
        simp [datum, hn] at hv
      · intro h
        suffices hv : ∃ value, datum resolution operands = .ok value from
          let ⟨value, hv⟩ := hv
          ⟨_, value, hv, rfl⟩
        unfold datum
        split
        · exact ⟨_, rfl⟩
        · next label =>
          obtain ⟨address, ha⟩ := Option.ne_none_iff_exists'.1 (h op label hd rfl)
          exact ⟨address, by rw [ha]⟩
        · exact ⟨_, rfl⟩

/-- What it takes to have an image: a placement that fits, and cells of every instruction. -/
theorem ofStream?_eq_ok_iff :
    ofStream? config stream = .ok image ↔
      ∃ placement, Placement.ofStream? config stream = .ok placement ∧
        placement.size ≤ config.codeWords ∧
        ∃ cells, List.Forall₂ (fun i cs => wordsOf config placement.resolution i = .ok cs)
            stream cells ∧
          image = ⟨cells.flatten, placement.resolution⟩ := by
  rw [ofStream?, bind_eq_ok_iff]
  refine exists_congr fun placement => and_congr_right fun _ => ?_
  by_cases hs : config.codeWords < placement.size
  · simp only [hs, if_true]
    exact ⟨fun h => (nomatch h), fun ⟨h, _⟩ => absurd h (by omega)⟩
  · simp only [hs, if_false]
    have hle : placement.size ≤ config.codeWords := by omega
    simp only [hle, true_and]
    rw [bind_eq_ok_iff]
    refine exists_congr fun cells => ?_
    rw [mapM_eq_ok_iff]
    exact and_congr_right fun _ => ⟨fun h => by cases h; rfl, fun h => by rw [h]; rfl⟩

/-- The placement behind an image is that of the whole stream. -/
theorem exists_cells_of_ofStream? (h : ofStream? config stream = .ok image) :
    image.resolution = (stream.foldl Placement.extend {}).resolution ∧
      ∃ cells, List.Forall₂ (fun i cs => wordsOf config image.resolution i = .ok cs) stream cells ∧
        image.cells = cells.flatten := by
  obtain ⟨placement, hp, -, cells, hc, rfl⟩ := ofStream?_eq_ok_iff.1 h
  obtain ⟨-, rfl⟩ := Placement.foldlM_add_eq_ok_iff.1 hp
  exact ⟨rfl, cells, hc, rfl⟩

/-- The streams that have an image are the loadable ones. -/
theorem exists_ofStream?_iff : (∃ image, ofStream? config stream = .ok image) ↔
    Loadable config stream := by
  have hsize := Placement.size_foldl_extend stream {}
  simp only [Nat.zero_add] at hsize
  have hmark (label : Label) (hn : (marks stream).Nodup) :
      (stream.foldl Placement.extend {}).resolution.addressOf label ≠ none ↔
        label.id ∈ marks stream :=
    (Placement.addressOf_foldl_extend_eq_none_iff hn label).not_left
  constructor
  · rintro ⟨image, h⟩
    obtain ⟨placement, hp, hfit, cells, hc, -⟩ := ofStream?_eq_ok_iff.1 h
    obtain ⟨⟨hnd, -, hreg, hram⟩, rfl⟩ := Placement.foldlM_add_eq_ok_iff.1 hp
    refine ⟨hnd, hreg, hram, hsize ▸ hfit, fun op label hd hi => (hmark label hnd).1 ?_⟩
    have hcs := exists_mapM_eq_ok_iff.1 ⟨cells, mapM_eq_ok_iff.2 hc⟩ _ hi
    exact exists_wordsOf_iff.1 hcs op label hd rfl
  · intro h
    have hp : Placement.ofStream? config stream = .ok (stream.foldl Placement.extend {}) :=
      Placement.foldlM_add_eq_ok_iff.2
        ⟨⟨h.nodup, fun _ _ => rfl, h.registers, h.ram⟩, rfl⟩
    have hall : ∀ i ∈ stream, ∃ cs,
        wordsOf config (stream.foldl Placement.extend {}).resolution i = .ok cs := by
      intro i hi
      refine exists_wordsOf_iff.2 fun op label hd he => (hmark label h.nodup).2 ?_
      exact h.data op label hd (he ▸ hi)
    obtain ⟨cells, hc⟩ := exists_mapM_eq_ok_iff.2 hall
    exact ⟨_, ofStream?_eq_ok_iff.2 ⟨_, hp, hsize ▸ h.fits, cells, mapM_eq_ok_iff.1 hc, rfl⟩⟩

/-- A label resolves to the extent of what stands before its mark. -/
theorem addressOf_of_mark (h : ofStream? config stream = .ok image)
    {before after : List Instruction} {label : Label}
    (hs : stream = before ++ .note (.markLabel label) :: after) :
    image.resolution.addressOf label = some (extent before) := by
  rw [(exists_cells_of_ofStream? h).1]
  have hn := (exists_ofStream?_iff.1 ⟨image, h⟩).nodup
  subst hs
  rw [marks_append, marks_cons_mark] at hn
  exact Placement.addressOf_foldl_extend_of_mark (List.nodup_cons.1 hn.of_append_right).1

/-- A label that is placed nowhere is not resolved. -/
theorem addressOf_eq_none_iff (h : ofStream? config stream = .ok image) {label : Label} :
    image.resolution.addressOf label = none ↔ label.id ∉ marks stream := by
  rw [(exists_cells_of_ofStream? h).1]
  exact Placement.addressOf_foldl_extend_eq_none_iff (exists_ofStream?_iff.1 ⟨image, h⟩).nodup label

/-- A label resolves to the address that it is marked at, and to no other. -/
theorem addressOf_eq_some_iff (h : ofStream? config stream = .ok image) {label : Label}
    {address : Nat} :
    image.resolution.addressOf label = some address ↔ MarkedAt stream label address := by
  constructor
  · intro ha
    have hmem : label.id ∈ marks stream := by
      by_contra hn
      rw [(addressOf_eq_none_iff h).2 hn] at ha
      cases ha
    obtain ⟨before, mark, after, hs, hid⟩ := exists_split_of_mem_marks hmem
    rw [← Resolution.addressOf_congr _ hid, addressOf_of_mark h hs] at ha
    exact ⟨before, mark, after, hs, hid, Option.some.inj ha⟩
  · rintro ⟨before, mark, after, hs, hid, rfl⟩
    rw [← Resolution.addressOf_congr _ hid, addressOf_of_mark h hs]

/-- The cells of an instruction come after those of its predecessors. -/
theorem exists_flatten_eq_append {resolution : Resolution} {before after : List Instruction}
    {i : Instruction} {cells : List (List Cell)}
    (h : List.Forall₂ (fun i cs => wordsOf config resolution i = .ok cs) (before ++ i :: after)
      cells) :
    ∃ done words rest, cells.flatten = done ++ (words ++ rest) ∧ done.length = extent before ∧
      wordsOf config resolution i = .ok words := by
  induction before generalizing cells with
  | nil =>
    obtain ⟨words, rest, hi, -, rfl⟩ := List.forall₂_cons_left_iff.1 h
    exact ⟨[], words, rest.flatten, rfl, rfl, hi⟩
  | cons j before ih =>
    obtain ⟨first, left, hj, hleft, rfl⟩ := List.forall₂_cons_left_iff.1 h
    obtain ⟨done, words, rest, hflat, hdone, hi⟩ := ih hleft
    refine ⟨first ++ done, words, rest, ?_, ?_, hi⟩
    · rw [List.flatten_cons, hflat, List.append_assoc]
    · rw [List.length_append, hdone, (wordsOf_eq_ok hj).1, extent_cons]

/-- The cells of an instruction are found from its extent on. -/
theorem exists_wordsOf_of_split (h : ofStream? config stream = .ok image)
    {before after : List Instruction} {i : Instruction} (hs : stream = before ++ i :: after) :
    ∃ words, wordsOf config image.resolution i = .ok words ∧
      ∀ k < i.footprint, image.cells[extent before + k]? = words[k]? := by
  obtain ⟨-, cells, hc, hflat⟩ := exists_cells_of_ofStream? h
  obtain ⟨done, words, rest, happend, hdone, hi⟩ := exists_flatten_eq_append (hs ▸ hc)
  refine ⟨words, hi, fun k hk => ?_⟩
  rw [hflat, happend, ← hdone, List.getElem?_append_right (Nat.le_add_right _ _),
    Nat.add_sub_cancel_left, List.getElem?_append_left ((wordsOf_eq_ok hi).1 ▸ hk)]

/-- A code cell of an image is an instruction of the stream. -/
theorem exists_of_code_mem_cells (h : ofStream? config stream = .ok image) {decoded : Decoded}
    (hd : .code decoded ∈ image.cells) :
    ∃ op operands, .code op operands ∈ stream ∧ op.isData = false ∧
      decoded = Decoded.ofInstruction image.resolution config.mask (.code op operands) := by
  obtain ⟨-, cells, hc, hflat⟩ := exists_cells_of_ofStream? h
  rw [hflat, List.mem_flatten] at hd
  obtain ⟨cs, hcs, hd⟩ := hd
  obtain ⟨i, hi, hw⟩ := exists_of_mem_mapM (mapM_eq_ok_iff.2 hc) hcs
  rcases (wordsOf_eq_ok hw).2 _ hd with ⟨word, he⟩ | ⟨op, operands, rfl, hop, he⟩
  · cases he
  · cases he
    exact ⟨op, operands, hi, hop, rfl⟩

end Image

/-! ## Where the instructions stand -/

/-- What memory and labels look like where an instruction is placed: its label is bound
    to the address, its first cell is the instruction or, for data, a word. -/
def Stands (fetch : Nat → Option Cell) (resolution : Resolution) (mask address : Nat) :
    Instruction → Prop
  | .note (.markLabel label) => resolution.addressOf label = some address
  | .note _ => True
  | .code op operands =>
    if op.isData then ∃ word, fetch address = some (.data word)
    else fetch address =
      some (.code (Decoded.ofInstruction resolution mask (.code op operands)))

/-- The instructions of a stream stand one after the other from an address on. -/
def Located (fetch : Nat → Option Cell) (resolution : Resolution) (mask : Nat) :
    (address : Nat) → List Instruction → Prop
  | _, [] => True
  | address, i :: rest =>
    Stands fetch resolution mask address i ∧
      Located fetch resolution mask (address + i.footprint) rest

section Located

variable {fetch : Nat → Option Cell} {resolution : Resolution} {mask : Nat}

theorem stands_data_iff {address : Nat} {op : Opcode} {operands : List Operand}
    (hd : op.isData = true) : Stands fetch resolution mask address (.code op operands) ↔
      ∃ word, fetch address = some (.data word) := by
  rw [Stands, if_pos hd]

theorem stands_code_iff {address : Nat} {op : Opcode} {operands : List Operand}
    (hd : op.isData = false) : Stands fetch resolution mask address (.code op operands) ↔
      fetch address = some (.code (Decoded.ofInstruction resolution mask (.code op operands))) := by
  rw [Stands, if_neg (by simp [hd])]

@[simp] theorem located_nil (address : Nat) : Located fetch resolution mask address [] := trivial

theorem located_append {address : Nat} {xs ys : List Instruction} :
    Located fetch resolution mask address (xs ++ ys) ↔
      Located fetch resolution mask address xs ∧
        Located fetch resolution mask (address + extent xs) ys := by
  induction xs generalizing address with
  | nil => simp
  | cons i xs ih =>
    rw [List.cons_append, Located, Located, ih, and_assoc, extent_cons, ← Nat.add_assoc]

theorem located_of_stands {address : Nat} {stream : List Instruction}
    (h : ∀ before i after, stream = before ++ i :: after →
      Stands fetch resolution mask (address + extent before) i) :
    Located fetch resolution mask address stream := by
  induction stream generalizing address with
  | nil => trivial
  | cons i rest ih =>
    refine ⟨h [] i rest rfl, ih fun before j after hs => ?_⟩
    rw [Nat.add_assoc]
    exact h (i :: before) j after (by rw [hs]; rfl)

theorem Located.stands {before after : List Instruction} {i : Instruction} {address : Nat}
    (h : Located fetch resolution mask address (before ++ i :: after)) :
    Stands fetch resolution mask (address + extent before) i :=
  (located_append.1 h).2.1

end Located

/-- The instructions of an image stand at their extents. -/
theorem Image.located {config : Config} {stream : List Instruction} {image : Image}
    (h : ofStream? config stream = .ok image) :
    Located (image.cells[·]?) image.resolution config.mask 0 stream := by
  refine located_of_stands fun before i after hs => ?_
  rw [Nat.zero_add]
  cases i with
  | note n =>
    cases n with
    | markLabel label => exact addressOf_of_mark h hs
    | _ => trivial
  | code op operands =>
    obtain ⟨words, hwords, hat⟩ := exists_wordsOf_of_split h hs
    replace hat := hat 0 op.footprint_pos
    cases hd : op.isData with
    | false =>
      rw [wordsOf_code hd] at hwords
      cases hwords
      exact (stands_code_iff hd).2 hat
    | true =>
      obtain ⟨value, -, rfl⟩ := (wordsOf_data_eq_ok_iff hd).1 hwords
      have hlt : 0 < (Word.split value config.wordBits op.footprint).length := by
        rw [length_split_footprint _ _ hd]
        exact op.footprint_pos
      rw [List.getElem?_map, List.getElem?_eq_getElem hlt] at hat
      exact (stands_data_iff hd).2 ⟨_, hat⟩

/-- An image has as many cells as the extent of its stream. -/
theorem Image.size_eq {config : Config} {stream : List Instruction} {image : Image}
    (h : ofStream? config stream = .ok image) : image.size = extent stream := by
  obtain ⟨-, cells, hc, hflat⟩ := exists_cells_of_ofStream? h
  rw [size, hflat]
  clear hflat h
  induction hc with
  | nil => rfl
  | cons hi _ ih =>
    rw [List.flatten_cons, List.length_append, ih, (wordsOf_eq_ok hi).1, extent_cons]

end Wordcode
