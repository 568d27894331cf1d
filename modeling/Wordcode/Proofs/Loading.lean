import Wordcode.Proofs.Integrity

/-!
# What a load leaves in a machine

A stream is placed in two passes: the first finds the addresses of labels, the second writes the
cells. Here it is said without either what is in the machine afterwards. The words of an
instruction depend on the instruction and on where the labels of the stream are marked, and they
stand at the extent of what precedes it.

* `Slot.Of`, `Instruction.Words`: the operands and words of an instruction in memory;
* `Machine.Loads`: what a load makes of a machine, said cell by cell;
* `Machine.loads_iff`: this determines the machine;
* `Machine.load_exact`: when a load succeeds, and what it leaves if it does and if it does not.
-/

namespace Wordcode

variable {Bus : Type}

open Instruction

/-- How an operand stands in memory. -/
inductive Slot.Of (stream : List Instruction) (mask : Nat) : Operand → Slot → Prop
  | register (index : Nat) : Of stream mask (.register index) (.register index)
  | immediate (n : Nat) : Of stream mask (.immediate n) (.value (n &&& mask))
  | marked {label : Label} {address : Nat} : MarkedAt stream label address →
      Of stream mask (.label label) (.value address)
  | unmarked {label : Label} : label.id ∉ marks stream →
      Of stream mask (.label label) (.unresolved label)

/-- The words of an instruction in memory. -/
inductive Instruction.Words (config : Config) (stream : List Instruction) :
    Instruction → List Cell → Prop
  | note (n : Note) : Words config stream (.note n) []
  | code {op : Opcode} {operands : List Operand} {slots : List Slot} : op.isData = false →
      List.Forall₂ (Slot.Of stream config.mask) operands slots →
      Words config stream (.code op operands) [.code ⟨.code op, slots⟩]
  | number {op : Opcode} (value : Nat) : op.isData = true →
      Words config stream (.code op [.immediate value])
        ((Word.split value config.wordBits op.footprint).map .data)
  | address {op : Opcode} {label : Label} {address : Nat} : op.isData = true →
      MarkedAt stream label address →
      Words config stream (.code op [.label label])
        ((Word.split address config.wordBits op.footprint).map .data)

/-! ## The words of an image -/

namespace Image

variable {config : Config} {stream : List Instruction} {image : Image}

/-- What an operand of a loaded stream stands for is what it is decoded to. -/
theorem slotOf_iff (h : ofStream? config stream = .ok image) {mask : Nat} {x : Operand}
    {slot : Slot} : Slot.Of stream mask x slot ↔ Slot.decode image.resolution mask x = slot := by
  constructor
  · rintro (_ | _ | hmarked | hunmarked)
    · rfl
    · rfl
    · rw [Slot.decode, (addressOf_eq_some_iff h).2 hmarked]
    · rw [Slot.decode, (addressOf_eq_none_iff h).2 hunmarked]
  · rintro rfl
    cases x with
    | register index => exact .register index
    | immediate n => exact .immediate n
    | label label =>
      rw [Slot.decode]
      split
      · next ha => exact .marked ((addressOf_eq_some_iff h).1 ha)
      · next ha => exact .unmarked ((addressOf_eq_none_iff h).1 ha)

theorem slotsOf_iff (h : ofStream? config stream = .ok image) {mask : Nat}
    {operands : List Operand} {slots : List Slot} :
    List.Forall₂ (Slot.Of stream mask) operands slots ↔
      operands.map (Slot.decode image.resolution mask) = slots := by
  have hslot : Slot.Of stream mask = fun x slot => Slot.decode image.resolution mask x = slot :=
    funext₂ fun _ _ => propext (slotOf_iff h)
  rw [hslot, ← List.forall₂_map_left_iff, List.forall₂_eq_eq_eq]

/-- The second pass writes the words of an instruction. -/
theorem words_iff (h : ofStream? config stream = .ok image) {i : Instruction}
    (hi : i.WellFormed) {words : List Cell} :
    Words config stream i words ↔ wordsOf config image.resolution i = .ok words := by
  constructor
  · rintro (_ | ⟨hd, hslots⟩ | ⟨value, hd⟩ | ⟨hd, hmarked⟩)
    · rfl
    · rw [wordsOf_code hd, ← (slotsOf_iff h).1 hslots]
      rfl
    · exact (wordsOf_data_eq_ok_iff hd).2 ⟨value, rfl, rfl⟩
    · refine (wordsOf_data_eq_ok_iff hd).2 ⟨_, ?_, rfl⟩
      rw [datum, (addressOf_eq_some_iff h).2 hmarked]
  · intro hwords
    rcases i with ⟨op, operands⟩ | n
    · cases hd : op.isData with
      | false =>
        rw [wordsOf_code hd] at hwords
        cases hwords
        exact .code hd ((slotsOf_iff h).2 rfl)
      | true =>
        obtain ⟨value, hvalue, rfl⟩ := (wordsOf_data_eq_ok_iff hd).1 hwords
        rcases hi.data hd with ⟨n, rfl⟩ | ⟨label, -, rfl⟩
        · cases hvalue
          exact .number value hd
        · rw [datum] at hvalue
          split at hvalue
          · next ha =>
            cases hvalue
            exact .address hd ((addressOf_eq_some_iff h).1 ha)
          · cases hvalue
    · cases hwords
      exact .note n

theorem getElem?_fill (words a : Nat) (cells : List Cell) :
    (fill words cells)[a]? = if a < words then some (cells[a]?.getD .zero) else none := by
  rw [fill, List.getElem?_toArray, List.getElem?_append, List.length_take, List.getElem?_replicate]
  split
  · next h =>
    obtain ⟨ha, hc⟩ := Nat.lt_min.1 h
    rw [List.getElem?_take_of_lt ha, if_pos ha, List.getElem?_eq_getElem hc]
    rfl
  · by_cases ha : a < words
    · rw [if_pos ha, if_pos (by omega), List.getElem?_eq_none (by omega)]
      rfl
    · rw [if_neg ha, if_neg (by omega)]

theorem eq_zero_of_mem_fill_nil {words : Nat} {cell : Cell} (h : cell ∈ fill words []) :
    cell = .zero := by
  obtain ⟨a, ha⟩ := Array.mem_iff_getElem?.1 h
  exact (mem_or_eq_zero_of_fill ha).resolve_left List.not_mem_nil

end Image

/-- Every address below the extent of a stream belongs to one of its instructions. -/
theorem Instruction.exists_split_of_lt_extent {stream : List Instruction} {a : Nat}
    (h : a < extent stream) :
    ∃ before i after, stream = before ++ i :: after ∧
      ∃ k < i.footprint, extent before + k = a := by
  induction stream generalizing a with
  | nil => exact absurd h (Nat.not_lt_zero a)
  | cons i rest ih =>
    by_cases hlt : a < i.footprint
    · exact ⟨[], i, rest, rfl, a, hlt, Nat.zero_add a⟩
    · obtain ⟨before, j, after, rfl, k, hk, ha⟩ := ih (a := a - i.footprint)
        (by rw [extent_cons] at h; omega)
      exact ⟨i :: before, j, after, rfl, k, hk, by rw [extent_cons]; omega⟩

/-! ## The machine after a load -/

namespace Machine

variable {m m' m₁ m₂ : Machine Bus} {stream : List Instruction} {image : Image}

/-- The memory that the program is not executed from. -/
def otherStore (m : Machine Bus) : Array Cell := if m.config.executeFromRom then m.ram else m.rom

/-- What a load of a stream makes of a machine. -/
structure Loads (m : Machine Bus) (stream : List Instruction) (m' : Machine Bus) : Prop where
  config : m'.config = m.config
  bus : m'.bus = m.bus
  ramSize : m'.ram.size = m.config.ramWords
  romSize : m'.rom.size = m.config.romWords
  /-- The words of an instruction follow those of the instructions before it. -/
  words : ∀ before i after, stream = before ++ i :: after →
    ∃ cells, Words m.config stream i cells ∧
      ∀ k < i.footprint, m'.codeStore[extent before + k]? = cells[k]?
  /-- Behind the program, and in the other memory, there is nothing. -/
  behind : ∀ a, extent stream ≤ a → a < m.config.codeWords → m'.codeStore[a]? = some .zero
  other : ∀ cell ∈ m'.otherStore, cell = .zero
  programLen : m'.programLen = extent stream
  cores : m'.cores = List.replicate m.cores.length (Core.initial m.config.registers)
  nextCore : m'.nextCore = 0

theorem codeStore_install (m : Machine Bus) (image : Image) :
    (m.install image).codeStore = Image.fill m.config.codeWords image.cells := by
  simp only [codeStore, install, reset, Config.codeWords]
  split
  · simp
  · next h => simp [h]

/-- A machine on which the image of a stream is installed has loaded the stream. -/
theorem loads_install (hi : Image.ofStream? m.config stream = .ok image)
    (hw : ∀ i ∈ stream, i.WellFormed) : m.Loads stream (m.install image) where
  config := rfl
  bus := rfl
  ramSize := Image.size_fill _ _
  romSize := Image.size_fill _ _
  words before i after hs := by
    obtain ⟨cells, hcells, hat⟩ := Image.exists_wordsOf_of_split hi hs
    refine ⟨cells, (Image.words_iff hi (hw i (hs ▸ by simp))).2 hcells, fun k hk => ?_⟩
    have hfits := (Image.exists_ofStream?_iff.1 ⟨image, hi⟩).fits
    rw [hs, extent_append, extent_cons] at hfits
    rw [codeStore_install, Image.getElem?_fill, if_pos (by omega), hat k hk,
      List.getElem?_eq_getElem ((Image.wordsOf_eq_ok hcells).1 ▸ hk)]
    rfl
  behind a ha hlt := by
    have hsize : image.cells.length = extent stream := Image.size_eq hi
    rw [codeStore_install, Image.getElem?_fill, if_pos hlt, List.getElem?_eq_none (hsize ▸ ha)]
    rfl
  other cell hcell := by
    simp only [otherStore, install, reset] at hcell
    split at hcell
    · next hx =>
      rw [hx] at hcell
      exact Image.eq_zero_of_mem_fill_nil hcell
    · exact Image.eq_zero_of_mem_fill_nil hcell
  programLen := Image.size_eq hi
  cores := List.map_const'
  nextCore := rfl

namespace Loads

theorem size_codeStore (h : m.Loads stream m') : m'.codeStore.size = m.config.codeWords := by
  rw [codeStore, Config.codeWords, h.config]
  split
  · exact h.romSize
  · exact h.ramSize

/-- Two machines that one machine may become by loading a stream hold the same in the store that
    they execute from. -/
theorem codeStore_eq (hi : Image.ofStream? m.config stream = .ok image)
    (hw : ∀ i ∈ stream, i.WellFormed) (h₁ : m.Loads stream m₁) (h₂ : m.Loads stream m₂) :
    m₁.codeStore = m₂.codeStore := by
  refine Array.ext_getElem? fun a => ?_
  rcases Nat.lt_or_ge a (extent stream) with ha | ha
  · obtain ⟨before, i, after, hs, k, hk, rfl⟩ := exists_split_of_lt_extent ha
    obtain ⟨cells₁, hcells₁, hat₁⟩ := h₁.words before i after hs
    obtain ⟨cells₂, hcells₂, hat₂⟩ := h₂.words before i after hs
    rw [Image.words_iff hi (hw i (hs ▸ by simp))] at hcells₁ hcells₂
    cases hcells₁.symm.trans hcells₂
    rw [hat₁ k hk, hat₂ k hk]
  · rcases Nat.lt_or_ge a m.config.codeWords with hlt | hge
    · rw [h₁.behind a ha hlt, h₂.behind a ha hlt]
    · rw [Array.getElem?_eq_none (h₁.size_codeStore ▸ hge),
        Array.getElem?_eq_none (h₂.size_codeStore ▸ hge)]

theorem otherStore_eq (h₁ : m.Loads stream m₁) (h₂ : m.Loads stream m₂) :
    m₁.otherStore = m₂.otherStore := by
  have hsize {m' : Machine Bus} (h : m.Loads stream m') : m'.otherStore.size =
      if m.config.executeFromRom then m.config.ramWords else m.config.romWords := by
    rw [otherStore, h.config]
    split
    · exact h.ramSize
    · exact h.romSize
  rw [Array.eq_replicate_iff.2 ⟨hsize h₁, h₁.other⟩, Array.eq_replicate_iff.2 ⟨hsize h₂, h₂.other⟩]

/-- What a stream leaves in a machine is determined. -/
theorem unique (hi : Image.ofStream? m.config stream = .ok image)
    (hw : ∀ i ∈ stream, i.WellFormed) (h₁ : m.Loads stream m₁) (h₂ : m.Loads stream m₂) :
    m₁ = m₂ := by
  have hcode := codeStore_eq hi hw h₁ h₂
  have hother := otherStore_eq h₁ h₂
  have hmemory : m₁.ram = m₂.ram ∧ m₁.rom = m₂.rom := by
    rw [codeStore, codeStore, h₁.config, h₂.config] at hcode
    rw [otherStore, otherStore, h₁.config, h₂.config] at hother
    split at hcode
    · next hx =>
      rw [if_pos hx, if_pos hx] at hother
      exact ⟨hother, hcode⟩
    · next hx =>
      rw [if_neg hx, if_neg hx] at hother
      exact ⟨hcode, hother⟩
  have hconfig := h₁.config.trans h₂.config.symm
  have hbus := h₁.bus.trans h₂.bus.symm
  have hlen := h₁.programLen.trans h₂.programLen.symm
  have hcores := h₁.cores.trans h₂.cores.symm
  have hnext := h₁.nextCore.trans h₂.nextCore.symm
  cases m₁
  cases m₂
  cases hconfig
  cases hbus
  cases hlen
  cases hcores
  cases hnext
  cases hmemory.1
  cases hmemory.2
  rfl

end Loads

/-- The machine that a load gives is the only one that can come of it. -/
theorem loads_iff (h : m.load stream = (m₁, .ok ())) (hw : ∀ i ∈ stream, i.WellFormed) :
    m.Loads stream m' ↔ m' = m₁ := by
  obtain ⟨image, hi, rfl⟩ := load_eq_ok_iff.1 h
  have hinstall := loads_install hi hw
  exact ⟨fun h => h.unique hi hw hinstall, fun h => h ▸ hinstall⟩

/-- Of well-formed data, only single words can be labels. -/
theorem loadable_iff {config : Config} (hw : ∀ i ∈ stream, i.WellFormed) :
    Loadable config stream ↔
      (marks stream).Nodup ∧
      (∀ index, .note (.maxReg index) ∈ stream → index < config.registers) ∧
      (∀ words, .note (.minRam words) ∈ stream → words ≤ config.ramWords) ∧
      extent stream ≤ config.codeWords ∧
      ∀ label, .code .dw [.label label] ∈ stream → label.id ∈ marks stream := by
  constructor
  · exact fun h => ⟨h.nodup, h.registers, h.ram, h.fits, fun label => h.data .dw label rfl⟩
  · rintro ⟨hnodup, hregisters, hram, hfits, hdata⟩
    refine ⟨hnodup, hregisters, hram, hfits, fun op label hd hi => ?_⟩
    rcases (hw _ hi).data hd with ⟨value, he⟩ | ⟨label', rfl, -⟩
    · cases he
    · exact hdata label hi

/-- A stream of well-formed instructions is loaded exactly if it meets five conditions. Then the
    memory of the machine holds the stream and nothing else. A load that fails leaves the machine
    as it was. -/
theorem load_exact (m : Machine Bus) (hw : ∀ i ∈ stream, i.WellFormed) :
    ((∃ m', m.load stream = (m', .ok ())) ↔
      (marks stream).Nodup ∧
      (∀ index, .note (.maxReg index) ∈ stream → index < m.config.registers) ∧
      (∀ words, .note (.minRam words) ∈ stream → words ≤ m.config.ramWords) ∧
      extent stream ≤ m.config.codeWords ∧
      ∀ label, .code .dw [.label label] ∈ stream → label.id ∈ marks stream) ∧
    (∀ m₁, m.load stream = (m₁, .ok ()) → ∀ m', m.Loads stream m' ↔ m' = m₁) ∧
    ∀ m₁ error, m.load stream = (m₁, .error error) → m₁ = m :=
  ⟨exists_load_iff.trans (loadable_iff hw), fun _ h _ => loads_iff h hw,
    fun _ _ h => (load_eq_error_iff.1 h).2⟩

/-- A program with code and data, a label that is marked and one that is not. -/
def mixed : List Instruction :=
  [.note (.maxReg 1), .note (.minRam 8), .code .imm [.register 1, .label (.anonymous 0)],
    .code .dd [.immediate 0x1234], .note (.markLabel (.anonymous 0)),
    .code .dw [.label (.anonymous 0)], .note (.comment "nowhere to go"),
    .code .bra [.label (.anonymous 1)]]

/-- A machine of eight words has room for it. Loaded once more, with its last label marked twice
    behind it, it is refused, and what was loaded before stays. -/
theorem load_exact_mixed :
    let m := blank { registers := 2, ramWords := 8 } QueueBus.empty
    let twice : List Instruction :=
      mixed ++ [.note (.markLabel (.anonymous 1)), .note (.markLabel (.anonymous 1))]
    m.Loads mixed (m.loaded mixed) ∧
      (m.loaded mixed).ram =
        #[.code ⟨.code .imm, [.register 1, .value 3]⟩, .data 0x12, .data 0x34, .data 3,
          .code ⟨.code .bra, [.unresolved (.anonymous 1)]⟩, .zero, .zero, .zero] ∧
      ((m.loaded mixed).load twice).2 = .error (.duplicateMark (.anonymous 1)) ∧
      ((m.loaded mixed).load twice).1 = m.loaded mixed := by
  intro m twice
  have hw : ∀ i ∈ mixed, i.WellFormed := by decide
  have hw' : ∀ i ∈ twice, i.WellFormed := by decide
  have hload : m.load mixed = (m.loaded mixed, .ok ()) := load_eq_loaded (by decide +kernel)
  have hfail : ((m.loaded mixed).load twice).2 = .error (.duplicateMark (.anonymous 1)) := by
    decide +kernel
  exact ⟨((load_exact m hw).2.1 _ hload _).2 rfl, by decide +kernel, hfail,
    (load_exact (m.loaded mixed) hw').2.2 _ _ (Prod.ext rfl hfail)⟩

end Machine
end Wordcode
