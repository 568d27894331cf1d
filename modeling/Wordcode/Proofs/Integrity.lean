import Wordcode.Proofs.Safety

/-!
# The integrity of a machine

From its creation on, a machine is loaded, clocked and reset, and its host works on the bus.
In whatever order that happens, and whether loads and ticks succeed or not, the state of the
machine keeps within its configuration: registers and stacks have their sizes, memory holds
words, and instructions are found nowhere but where the last load put them.

Words are cut to the mask wherever they enter, with one exception: the address of a label can
be pushed as it is, and popped into a register. So what bounds registers and stack is the mask
or the length of the program, whichever is greater.

* `Machine.Action`, `Machine.act`: what is done with a machine;
* `Core.Confined`: what holds of a core, and is kept by every instruction
  (`Core.Confined.execute`);
* `Machine.Intact`: what holds of a machine, and is kept by every action (`Machine.Intact.act`);
* `Machine.intact_of_create`: a machine stays intact from its creation on.
-/

namespace Wordcode

variable {Bus : Type}

open Instruction

/-! ## Words and addresses of an image -/

namespace Image

variable {config : Config} {stream : List Instruction} {image : Image}

/-- The cells of a program: data are words, and a number in an instruction is a word or an
    address of the program. -/
structure Regular (config : Config) (cells : List Cell) : Prop where
  data : ∀ word, .data word ∈ cells → word ≤ config.mask
  operation : ∀ decoded, .code decoded ∈ cells → ∃ op, decoded.operation = .code op
  slots : ∀ decoded, .code decoded ∈ cells →
    ∀ p n, decoded.slot? p = some (.value n) → n ≤ max config.mask cells.length

/-- A label is resolved to an address of the program, or to its end. -/
theorem addressOf_le (h : ofStream? config stream = .ok image) {label : Label} {address : Nat}
    (ha : image.resolution.addressOf label = some address) : address ≤ image.cells.length := by
  obtain ⟨before, mark, after, rfl, -, rfl⟩ := (addressOf_eq_some_iff h).1 ha
  have hsize : image.cells.length = _ := size_eq h
  rw [hsize, extent_append]
  exact Nat.le_add_right _ _

theorem le_mask_of_wordsOf {resolution : Resolution} {i : Instruction} {cells : List Cell}
    {word : Nat} (h : wordsOf config resolution i = .ok cells) (hw : .data word ∈ cells) :
    word ≤ config.mask := by
  rcases i with ⟨op, operands⟩ | n
  · rcases hd : op.isData
    · rw [wordsOf_code hd] at h
      rw [← Except.ok.inj h] at hw
      cases List.mem_singleton.1 hw
    · obtain ⟨value, -, rfl⟩ := (wordsOf_data_eq_ok_iff hd).1 h
      obtain ⟨word', hmem, he⟩ := List.mem_map.1 hw
      cases he
      exact Word.le_mask_of_mem_split hmem
  · rw [← Except.ok.inj h] at hw
    exact absurd hw List.not_mem_nil

theorem regular_nil (config : Config) : Regular config [] where
  data _ h := absurd h List.not_mem_nil
  operation _ h := absurd h List.not_mem_nil
  slots _ h := absurd h List.not_mem_nil

/-- The image of a stream is regular: its words and the numbers in its instructions are in range. -/
theorem regular_of_ofStream? (h : ofStream? config stream = .ok image) :
    Regular config image.cells where
  data word hw := by
    obtain ⟨-, cells, hc, hflat⟩ := exists_cells_of_ofStream? h
    rw [hflat, List.mem_flatten] at hw
    obtain ⟨cs, hcs, hw⟩ := hw
    obtain ⟨i, -, hi⟩ := exists_of_mem_mapM (mapM_eq_ok_iff.2 hc) hcs
    exact le_mask_of_wordsOf hi hw
  operation decoded hd := by
    obtain ⟨op, operands, -, -, rfl⟩ := exists_of_code_mem_cells h hd
    exact ⟨op, rfl⟩
  slots decoded hd p n hs := by
    obtain ⟨op, operands, -, -, rfl⟩ := exists_of_code_mem_cells h hd
    rcases p with _ | p
    · cases hs
    · obtain ⟨operand, -, he⟩ := List.mem_map.1 (List.mem_of_getElem? hs)
      rcases operand with j | k | label
      · cases he
      · cases he
        exact Nat.le_trans (Word.and_mask_le _ _) (Nat.le_max_left _ _)
      · rw [Slot.decode] at he
        split at he
        · next address ha =>
          cases he
          exact Nat.le_trans (addressOf_le h ha) (Nat.le_max_right _ _)
        · cases he

/-- What a load of these cells puts into RAM. -/
def ram (config : Config) (cells : List Cell) : Array Cell :=
  fill config.ramWords (if config.executeFromRom then [] else cells)

/-- What a load of these cells puts into ROM. -/
def rom (config : Config) (cells : List Cell) : Array Cell :=
  fill config.romWords (if config.executeFromRom then cells else [])

theorem size_fill (words : Nat) (cells : List Cell) : (fill words cells).size = words := by
  simp only [fill, List.size_toArray, List.length_append, List.length_take, List.length_replicate]
  omega

theorem mem_or_eq_zero_of_fill {words a : Nat} {cells : List Cell} {cell : Cell}
    (h : (fill words cells)[a]? = some cell) : cell ∈ cells ∨ cell = .zero := by
  rw [fill, List.getElem?_toArray] at h
  rcases List.mem_append.1 (List.mem_of_getElem? h) with h | h
  · exact .inl (List.mem_of_mem_take h)
  · exact .inr (List.eq_of_mem_replicate h)

/-- Memory that is filled with the cells of a program, or left empty, holds words. -/
theorem Regular.le_of_fill {cells : List Cell} (h : Regular config cells) {used : Prop}
    [Decidable used] {words a word : Nat}
    (hw : (fill words (if used then cells else []))[a]? = some (.data word)) :
    word ≤ config.mask := by
  rcases mem_or_eq_zero_of_fill hw with hmem | hzero
  · split at hmem
    · exact h.data word hmem
    · exact absurd hmem List.not_mem_nil
  · cases hzero
    exact Nat.zero_le _

end Image

/-! ## What is done with a machine -/

namespace Machine

/-- What is done with a machine from outside. -/
inductive Action (Bus : Type) where
  | load (stream : List Instruction)
  | clock
  | reset
  /-- The host works on the bus, and leaves it as given. -/
  | host (bus : Bus)

/-- The machine after an action. A load that fails and a tick that finds no core to run leave it
    as it was. -/
def act [PortBus Bus] (m : Machine Bus) : Action Bus → Machine Bus
  | .load stream => (m.load stream).1
  | .clock => m.clock.1
  | .reset => m.reset
  | .host bus => { m with bus }

/-- The machine after a sequence of actions. -/
def acts [PortBus Bus] (m : Machine Bus) (actions : List (Action Bus)) : Machine Bus :=
  actions.foldl act m

namespace Action

/-- The cells of the program that was loaded last, after an action. -/
def written (config : Config) (cells : List Cell) : Action Bus → List Cell
  | .load stream =>
    match Image.ofStream? config stream with
    | .ok image => image.cells
    | .error _ => cells
  | _ => cells

/-- The cells of the program that the last successful load of a sequence of actions wrote. There
    are none if no load succeeded. -/
def lastWritten (config : Config) (actions : List (Action Bus)) : List Cell :=
  actions.foldl (written config) []

end Action
end Machine

/-! ## Cores -/

/-- An instruction faults before it changes anything, or performs an effect of its kind. -/
theorem Decoded.execute_cases [PortBus Bus] (config : Config) (v : View Bus) {d : Decoded}
    {op : Opcode} (hop : d.operation = .code op) :
    (∃ kind, d.execute config v = (v, .faulted kind)) ∨
      ∃ e, d.Yields config v.ram v.core op e ∧ d.execute config v = e.perform config.mask v := by
  rcases he : d.effectOf config v.ram v.core op with kind | e
  · exact .inl ⟨kind, by simp only [execute, effect, hop, he]⟩
  · exact .inr ⟨e, yields_of_effectOf he, execute_of_effectOf hop he⟩

namespace Core

/-- Register 0 holds 0, the stacks are no deeper than they may be, and calls return to the
    program. -/
structure Limited (config : Config) (size : Nat) (core : Core) : Prop where
  zero : core.registers[0]? = some 0
  depth : core.stack.length ≤ config.maxStack
  level : core.calls.length ≤ config.maxStack
  sites : ∀ site ∈ core.calls, site ≤ size

/-- What holds of every core of a machine with a program of `size` words. -/
structure Confined (config : Config) (size : Nat) (core : Core) : Prop
    extends core.Limited config size where
  count : core.registers.size = config.registers
  registers : ∀ j word : Nat, core.registers[j]? = some word → word ≤ max config.mask size
  stack : ∀ word ∈ core.stack, word ≤ max config.mask size

variable {config : Config} {size : Nat} {v : View Bus} {d : Decoded} {op : Opcode}

theorem confined_initial (hr : 0 < config.registers) :
    (Core.initial config.registers).Confined config size where
  zero := by simp [initial, hr]
  depth := Nat.zero_le _
  level := Nat.zero_le _
  sites _ h := absurd h List.not_mem_nil
  count := by simp [initial]
  registers j word h := by
    rw [initial, Array.getElem?_replicate] at h
    split at h
    · exact Option.some.inj h ▸ Nat.zero_le _
    · cases h
  stack _ h := absurd h List.not_mem_nil

namespace Limited

/-- Writing a register keeps the limits: what is written to register 0 is lost. -/
theorem assign (h : v.core.Limited config size) (t word : Nat) :
    (v.assign t word).1.core.Limited config size := by
  by_cases ht : t < v.core.registers.size
  · rw [View.assign_of_lt ht]
    refine ⟨?_, by simpa using h.depth, by simpa using h.level, by simpa using h.sites⟩
    by_cases h0 : t = 0
    · simpa [put, h0] using h.zero
    · rw [← h.zero]
      exact registers_put_of_ne word (Ne.symm h0)
  · rw [View.assign_of_not_lt ht]
    exact h

theorem assignTo (h : v.core.Limited config size) (destination : Except FaultKind Nat)
    (word : Nat) : (v.assignTo destination word).1.core.Limited config size := by
  cases destination with
  | ok t => exact h.assign t word
  | error kind => exact h

variable [PortBus Bus]

/-- An instruction of the program keeps the limits. -/
theorem execute (h : v.core.Limited config size) (hop : d.operation = .code op)
    (hip : v.core.ip < size) : (d.execute config v).1.core.Limited config size := by
  rcases Decoded.execute_cases config v hop with ⟨kind, hx⟩ | ⟨e, hy, hx⟩
  · rw [hx]
    exact h
  rw [hx]
  cases hy with
  | @compute _ result =>
    exact assignTo (v := { v with core := { v.core with flags := result } })
      ⟨h.zero, h.depth, h.level, h.sites⟩ _ _
  | assign => exact h.assign _ _
  | load => exact h.assign _ _
  -- The stack is looked at before a word is pushed.
  | push hs => exact ⟨h.zero, hs, h.level, h.sites⟩
  | pop hs =>
    rcases hstack : v.core.stack with _ | ⟨word, stack⟩
    · exact absurd hstack hs
    · have hdepth := h.depth
      rw [hstack] at hdepth
      simp only [Effect.perform, hstack]
      exact assignTo (v := { v with core := { v.core with stack } })
        ⟨h.zero, Nat.le_of_succ_le hdepth, h.level, h.sites⟩ _ word
  -- A call comes from the program, so it returns to the program or to its end.
  | call hs => exact ⟨h.zero, h.depth, hs, List.forall_mem_cons.2 ⟨hip, h.sites⟩⟩
  | leave =>
    have hlevel := h.level
    have hsites := h.sites
    rcases hcalls : v.core.calls with _ | ⟨site, calls⟩ <;> rw [hcalls] at hlevel hsites <;>
      simp only [Effect.perform, hcalls]
    · exact ⟨h.zero, h.depth, hlevel, hsites⟩
    · exact ⟨h.zero, h.depth, Nat.le_of_succ_le hlevel, (List.forall_mem_cons.1 hsites).2⟩
  | @receive port =>
    rcases hr : PortBus.read v.bus port with ⟨error | word, bus⟩ <;>
      simp only [Effect.perform, hr]
    · exact ⟨h.zero, h.depth, h.level, h.sites⟩
    · exact assignTo (v := { v with bus }) h _ _
  | @send port word =>
    rcases hr : PortBus.write v.bus port word with ⟨error | _, bus⟩ <;>
      simp only [Effect.perform, hr] <;> exact ⟨h.zero, h.depth, h.level, h.sites⟩
  | _ => exact ⟨h.zero, h.depth, h.level, h.sites⟩

end Limited

namespace Confined

theorem within (h : v.core.Confined config size)
    (hram : ∀ a word : Nat, v.ram[a]? = some (.data word) → word ≤ config.mask) :
    v.Within config.registers (max config.mask size) where
  size := h.count
  registers := h.registers
  stack := h.stack
  ram a word ha := Nat.le_trans (hram a word ha) (Nat.le_max_left _ _)

/-- An instruction of the program keeps its core confined. -/
theorem execute [PortBus Bus] (h : v.core.Confined config size)
    (hram : ∀ a word : Nat, v.ram[a]? = some (.data word) → word ≤ config.mask)
    (hop : d.operation = .code op) (hip : v.core.ip < size)
    (hslots : ∀ p n, d.slot? p = some (.value n) → n ≤ max config.mask size) :
    (d.execute config v).1.core.Confined config size := by
  have hw := (h.within hram).execute hop (Nat.le_max_left _ _) fun _ n => hslots 1 n
  exact ⟨h.toLimited.execute hop hip, hw.size, hw.registers, hw.stack⟩

theorem halt (h : v.core.Confined config size) : v.halt.core.Confined config size :=
  ⟨⟨h.zero, h.depth, h.level, h.sites⟩, h.count, h.registers, h.stack⟩

end Confined
end Core

/-! ## Ticks -/

/-- An instruction leaves memory as it is, or puts one word into it. -/
theorem Decoded.ram_execute [PortBus Bus] (config : Config) (v : View Bus) {d : Decoded}
    {op : Opcode} (hop : d.operation = .code op) :
    (d.execute config v).1.ram = v.ram ∨ ∃ a word, word ≤ config.mask ∧
      (d.execute config v).1.ram = v.ram.setIfInBounds a (.data word) := by
  have hassign (core : Core) (bus : Bus) (destination : Except FaultKind Nat) (word : Nat) :
      (({ v with core, bus } : View Bus).assignTo destination word).1.ram = v.ram := by
    cases destination with
    | ok t =>
      rw [View.assignTo_ok, View.assign]
      split <;> rfl
    | error kind => rfl
  rcases execute_cases config v hop with ⟨kind, hx⟩ | ⟨e, hy, hx⟩
  · rw [hx]
    exact .inl rfl
  rw [hx]
  cases hy with
  | compute => exact .inl (hassign _ v.bus _ _)
  | assign => exact .inl (hassign v.core v.bus (.ok _) _)
  | load => exact .inl (hassign v.core v.bus (.ok _) _)
  | @store a word => exact .inr ⟨a, _, Word.and_mask_le word _, rfl⟩
  | pop hs =>
    rcases hstack : v.core.stack with _ | ⟨word, stack⟩
    · exact absurd hstack hs
    · simp only [Effect.perform, hstack]
      exact .inl (hassign _ v.bus _ _)
  | leave =>
    simp only [Effect.perform]
    split <;> exact .inl rfl
  | receive =>
    simp only [Effect.perform]
    split
    · exact .inl (hassign v.core _ _ _)
    · exact .inl rfl
  | send =>
    simp only [Effect.perform]
    split <;> exact .inl rfl
  | _ => exact .inl rfl

/-- A tick halts the core, or executes an instruction of the program, after which the core may
    be halted. -/
theorem View.tick_cases [PortBus Bus] (config : Config) (rom : Array Cell) (size : Nat)
    (v : View Bus) :
    (v.tick config rom size).1 = v.halt ∨
      ∃ decoded, v.core.ip < size ∧
        (if config.executeFromRom then rom else v.ram)[v.core.ip]? = some (.code decoded) ∧
        ((v.tick config rom size).1 = (decoded.execute config v).1 ∨
          (v.tick config rom size).1 = (decoded.execute config v).1.halt) := by
  by_cases hip : size ≤ v.core.ip
  · refine .inl ?_
    rw [tick, step, if_pos hip]
  · rcases hc : (if config.executeFromRom then rom else v.ram)[v.core.ip]? with
      _ | ⟨word⟩ | ⟨decoded⟩
    · refine .inl ?_
      simp only [tick, step, if_neg hip, hc]
    · refine .inl ?_
      simp only [tick, step, if_neg hip, hc]
    · refine .inr ⟨decoded, Nat.lt_of_not_le hip, rfl, ?_⟩
      simp only [tick, step, if_neg hip, hc]
      split
      · next u kind hu => exact .inr (by rw [hu])
      · exact .inl rfl

/-! ## Machines -/

namespace Machine

/-- What holds of a machine of a configuration into which a program of the given cells was
    loaded last. -/
structure Intact (config : Config) (cells : List Cell) (m : Machine Bus) : Prop where
  configured : m.config = config
  coreCount : m.cores.length = config.cores
  programLen : m.programLen = cells.length
  cores : ∀ core ∈ m.cores, core.Confined config m.programLen
  ramSize : m.ram.size = config.ramWords
  romSize : m.rom.size = config.romWords
  ramWords : ∀ a word : Nat, m.ram[a]? = some (.data word) → word ≤ config.mask
  romWords : ∀ a word : Nat, m.rom[a]? = some (.data word) → word ≤ config.mask
  /-- ROM is as the last load left it. -/
  rom : m.rom = Image.rom config cells
  /-- What is code in RAM was put there by the last load. -/
  code : ∀ (a : Nat) (decoded : Decoded), m.ram[a]? = some (.code decoded) →
    (Image.ram config cells)[a]? = some (.code decoded)

namespace Intact

variable {config : Config} {cells : List Cell} {m : Machine Bus}

/-- A new machine is intact. -/
theorem create (hr : 0 < config.registers) (bus : Bus) : (blank config bus).Intact config [] where
  configured := rfl
  coreCount := by simp [blank]
  programLen := rfl
  cores core hc := List.eq_of_mem_replicate hc ▸ Core.confined_initial hr
  ramSize := by simp [blank]
  romSize := by simp [blank]
  ramWords a word ha := by
    rw [blank, Array.getElem?_replicate] at ha
    split at ha
    · cases ha
      exact Nat.zero_le _
    · cases ha
  romWords a word ha := by
    rw [blank, Array.getElem?_replicate] at ha
    split at ha
    · cases ha
      exact Nat.zero_le _
    · cases ha
  rom := by simp [blank, Image.rom, Image.fill]
  code a decoded ha := by
    rw [blank, Array.getElem?_replicate] at ha
    split at ha <;> cases ha

/-- A machine that is reset is intact. -/
theorem reset (h : m.Intact config cells) (hr : 0 < config.registers) :
    m.reset.Intact config cells where
  configured := h.configured
  coreCount := by simpa [Machine.reset] using h.coreCount
  programLen := h.programLen
  cores core hc := by
    obtain ⟨_, -, rfl⟩ := List.mem_map.1 hc
    rw [h.configured]
    exact Core.confined_initial hr
  ramSize := h.ramSize
  romSize := h.romSize
  ramWords := h.ramWords
  romWords := h.romWords
  rom := h.rom
  code := h.code

/-- A program that is loaded takes the place of all there was. -/
theorem install (h : m.Intact config cells) (hr : 0 < config.registers) {image : Image}
    (hi : Image.Regular config image.cells) : (m.install image).Intact config image.cells := by
  obtain rfl := h.configured
  have hram : (m.install image).ram = Image.ram m.config image.cells := by
    simp only [Machine.install, Machine.reset, Image.ram]
    cases m.config.executeFromRom <;> rfl
  have hrom : (m.install image).rom = Image.rom m.config image.cells := rfl
  refine ⟨rfl, ?_, rfl, fun core hc => ?_, ?_, ?_, fun a word ha => ?_, fun a word ha => ?_, hrom,
    fun a decoded ha => hram ▸ ha⟩
  · simpa [Machine.install, Machine.reset] using h.coreCount
  · obtain ⟨_, -, rfl⟩ := List.mem_map.1 hc
    exact Core.confined_initial hr
  · rw [hram, Image.ram, Image.size_fill]
  · rw [hrom, Image.rom, Image.size_fill]
  · rw [hram, Image.ram, ← ite_not] at ha
    exact hi.le_of_fill ha
  · rw [hrom, Image.rom] at ha
    exact hi.le_of_fill ha

/-- The instruction that a core is about to execute is one of the program. -/
theorem code_mem (h : m.Intact config cells) {a : Nat} {decoded : Decoded}
    (hc : (if config.executeFromRom then m.rom else m.ram)[a]? = some (.code decoded)) :
    .code decoded ∈ cells := by
  split at hc
  · next hx =>
    rw [h.rom, Image.rom, if_pos hx] at hc
    exact code_mem_of_fill hc
  · next hx =>
    have hload := h.code a decoded hc
    rw [Image.ram, if_neg hx] at hload
    exact code_mem_of_fill hload

variable [PortBus Bus]

/-- A tick keeps its core confined, and memory intact. -/
theorem tick (h : m.Intact config cells) (hi : Image.Regular config cells) {core : Core}
    (hc : core ∈ m.cores) :
    let u := (View.tick config m.rom m.programLen ⟨core, m.ram, m.bus⟩).1
    u.core.Confined config m.programLen ∧ u.ram.size = config.ramWords ∧
      ∀ a word : Nat, u.ram[a]? = some (.data word) → word ≤ config.mask := by
  intro u
  have hcore := h.cores core hc
  rcases View.tick_cases config m.rom m.programLen ⟨core, m.ram, m.bus⟩ with
    hu | ⟨decoded, hip, hcode, hu⟩
  · rw [show u = _ from hu]
    exact ⟨Core.Confined.halt (v := ⟨core, m.ram, m.bus⟩) hcore, h.ramSize, h.ramWords⟩
  · have hmem := h.code_mem hcode
    obtain ⟨op, hop⟩ := hi.operation decoded hmem
    have hconfined := Core.Confined.execute (v := ⟨core, m.ram, m.bus⟩) hcore h.ramWords hop hip
      (by rw [h.programLen]; exact hi.slots decoded hmem)
    have hram : u.ram = (decoded.execute config ⟨core, m.ram, m.bus⟩).1.ram := by
      rcases hu with hu | hu
      · rw [show u = _ from hu]
      · rw [show u = _ from hu, View.halt]
    have hcore' : u.core.Confined config m.programLen := by
      rcases hu with hu | hu
      · rw [show u = _ from hu]
        exact hconfined
      · rw [show u = _ from hu]
        exact hconfined.halt
    refine ⟨hcore', ?_⟩
    rw [hram]
    rcases Decoded.ram_execute config ⟨core, m.ram, m.bus⟩ hop with he | ⟨a, stored, hstored, he⟩
    · rw [he]
      exact ⟨h.ramSize, h.ramWords⟩
    · rw [he]
      refine ⟨by rw [Array.size_setIfInBounds]; exact h.ramSize, fun b word hb => ?_⟩
      rw [Array.getElem?_setIfInBounds] at hb
      split at hb
      · split at hb
        · cases hb
          exact hstored
        · cases hb
      · exact h.ramWords b word hb

/-- A tick leaves the machine intact. -/
theorem clock (h : m.Intact config cells) (hi : Image.Regular config cells) :
    m.clock.1.Intact config cells := by
  rcases hn : m.nextRunning? with _ | ⟨index, core⟩
  · rw [clock_of_nextRunning?_eq_none hn]
    exact h
  · have hc := mem_of_nextRunning? hn
    have hkeeps : View.Keeps ⟨core, m.ram, m.bus⟩ _ := keeps_tick (m := m) ⟨core, m.ram, m.bus⟩
    obtain ⟨hcore, hsize, hwords⟩ := h.tick hi hc
    rw [← h.configured] at hcore hsize hwords
    rw [clock_of_nextRunning?_eq_some hn]
    obtain rfl := h.configured
    refine ⟨rfl, ?_, h.programLen, fun core' hc' => ?_, hsize, h.romSize, hwords, h.romWords, h.rom,
      fun a decoded ha => h.code a decoded (hkeeps.ram a decoded ha)⟩
    · rw [List.length_set]
      exact h.coreCount
    · rcases List.mem_or_eq_of_mem_set hc' with hc' | rfl
      · exact h.cores core' hc'
      · exact hcore

/-- Every action keeps a machine intact. -/
theorem act (h : m.Intact config cells) (hi : Image.Regular config cells)
    (hr : 0 < config.registers) (action : Action Bus) :
    (m.act action).Intact config (action.written config cells) ∧
      Image.Regular config (action.written config cells) := by
  rcases action with stream | _ | _ | bus
  · rw [Machine.act, load_eq, h.configured, Action.written]
    rcases hs : Image.ofStream? config stream with error | image
    · exact ⟨h, hi⟩
    · have hregular := Image.regular_of_ofStream? hs
      exact ⟨h.install hr hregular, hregular⟩
  · exact ⟨h.clock hi, hi⟩
  · exact ⟨h.reset hr, hi⟩
  · exact ⟨⟨h.configured, h.coreCount, h.programLen, h.cores, h.ramSize, h.romSize, h.ramWords,
      h.romWords, h.rom, h.code⟩, hi⟩

theorem acts (h : m.Intact config cells) (hi : Image.Regular config cells)
    (hr : 0 < config.registers) (actions : List (Action Bus)) :
    (m.acts actions).Intact config (actions.foldl (Action.written config) cells) := by
  induction actions generalizing m cells with
  | nil => exact h
  | cons action actions ih =>
    obtain ⟨h', hi'⟩ := h.act hi hr action
    exact ih h' hi'

end Intact

variable [PortBus Bus]

/-- A machine stays intact from its creation on, whatever is done with it. If its program is no
    longer than the largest word, registers and stacks hold nothing but words. -/
theorem intact_of_create {config : Config} {bus : Bus} {m : Machine Bus}
    (h : create config bus = .ok m) (actions : List (Action Bus)) :
    (m.acts actions).Intact config (Action.lastWritten config actions) ∧
      ((m.acts actions).programLen ≤ config.mask → ∀ core ∈ (m.acts actions).cores,
        (∀ j word : Nat, core.registers[j]? = some word → word ≤ config.mask) ∧
          ∀ word ∈ core.stack, word ≤ config.mask) := by
  obtain ⟨hvalid, rfl⟩ := create_eq_ok_iff.1 h
  have hintact := (Intact.create hvalid.registers_pos bus).acts (Image.regular_nil config)
    hvalid.registers_pos actions
  refine ⟨hintact, fun hlen core hc => ?_⟩
  have hcore := hintact.cores core hc
  rw [← Nat.max_eq_left hlen]
  exact ⟨hcore.registers, hcore.stack⟩

/-- A machine with words of two bits. -/
def narrow : Config := { registers := 2, maxStack := 1, ramWords := 8, wordBits := 2 }

/-- A program of five words that puts the address of its end into a register, and from there,
    cut to a word, into its first cell. It is loaded after one that asks for too much memory,
    and runs until it faults: its last word is data. -/
def pushing : List (Action QueueBus) :=
  let done := Label.anonymous 0
  [.load [.note (.minRam 9)],
    .load [.code .psh [.label done], .code .pop [.register 1],
      .code .store [.immediate 0, .register 1], .code .nop [], .code .dw [.immediate 7],
      .note (.markLabel done)],
    .clock, .clock, .clock, .clock, .clock, .host { ports := [{ number := 1 }] }]

theorem intact_of_create_pushing :
    create narrow QueueBus.empty = .ok (blank narrow .empty) ∧
      ((blank narrow .empty).acts pushing).Intact narrow (Action.lastWritten narrow pushing) ∧
      ((blank narrow .empty).acts pushing).cores =
        [{ ip := 4, registers := #[0, 5], halted := true }] ∧
      ((blank narrow .empty).acts pushing).ram[0]? = some (.data 1) ∧
      (Action.lastWritten narrow pushing).length = 5 := by
  have h : create narrow QueueBus.empty = .ok (blank narrow .empty) := by decide +kernel
  exact ⟨h, (intact_of_create h pushing).1, by decide +kernel, by decide +kernel,
    by decide +kernel⟩

end Machine
end Wordcode
