import Wordcode.Machine.Clock
import Wordcode.Proofs.Layout

/-!
# Executions of a single core

A machine with one core that executes from ROM is a `View` that ticks: its program is
fixed, and whose turn it is never in question. The program is a `Code`, which keeps, with
the ROM, the resolution of the labels it was loaded with.

* `Machine.after`, `Machine.ticks`: a machine clocked a number of times;
* `Machine.HaltsWithin`: every core is halted after so many ticks, and no tick faulted;
* `Code.Ticks`: a sequence of ticks of a core, with their outcomes;
* `Machine.exists_ticks`, `Machine.after_of_ticks`: the two say the same;
* `Code.Reaches`: the core gets, by executed ticks only, to a view of a given kind.
-/

namespace Wordcode

variable {Bus : Type}

open Instruction

/-! ## Clocking a machine -/

namespace Outcome

/-- Whether the core cannot go on. -/
def isFault : Outcome → Bool
  | .faulted _ => true
  | _ => false

end Outcome

namespace Tick

/-- Whether a core faulted. -/
def isFault : Tick → Bool
  | .ran _ outcome => outcome.isFault
  | .idle => false

/-- Whether a core stopped at a breakpoint. -/
def isBreakpoint : Tick → Bool
  | .ran _ .breakpoint => true
  | _ => false

end Tick

namespace Machine

/-- A machine with one core, of a valid configuration, that executes from ROM. -/
structure SingleCore (m : Machine Bus) : Prop where
  valid : m.config.Valid
  fromRom : m.config.executeFromRom = true
  core : m.cores.length = 1

/-- The machine of a configuration, without a program. -/
def blank (config : Config) (bus : Bus) : Machine Bus where
  config := config
  ram := Array.replicate config.ramWords Cell.zero
  rom := Array.replicate config.romWords Cell.zero
  cores := List.replicate config.cores (Core.initial config.registers)
  bus := bus

theorem create_eq_ok_iff {config : Config} {bus : Bus} {m : Machine Bus} :
    create config bus = .ok m ↔ config.Valid ∧ m = blank config bus := by
  rw [create, ← Config.invalid?_eq_none_iff]
  cases config.invalid? with
  | some error => simp
  | none => simp [blank, eq_comm]

theorem singleCore_blank {config : Config} {bus : Bus} (hv : config.invalid? = none)
    (hr : config.executeFromRom = true) (hc : config.cores = 1) :
    (blank config bus).SingleCore :=
  ⟨(Config.invalid?_eq_none_iff _).1 hv, hr, by simp [blank, hc]⟩

/-- The machine whose only core has the given view. -/
def ofView (m : Machine Bus) (v : View Bus) : Machine Bus :=
  { m with ram := v.ram, cores := [v.core], nextCore := 0, bus := v.bus }

theorem isHalted_ofView (m : Machine Bus) (v : View Bus) :
    (m.ofView v).isHalted = v.core.halted := by
  simp [isHalted, ofView]

variable [PortBus Bus]

/-- The machine after a number of ticks. -/
def after (m : Machine Bus) : Nat → Machine Bus
  | 0 => m
  | n + 1 => m.clock.1.after n

/-- What a number of ticks do. -/
def ticks (m : Machine Bus) : Nat → List Tick
  | 0 => []
  | n + 1 => m.clock.2 :: m.clock.1.ticks n

/-- After so many ticks, none of which faulted, every core is halted. -/
structure HaltsWithin (m : Machine Bus) (n : Nat) : Prop where
  halted : (m.after n).isHalted = true
  faultless : ∀ tick ∈ m.ticks n, tick.isFault = false

instance (m : Machine Bus) (n : Nat) : Decidable (m.HaltsWithin n) :=
  decidable_of_iff ((m.after n).isHalted = true ∧ ∀ tick ∈ m.ticks n, tick.isFault = false)
    ⟨fun ⟨h, h'⟩ => ⟨h, h'⟩, fun h => ⟨h.halted, h.faultless⟩⟩

/-- How many of a number of ticks are breakpoints. -/
def breakpoints (m : Machine Bus) (n : Nat) : Nat := (m.ticks n).countP Tick.isBreakpoint

theorem after_add (m : Machine Bus) (j k : Nat) : m.after (j + k) = (m.after j).after k := by
  induction j generalizing m with
  | zero => rw [Nat.zero_add, after]
  | succ j ih => rw [Nat.add_right_comm, after, ih, after]

theorem clock_ofView_of_halted {m : Machine Bus} {v : View Bus} (h : v.core.halted = true) :
    (m.ofView v).clock = (m.ofView v, .idle) := by
  apply clock_of_nextRunning?_eq_none
  simp [nextRunning?, ofView, h]

theorem clock_ofView {m : Machine Bus} {v : View Bus} (h : v.core.halted = false) :
    (m.ofView v).clock =
      (m.ofView (v.tick m.config m.rom m.programLen).1,
        .ran 0 (v.tick m.config m.rom m.programLen).2) := by
  have hn : (m.ofView v).nextRunning? = some (0, v.core) := by
    simp [nextRunning?, ofView, h]
  rw [clock_of_nextRunning?_eq_some hn]
  simp [ofView]

end Machine

/-! ## Programs in ROM -/

/-- A program in ROM, and the addresses its labels had when it was loaded. -/
structure Code where
  config : Config
  rom : Array Cell
  /-- The number of words of the program. -/
  size : Nat
  resolution : Resolution
  valid : config.Valid
  fromRom : config.executeFromRom = true

namespace Code

variable (code : Code)

/-- The cell at an address of the program. -/
def fetch (address : Nat) : Option Cell :=
  if address < code.size then code.rom[address]? else none

/-- The instructions of a stream stand one after the other from an address on. -/
def Holds (address : Nat) (stream : List Instruction) : Prop :=
  Located code.fetch code.resolution code.config.mask address stream

/-- An instruction as the program holds it. -/
def decode (op : Opcode) (operands : List Operand) : Decoded :=
  .ofInstruction code.resolution code.config.mask (.code op operands)

/-- The program that a stream was loaded as. -/
structure Carries (stream : List Instruction) : Prop where
  size : code.size = extent stream
  holds : code.Holds 0 stream
  /-- Only the labels that the stream places are resolved. -/
  unmarked : ∀ label : Label, label.id ∉ marks stream → code.resolution.addressOf label = none
  /-- Only instructions of the stream can be executed. -/
  cells : ∀ address decoded, code.fetch address = some (.code decoded) →
    ∃ op operands, .code op operands ∈ stream ∧ op.isData = false ∧
      decoded = code.decode op operands

variable [PortBus Bus]

/-- One tick of a core. -/
def tick (v : View Bus) : View Bus × Outcome := v.tick code.config code.rom code.size

/-- A sequence of ticks of a core that is not halted before the last of them. -/
inductive Ticks : View Bus → List Outcome → View Bus → Prop
  | nil (v : View Bus) : Ticks v [] v
  | cons {v v' v'' : View Bus} {outcome : Outcome} {outcomes : List Outcome} :
      v.core.halted = false → code.tick v = (v', outcome) → Ticks v' outcomes v'' →
        Ticks v (outcome :: outcomes) v''

variable {code}

theorem holds_append {address : Nat} {xs ys : List Instruction} :
    code.Holds address (xs ++ ys) ↔
      code.Holds address xs ∧ code.Holds (address + extent xs) ys :=
  located_append

theorem holds_code_cons {address : Nat} {op : Opcode} {operands : List Operand}
    {rest : List Instruction} (hd : op.isData = false) :
    code.Holds address (.code op operands :: rest) ↔
      code.fetch address = some (.code (code.decode op operands)) ∧
        code.Holds (address + 1) rest := by
  rw [Holds, Located, stands_code_iff hd, footprint_code, Opcode.footprint_of_not_isData hd]
  rfl

theorem holds_mark_cons {address : Nat} {label : Label} {rest : List Instruction} :
    code.Holds address (.note (.markLabel label) :: rest) ↔
      code.resolution.addressOf label = some address ∧ code.Holds address rest :=
  Iff.rfl

theorem Holds.note_tail {address : Nat} {n : Note} {rest : List Instruction}
    (h : code.Holds address (.note n :: rest)) : code.Holds address rest :=
  h.2

theorem size_le_of_fetch {address : Nat} (h : code.size ≤ address) : code.fetch address = none :=
  if_neg (by omega)

/-! ### Single ticks -/

variable {v v' : View Bus} {outcome : Outcome}

/-- A core that has left the program halts. -/
theorem tick_of_size_le (h : code.size ≤ v.core.ip) : code.tick v = (v.halt, .executed) := by
  simp [tick, View.tick, View.step, h]

theorem step_of_fetch {cell : Cell} (h : code.fetch v.core.ip = some cell) :
    v.step code.config code.rom code.size =
      match cell with
      | .code decoded => decoded.execute code.config v
      | .data _ => (v, .faulted (.malformedData v.core.ip)) := by
  have hlt : v.core.ip < code.size := by
    by_contra hge
    rw [size_le_of_fetch (Nat.le_of_not_lt hge)] at h
    cases h
  rw [fetch, if_pos hlt] at h
  rw [View.step, if_neg (by omega)]
  simp only [code.fromRom, if_true, h]
  cases cell <;> rfl

theorem tick_of_fetch_data {word : Nat} (h : code.fetch v.core.ip = some (.data word)) :
    (code.tick v).2.isFault = true := by
  rw [tick, View.tick, step_of_fetch h]
  rfl

theorem tick_of_execute {decoded : Decoded} (h : code.fetch v.core.ip = some (.code decoded))
    (he : decoded.execute code.config v = (v', outcome)) (hf : outcome.isFault = false) :
    code.tick v = (v', outcome) := by
  rw [tick, View.tick, step_of_fetch h]
  simp only [he]
  cases outcome <;> first | rfl | cases hf

theorem execute_of_tick {decoded : Decoded} (h : code.fetch v.core.ip = some (.code decoded))
    (ht : code.tick v = (v', outcome)) (hf : outcome.isFault = false) :
    decoded.execute code.config v = (v', outcome) := by
  rw [tick, View.tick, step_of_fetch h] at ht
  rcases he : decoded.execute code.config v with ⟨u, o⟩
  simp only [he] at ht
  cases o with
  | faulted kind =>
    cases ht
    cases hf
  | _ => exact ht

/-- A tick that does not fault leaves the program or executes an instruction. -/
theorem cases_of_tick (ht : code.tick v = (v', outcome)) (hf : outcome.isFault = false) :
    (code.size ≤ v.core.ip ∧ v' = v.halt ∧ outcome = .executed) ∨
      ∃ decoded, code.fetch v.core.ip = some (.code decoded) ∧
        decoded.execute code.config v = (v', outcome) := by
  by_cases hlt : v.core.ip < code.size
  · cases hc : code.fetch v.core.ip with
    | none =>
      -- a program without its last cells faults there
      rw [fetch, if_pos hlt] at hc
      simp only [tick, View.tick, View.step, Nat.not_le.2 hlt, if_false, code.fromRom, if_true,
        hc] at ht
      cases ht
      cases hf
    | some cell =>
      cases cell with
      | data word =>
        have := tick_of_fetch_data hc
        rw [ht, hf] at this
        cases this
      | code decoded => exact .inr ⟨decoded, rfl, execute_of_tick hc ht hf⟩
  · rw [tick_of_size_le (Nat.le_of_not_lt hlt)] at ht
    cases ht
    exact .inl ⟨Nat.le_of_not_lt hlt, rfl, rfl⟩

/-! ### Sequences of ticks -/

namespace Ticks

variable {u v w : View Bus} {os os' : List Outcome}

theorem append (h : code.Ticks u os v) (h' : code.Ticks v os' w) :
    code.Ticks u (os ++ os') w := by
  induction h with
  | nil => exact h'
  | cons hh ht _ ih => exact .cons hh ht (ih h')

theorem exists_take (h : code.Ticks u os v) (k : Nat) : ∃ w, code.Ticks u (os.take k) w := by
  induction h generalizing k with
  | nil u => exact ⟨u, by simpa using .nil u⟩
  | @cons u _ _ _ _ hh ht _ ih =>
    cases k with
    | zero => exact ⟨u, .nil u⟩
    | succ k =>
      obtain ⟨w, hw⟩ := ih k
      exact ⟨w, .cons hh ht hw⟩

theorem single (hh : v.core.halted = false) (ht : code.tick v = (v', outcome)) :
    code.Ticks v [outcome] v' :=
  .cons hh ht (.nil v')

end Ticks

variable (code) in
/-- By executed ticks only, the core gets to a view of the given kind. -/
def Reaches (v : View Bus) (goal : View Bus → Prop) : Prop :=
  ∃ n w, code.Ticks v (List.replicate n .executed) w ∧ goal w

namespace Reaches

variable {goal goal' : View Bus → Prop}

theorem here (h : goal v) : code.Reaches v goal := ⟨0, v, .nil v, h⟩

theorem step (hh : v.core.halted = false) (ht : code.tick v = (v', .executed))
    (h : code.Reaches v' goal) : code.Reaches v goal := by
  obtain ⟨n, w, hw, hg⟩ := h
  exact ⟨n + 1, w, .cons hh ht hw, hg⟩

theorem bind (h : code.Reaches v goal) (next : ∀ w, goal w → code.Reaches w goal') :
    code.Reaches v goal' := by
  obtain ⟨n, w, hw, hg⟩ := h
  obtain ⟨n', w', hw', hg'⟩ := next w hg
  exact ⟨n + n', w', by rw [List.replicate_add]; exact hw.append hw', hg'⟩

theorem mono (h : code.Reaches v goal) (imp : ∀ w, goal w → goal' w) : code.Reaches v goal' :=
  h.bind fun w hw => .here (imp w hw)

end Reaches

end Code

/-! ## Machines and views -/

namespace Machine

variable {code : Code} {m : Machine Bus}

/-- The machine executes the given program. -/
structure Runs (m : Machine Bus) (code : Code) : Prop where
  config : m.config = code.config
  rom : m.rom = code.rom
  size : m.programLen = code.size

variable [PortBus Bus]

theorem Runs.tick (h : m.Runs code) (v : View Bus) :
    v.tick m.config m.rom m.programLen = code.tick v := by
  rw [h.config, h.rom, h.size, Code.tick]

/-- Ticks of a view are ticks of the machine. -/
theorem after_of_ticks (h : m.Runs code) {v w : View Bus} {os : List Outcome}
    (ht : code.Ticks v os w) :
    (m.ofView v).after os.length = m.ofView w ∧ (m.ofView v).ticks os.length = os.map (.ran 0) := by
  induction ht with
  | nil v => exact ⟨rfl, rfl⟩
  | @cons v v' w o os hh ht _ ih =>
    have hc : (m.ofView v).clock = (m.ofView v', .ran 0 o) := by
      rw [clock_ofView hh, h.tick, ht]
    rw [List.length_cons, after, ticks, hc, List.map_cons, ih.1, ih.2]
    exact ⟨rfl, rfl⟩

theorem ofView_of_halted {v : View Bus} (h : v.core.halted = true) (n : Nat) :
    (m.ofView v).after n = m.ofView v ∧ (m.ofView v).ticks n = List.replicate n .idle := by
  induction n with
  | zero => exact ⟨rfl, rfl⟩
  | succ n ih =>
    rw [after, ticks, clock_ofView_of_halted h, ih.1, ih.2]
    exact ⟨rfl, rfl⟩

/-- A machine that was clocked ticked a view, until its core was halted. -/
theorem exists_ticks (h : m.Runs code) (v : View Bus) (n : Nat) :
    ∃ os w idle, code.Ticks v os w ∧ os.length + idle = n ∧ (m.ofView v).after n = m.ofView w ∧
      (m.ofView v).ticks n = os.map (.ran 0) ++ List.replicate idle .idle := by
  induction n generalizing v with
  | zero => exact ⟨[], v, 0, .nil v, rfl, rfl, rfl⟩
  | succ n ih =>
    cases hh : v.core.halted with
    | true =>
      obtain ⟨ha, ht⟩ := ofView_of_halted (m := m) hh (n + 1)
      exact ⟨[], v, n + 1, .nil v, Nat.zero_add _, ha, by rw [ht]; rfl⟩
    | false =>
      rcases ht : code.tick v with ⟨v', o⟩
      have hc : (m.ofView v).clock = (m.ofView v', .ran 0 o) := by
        rw [clock_ofView hh, h.tick, ht]
      obtain ⟨os, w, idle, hw, hlen, ha, hts⟩ := ih v'
      refine ⟨o :: os, w, idle, .cons hh ht hw, by simp only [List.length_cons]; omega, ?_, ?_⟩
      · rw [after, hc, ha]
      · rw [ticks, hc, hts, List.map_cons, List.cons_append]

end Machine

/-! ## Loaded machines -/

/-- The view of the only core of a machine that was just loaded from ROM. -/
def View.initial (config : Config) (bus : Bus) : View Bus where
  core := Core.initial config.registers
  ram := Array.replicate config.ramWords Cell.zero
  bus := bus

/-- The program of an image. -/
def Code.ofImage (config : Config) (image : Image) (valid : config.Valid)
    (fromRom : config.executeFromRom = true) : Code where
  config := config
  rom := Image.fill config.romWords image.cells
  size := image.size
  resolution := image.resolution
  valid := valid
  fromRom := fromRom

/-- What is located in a memory is located in one that has the same cells and more. -/
theorem Located.imp {fetch fetch' : Nat → Option Cell} {resolution : Resolution} {mask : Nat}
    (hf : ∀ a cell, fetch a = some cell → fetch' a = some cell) {address : Nat}
    {stream : List Instruction} (h : Located fetch resolution mask address stream) :
    Located fetch' resolution mask address stream := by
  induction stream generalizing address with
  | nil => trivial
  | cons i rest ih =>
    refine ⟨?_, ih h.2⟩
    have hs := h.1
    cases i with
    | note n =>
      cases n with
      | markLabel label => exact hs
      | _ => trivial
    | code op operands =>
      cases hd : op.isData with
      | true => exact (stands_data_iff hd).2 (((stands_data_iff hd).1 hs).imp fun _ => hf _ _)
      | false => exact (stands_code_iff hd).2 (hf _ _ ((stands_code_iff hd).1 hs))

namespace Code

variable {config : Config} {stream : List Instruction} {image : Image}

/-- The program of an image fetches its cells. -/
theorem fetch_ofImage (h : Image.ofStream? config stream = .ok image) (valid : config.Valid)
    (fromRom : config.executeFromRom = true) (address : Nat) :
    (ofImage config image valid fromRom).fetch address = image.cells[address]? := by
  have hfit : image.cells.length ≤ config.romWords := by
    have := (Image.exists_ofStream?_iff.1 ⟨image, h⟩).fits
    rw [Config.codeWords, if_pos fromRom, ← Image.size_eq h] at this
    exact this
  by_cases hlt : address < image.cells.length
  · rw [fetch, if_pos (show address < (ofImage config image valid fromRom).size from hlt)]
    simp only [ofImage, Image.fill, List.getElem?_toArray]
    rw [List.take_of_length_le hfit, List.getElem?_append_left hlt]
  · rw [fetch, if_neg (show ¬address < (ofImage config image valid fromRom).size from hlt),
      List.getElem?_eq_none (Nat.le_of_not_lt hlt)]

theorem carries_ofImage (h : Image.ofStream? config stream = .ok image) (valid : config.Valid)
    (fromRom : config.executeFromRom = true) :
    (ofImage config image valid fromRom).Carries stream where
  size := Image.size_eq h
  holds := Located.imp (fun a cell ha => (fetch_ofImage h valid fromRom a).trans ha)
    (Image.located h)
  unmarked _ := (Image.addressOf_eq_none_iff h).2
  cells address decoded hd := by
    rw [fetch_ofImage h] at hd
    exact Image.exists_of_code_mem_cells h (List.mem_of_getElem? hd)

end Code

theorem Image.overlay_replicate (words : Nat) (cells : List Cell) :
    overlay (Array.replicate words Cell.zero) cells = fill words cells := by
  simp [overlay, fill]

theorem Image.ofStream?_of_error {config : Config} {stream : List Instruction} {error : LoadError}
    (h : Placement.ofStream? config stream = .error error) :
    ofStream? config stream = .error error := by
  rw [ofStream?, h]
  rfl

theorem Image.ofStream?_of_ok {config : Config} {stream : List Instruction} {placement : Placement}
    (h : Placement.ofStream? config stream = .ok placement) :
    ofStream? config stream =
      if config.codeWords < placement.size then
        .error (.programTooLarge placement.size config.codeWords)
      else
        (fun cells => ⟨cells.flatten, placement.resolution⟩) <$>
          stream.mapM (wordsOf config placement.resolution) := by
  simp only [ofStream?, h, bind, Except.bind]
  split <;> rfl

namespace Machine

variable {m m' : Machine Bus} {stream : List Instruction}

/-- The machine with an image in its code store, zero in all other memory and every
    core reset. -/
def install (m : Machine Bus) (image : Image) : Machine Bus :=
  let cells := fun used => if used then image.cells else []
  { m with
    ram := Image.fill m.config.ramWords (cells !m.config.executeFromRom)
    rom := Image.fill m.config.romWords (cells m.config.executeFromRom)
    programLen := image.size }.reset

/-- The changes that make up a load, taken together. -/
theorem reset_overwrite_clear (m : Machine Bus) {image : Image} {size : Nat}
    (h : size = image.size) :
    ({ m.clear.overwrite image.cells with programLen := size }).reset = m.install image := by
  subst h
  by_cases hrom : m.config.executeFromRom <;>
    simp [overwrite, clear, install, reset, hrom, Image.overlay_replicate, Image.fill]

/-- A pass that fails ends a load and leaves the machine as it is. -/
theorem run_liftExcept_bind {α : Type} (m : Machine Bus) (pass : Except LoadError α)
    (rest : α → ExceptT LoadError (StateM (Machine Bus)) Unit) :
    (liftExcept pass >>= rest).run m =
      match pass with
      | .ok a => (rest a).run m
      | .error error => (.error error, m) := by
  cases pass <;> rfl

/-- A program that cannot be loaded leaves the machine as it was, since nothing is changed before
    it is placed and written out. -/
theorem load_eq (m : Machine Bus) (stream : List Instruction) :
    m.load stream =
      match Image.ofStream? m.config stream with
      | .ok image => (m.install image, .ok ())
      | .error error => (m, .error error) := by
  rw [load, loader, run_liftExcept_bind]
  cases hp : Placement.ofStream? m.config stream with
  | error error => rw [Image.ofStream?_of_error hp]
  | ok placement =>
    by_cases hs : m.config.codeWords < placement.size
    · simp only [Image.ofStream?_of_ok hp, hs, if_true]
      rfl
    · have hsize {image : Image} (hi : Image.ofStream? m.config stream = .ok image) :
          placement.size = image.size := by
        rw [(Placement.foldlM_add_eq_ok_iff.1 hp).2, Placement.size_foldl_extend, Image.size_eq hi,
          Nat.zero_add]
      simp only [Image.ofStream?_of_ok hp, hs, if_false, run_liftExcept_bind] at hsize ⊢
      cases hc : stream.mapM (Image.wordsOf m.config placement.resolution) with
      | error error => rfl
      | ok cells =>
        rw [hc] at hsize
        exact Prod.ext (reset_overwrite_clear m (hsize rfl)) rfl
theorem load_eq_ok_iff :
    m.load stream = (m', .ok ()) ↔ ∃ image, Image.ofStream? m.config stream = .ok image ∧
      m' = m.install image := by
  rw [load_eq]
  cases Image.ofStream? m.config stream <;> simp [eq_comm]

theorem load_eq_error_iff {error : LoadError} :
    m.load stream = (m', .error error) ↔
      Image.ofStream? m.config stream = .error error ∧ m' = m := by
  rw [load_eq]
  cases Image.ofStream? m.config stream <;> simp [eq_comm, and_comm]

theorem exists_load_iff : (∃ m', m.load stream = (m', .ok ())) ↔ Loadable m.config stream := by
  rw [← Image.exists_ofStream?_iff]
  simp only [load_eq_ok_iff]
  exact ⟨fun ⟨_, image, hi, _⟩ => ⟨image, hi⟩, fun ⟨image, hi⟩ => ⟨_, image, hi, rfl⟩⟩

/-- The machine after a program was loaded, or could not be loaded. -/
def loaded (m : Machine Bus) (stream : List Instruction) : Machine Bus := (m.load stream).1

theorem load_eq_loaded (h : (m.load stream).2.isOk = true) :
    m.load stream = (m.loaded stream, .ok ()) := by
  refine Prod.ext rfl ?_
  cases ho : (m.load stream).2 with
  | ok => rfl
  | error error =>
    rw [ho] at h
    cases h

/-- A stream that was loaded is carried by a program that the machine runs from the initial
    view of its core. -/
theorem exists_code_of_load (hm : m.SingleCore) (h : m.load stream = (m', .ok ())) :
    ∃ code : Code, code.config = m.config ∧ code.Carries stream ∧ m'.Runs code ∧
      m' = m'.ofView (.initial m.config m.bus) := by
  obtain ⟨image, hi, rfl⟩ := load_eq_ok_iff.1 h
  refine ⟨.ofImage m.config image hm.valid hm.fromRom, rfl,
    Code.carries_ofImage hi hm.valid hm.fromRom, ⟨rfl, ?_, rfl⟩, ?_⟩
  · simp [install, reset, hm.fromRom, Code.ofImage]
  · obtain ⟨core, hc⟩ := List.length_eq_one_iff.1 hm.core
    simp [install, reset, ofView, hm.fromRom, hc, View.initial, Image.fill]

end Machine
end Wordcode
