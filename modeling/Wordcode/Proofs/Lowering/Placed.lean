import Wordcode.Proofs.Isolation
import Wordcode.Proofs.Loading
import Wordcode.Proofs.Lowering.Runs

/-!
# Lowered instructions in any program

What becomes of an arithmetic instruction computes the same wherever it stands: before and after
it there may be anything, it may be entered with any registers, flags and stacks, and it may be
executed from ROM or from RAM. In RAM the program could change under the feet of the core, but an
expansion does not store anything. So the core cannot tell the program from one in ROM of which
only the instructions are left that do not store (`Machine.quiet`).

* `Machine.Reaches`: by executed ticks only, the only core of a machine gets to a view of a kind;
* `Machine.reaches_of_quiet`: what the quiet program reaches, the machine reaches;
* `Lowering.Placed`: the core is about to execute a lowered instruction;
* `View.Delivers`, `View.Stops`: how it leaves the lowered instruction;
* `Lowering.delivers_multiply`, `Lowering.delivers_divide`, `Lowering.delivers_modulo`: lowered
  products, quotients and remainders;
* `Lowering.delivers_shift`: lowered shifts, by any count.
-/

namespace Wordcode

variable {Bus : Type}

open Instruction Expansion

/-! ## Programs that do not store -/

/-- Whether an instruction changes nothing but its core. -/
def Decoded.isQuiet (d : Decoded) : Bool :=
  match d.operation with
  | .code op => !op.changesShared
  | .note _ => false

theorem Decoded.isQuiet_iff {d : Decoded} :
    d.isQuiet = true ↔ ∃ op, d.operation = .code op ∧ op.changesShared = false := by
  unfold isQuiet
  split <;> simp_all

/-- The cell, if an instruction is in it that changes nothing but its core. Anything else gives
    way to data. -/
def Cell.quiet : Cell → Cell
  | .code d => if d.isQuiet then .code d else zero
  | .data _ => zero

theorem Cell.quiet_eq_code_iff {cell : Cell} {d : Decoded} :
    cell.quiet = .code d ↔ cell = .code d ∧ d.isQuiet = true := by
  cases cell with
  | data word => simp [quiet, zero]
  | code d' =>
    by_cases h : d'.isQuiet = true
    · simp only [quiet, h, if_true, Cell.code.injEq]
      exact ⟨fun e => ⟨e, e ▸ h⟩, And.left⟩
    · simp only [quiet, h, zero, Cell.code.injEq]
      exact ⟨fun e => (nomatch e), fun e => absurd (e.1 ▸ e.2) h⟩

namespace Config

/-- The configuration with the code store in ROM. -/
def inRom (config : Config) : Config :=
  { config with executeFromRom := true, romWords := config.codeWords }

theorem Valid.inRom {config : Config} (h : config.Valid) : config.inRom.Valid :=
  ⟨h.wordBits_pos, h.wordBits_le, h.registers_pos, h.cores_pos, h.codeWords_pos⟩

/-- An instruction without labels, as it is executed. -/
def decode (config : Config) (i : Instruction) : Decoded := .ofInstruction {} config.mask i

end Config

/-- Where a program is executed from makes no difference to an instruction. -/
theorem Decoded.execute_inRom [PortBus Bus] (config : Config) (v : View Bus) (d : Decoded) :
    d.execute config.inRom v = d.execute config v := by
  have heffect : d.effect config.inRom v.ram v.core = d.effect config v.ram v.core := by
    unfold effect
    split
    · next op _ => cases op <;> rfl
    · rfl
  rw [execute, execute, heffect]
  rfl

namespace Machine

/-- By executed ticks only, the core with the given view gets to a view of the given kind. -/
def Reaches [PortBus Bus] (m : Machine Bus) (v : View Bus) (goal : View Bus → Prop) : Prop :=
  ∃ n w, (m.ofView v).after n = m.ofView w ∧
    (m.ofView v).ticks n = List.replicate n (.ran 0 .executed) ∧ goal w

/-- The program of a machine, of which only those instructions are left that change nothing but
    their core. -/
def quiet (m : Machine Bus) (resolution : Resolution) (valid : m.config.Valid) : Code where
  config := m.config.inRom
  rom := m.codeStore.map Cell.quiet
  size := m.programLen
  resolution
  valid := valid.inRom
  fromRom := rfl

variable {m : Machine Bus} {resolution : Resolution} {valid : m.config.Valid} {v w u : View Bus}
  {o : Outcome}

/-- The quiet part of the program of a machine has the instructions of the machine that are
    quiet. -/
theorem fetch_quiet {a : Nat} {d : Decoded} :
    (m.quiet resolution valid).fetch a = some (.code d) ↔
      a < m.programLen ∧ m.codeStore[a]? = some (.code d) ∧ d.isQuiet = true := by
  have hsize : (m.quiet resolution valid).size = m.programLen := rfl
  rw [Code.fetch, hsize]
  split
  · next hlt =>
    simp only [quiet, Array.getElem?_map, Option.map_eq_some_iff, Cell.quiet_eq_code_iff, hlt,
      true_and]
    constructor
    · rintro ⟨_, hc, rfl, hquiet⟩
      exact ⟨hc, hquiet⟩
    · rintro ⟨hc, hquiet⟩
      exact ⟨_, hc, rfl, hquiet⟩
  · next hge => simp [hge]

variable [PortBus Bus]

/-- A tick of the quiet program is one of the machine. -/
theorem tick_of_quiet (ht : ((m.ofView v).quiet resolution valid).tick v = (u, o))
    (hf : o.isFault = false) :
    v.tick m.config m.rom m.programLen = (u, o) ∧ u.ram = v.ram := by
  rcases Code.cases_of_tick ht hf with ⟨hsize, rfl, rfl⟩ | ⟨d, hfetch, hx⟩
  · have hip : m.programLen ≤ v.core.ip := hsize
    exact ⟨by simp [View.tick, View.step, hip], rfl⟩
  · obtain ⟨hlt, hcell, hquiet⟩ := fetch_quiet.1 hfetch
    obtain ⟨op, hop, hshared⟩ := Decoded.isQuiet_iff.1 hquiet
    replace hlt : v.core.ip < m.programLen := hlt
    replace hcell : (if m.config.executeFromRom then m.rom else v.ram)[v.core.ip]? =
        some (.code d) := hcell
    replace hx : d.execute m.config v = (u, o) := (d.execute_inRom m.config v).symm.trans hx
    refine ⟨?_, ?_⟩
    · simp only [View.tick, View.step, Nat.not_le.2 hlt, if_false, hcell, hx]
      cases o with
      | faulted kind => cases hf
      | _ => rfl
    · have hcore := View.execute_eq_with_core m.config v hop hshared
      rw [hx] at hcore
      rw [show u = _ from hcore]

/-- The machine reaches what its quiet program reaches. -/
theorem reaches_of_quiet {goal : View Bus → Prop}
    (h : ((m.ofView v).quiet resolution valid).Reaches v goal) : m.Reaches v goal := by
  obtain ⟨n, w, hts, hgoal⟩ := h
  suffices hrun : ∀ os u, ((m.ofView v).quiet resolution valid).Ticks u os w →
      (∀ o ∈ os, o.isFault = false) → u.ram = v.ram →
      (m.ofView u).after os.length = m.ofView w ∧
        (m.ofView u).ticks os.length = os.map (.ran 0) by
    obtain ⟨ha, ht⟩ := hrun _ v hts (fun o ho => by rw [List.eq_of_mem_replicate ho]; rfl) rfl
    rw [List.length_replicate] at ha ht
    exact ⟨n, w, ha, by rw [ht, List.map_replicate], hgoal⟩
  -- Along the run the memory stays as it is, and so does the program in it.
  clear hts hgoal
  intro os u hts hf hram
  induction hts with
  | nil u => exact ⟨rfl, rfl⟩
  | @cons u u' w o os hh ht _ ih =>
    have hstore : (m.ofView v).codeStore = (m.ofView u).codeStore :=
      congrArg (fun ram => if m.config.executeFromRom then m.rom else ram) hram.symm
    have hcode : (m.ofView v).quiet resolution valid = (m.ofView u).quiet resolution valid := by
      simp only [quiet, hstore]
      rfl
    rw [hcode] at ht
    obtain ⟨htick, hram'⟩ := tick_of_quiet ht (hf o List.mem_cons_self)
    have hclock : (m.ofView u).clock = (m.ofView u', .ran 0 o) := by rw [clock_ofView hh, htick]
    obtain ⟨ha, hts⟩ := ih (fun o' ho' => hf o' (List.mem_cons_of_mem _ ho'))
      (hram'.trans hram)
    rw [List.length_cons, after, ticks, hclock, ha, hts]
    exact ⟨rfl, rfl⟩

end Machine

/-! ## Loaded programs -/

/-- Whether an instruction of a stream changes nothing but its core, and is no data. -/
def Instruction.IsQuiet : Instruction → Prop
  | .note _ => True
  | .code op _ => op.isData = false ∧ op.changesShared = false

namespace Machine

variable {m m' : Machine Bus}

/-- Instructions that change nothing but their core stand in the quiet program as they stand in
    memory. -/
theorem holds_quiet {resolution : Resolution} {valid : m.config.Valid} {address : Nat}
    {stream : List Instruction} (hquiet : ∀ i ∈ stream, i.IsQuiet)
    (hsize : address + extent stream ≤ m.programLen)
    (h : Located (m.codeStore[·]?) resolution m.config.mask address stream) :
    (m.quiet resolution valid).Holds address stream := by
  induction stream generalizing address with
  | nil => trivial
  | cons i rest ih =>
    rw [List.forall_mem_cons] at hquiet
    rw [extent_cons] at hsize
    refine ⟨?_, ih hquiet.2 (by omega) h.2⟩
    cases i with
    | note n => cases n <;> exact h.1
    | code op operands =>
      have hpos : 0 < (code op operands).footprint := op.footprint_pos
      refine (stands_code_iff hquiet.1.1).2 (fetch_quiet.2 ⟨by omega, ?_, ?_⟩)
      · exact (stands_code_iff hquiet.1.1).1 h.1
      · exact Decoded.isQuiet_iff.2 ⟨op, rfl, hquiet.1.2⟩

/-- A program that was loaded stands in the code store. -/
theorem exists_located_of_load {stream : List Instruction} (h : m.load stream = (m', .ok ())) :
    m'.config = m.config ∧ m'.programLen = extent stream ∧
      ∃ resolution, Located (m'.codeStore[·]?) resolution m'.config.mask 0 stream := by
  obtain ⟨image, hi, rfl⟩ := load_eq_ok_iff.1 h
  refine ⟨rfl, Image.size_eq hi, image.resolution, (Image.located hi).imp fun a cell ha => ?_⟩
  have hfits := (Image.exists_ofStream?_iff.1 ⟨image, hi⟩).fits
  have hlt : a < image.size := (List.getElem?_eq_some_iff.1 ha).1
  rw [← Image.size_eq hi] at hfits
  rw [codeStore_install, Image.getElem?_fill, if_pos (Nat.lt_of_lt_of_le hlt hfits), ha]
  rfl

end Machine

/-- Where two memories hold the same cells, the same instructions stand. -/
theorem Located.congr {fetch fetch' : Nat → Option Cell} {resolution : Resolution}
    {mask address : Nat} {stream : List Instruction}
    (hf : ∀ a, address ≤ a → a < address + extent stream → fetch' a = fetch a)
    (h : Located fetch resolution mask address stream) :
    Located fetch' resolution mask address stream := by
  induction stream generalizing address with
  | nil => trivial
  | cons i rest ih =>
    rw [extent_cons] at hf
    refine ⟨?_, ih (fun a ha ha' => hf a (by omega) (by omega)) h.2⟩
    have hs := h.1
    cases i with
    | note n => cases n <;> exact hs
    | code op operands =>
      have hpos : 0 < (code op operands).footprint := op.footprint_pos
      rw [Stands] at hs ⊢
      rwa [hf address (Nat.le_refl _) (by omega)]

/-! ## How an instruction ends -/

namespace View

/-- An instruction, or what it was lowered to, has put a word into a register and a result into
    the flags. It takes `length` words of the program, and changes nothing else but hidden
    registers. -/
structure Delivers (v : View Bus) (length : Nat) (hidden : List Nat) (t word flags : Nat)
    (w : View Bus) : Prop where
  ip : w.core.ip = v.core.ip + length
  flags : w.core.flags = flags
  size : w.core.registers.size = v.core.registers.size
  register : ∀ j, j ∉ hidden → w.core.registers[j]? = (v.core.put t word).registers[j]?
  stack : w.core.stack = v.core.stack
  calls : w.core.calls = v.core.calls
  halted : w.core.halted = v.core.halted
  ram : w.ram = v.ram
  bus : w.bus = v.bus

/-- A core has halted, with nothing changed in its registers but in hidden ones. -/
structure Stops (v : View Bus) (hidden : List Nat) (w : View Bus) : Prop where
  halted : w.core.halted = true
  size : w.core.registers.size = v.core.registers.size
  register : ∀ j, j ∉ hidden → w.core.registers[j]? = v.core.registers[j]?
  calls : w.core.calls = v.core.calls
  ram : w.ram = v.ram
  bus : w.bus = v.bus

end View

/-- What is delivered to a frame is delivered to its view. -/
theorem Frame.Delivered.delivers {v w : View Bus} {length t result : Nat} {hidden : List Nat}
    (ht : t < v.core.registers.size)
    (h : (Frame.ofView v).Delivered v length hidden t result w) :
    v.Delivers length hidden t result result w := by
  obtain ⟨file, hfile, rfl⟩ := h
  refine ⟨rfl, rfl, Frame.size_view, fun j hj => ?_, rfl, rfl, rfl, rfl, rfl⟩
  have hassign : v.assign t result = (((Frame.ofView v).assign t result).view v, .executed) := by
    rw [← Frame.assign_view _ ht, Frame.view_ofView]
  have hput : (v.core.put t result).registers =
      (((Frame.ofView v).assign t result).view v).core.registers := by
    rw [View.assign_of_lt ht] at hassign
    exact congrArg (fun p : View Bus × Outcome => p.1.core.registers) hassign
  rw [hput, Frame.registers_view, Frame.registers_view]
  simp only [hfile j hj]
  rfl

theorem Frame.Stopped.stops {v w : View Bus} {hidden : List Nat}
    (h : (Frame.ofView v).Stopped v hidden w) : v.Stops hidden w := by
  obtain ⟨ip, flags, stack, file, hfile, rfl⟩ := h
  refine ⟨rfl, Frame.size_view, fun j hj => ?_, rfl, rfl, rfl⟩
  have hsame : v.core.registers[j]? = ((Frame.ofView v).view v).core.registers[j]? := by
    rw [Frame.view_ofView]
  rw [hsame, Frame.registers_view]
  refine (Frame.registers_view j).trans ?_
  simp only [hfile j hj]

/-! ## Lowered instructions -/

/-- An instruction of an expandable opcode puts its result into its destination. -/
theorem Config.exists_delivers [PortBus Bus] {config : Config} {v : View Bus} {op : Opcode}
    {t a b r : Nat} {x y : Operand} (hop : op.isExpandable = true) (ht : t < v.core.registers.size)
    (ha : (config.decode (.code op [.register t, x, y])).value v.core 2 = .ok a)
    (hb : (config.decode (.code op [.register t, x, y])).value v.core 3 = .ok b)
    (hr : op.result? a b = some r) :
    ∃ u, (config.decode (.code op [.register t, x, y])).execute config v = (u, .executed) ∧
      v.Delivers 1 [] t (r &&& config.mask) r u := by
  have heffect : (config.decode (.code op [.register t, x, y])).effectOf config v.ram v.core op =
      .ok (.compute (.ok t) r) := by
    cases op with
    | mlt | bsl | bsr =>
      cases hr
      exact Decoded.binary_eq_ok_iff.2 ⟨a, ha, b, hb, rfl⟩
    | div | mod =>
      obtain ⟨h0, hr⟩ := Option.ite_none_left_eq_some.1 hr
      cases hr
      exact Decoded.quotient_eq_ok_iff.2 ⟨a, ha, b, hb, .inr ⟨h0, rfl⟩⟩
    | _ => cases hop
  rw [Decoded.execute_of_effectOf rfl heffect]
  refine ⟨_, View.assign_of_lt ht, rfl, Core.put_flags .., Core.size_put .., fun j _ => ?_,
    Core.put_stack .., Core.put_calls .., Core.put_halted .., rfl, rfl⟩
  unfold Core.put
  split <;> rfl

namespace Lowering

/-- What becomes of an instruction for a target of the least tier. -/
def coreBlock (config : Config) (scratch first : Nat) (i : Instruction) : List Instruction :=
  (instruction .core ⟨scratch, config.wordBits⟩ first i).1

/-- A core is about to execute what an instruction was lowered to, somewhere in a program. -/
structure Placed (m : Machine Bus) (v : View Bus) (scratch first : Nat) (i : Instruction)
    (before after : List Instruction) : Prop where
  valid : m.config.Valid
  loaded : ∃ m₀ : Machine Bus,
    m₀.load (before ++ coreBlock m.config scratch first i ++ after) = (m, .ok ())
  /-- No store has overwritten it. -/
  intact : ∀ a, extent before ≤ a →
    a < extent before + extent (coreBlock m.config scratch first i) →
    (m.ofView v).codeStore[a]? = m.codeStore[a]?
  running : v.core.halted = false
  ip : v.core.ip = extent before
  size : v.core.registers.size = m.config.registers
  registers : ∀ i' ∈ coreBlock m.config scratch first i, ∀ j ∈ i'.registers, j < m.config.registers
  scratch_ne : scratch ≠ 0
  unnamed : scratch ∉ i.registers

/-- Expansions that compute do not store, and have no data in them. -/
theorem isQuiet_settle {context : Context} {op : Opcode} {given : List Operand} {first count : Nat}
    {i : Instruction} (hop : op.isExpandable = true) (h : Part op given first count i) :
    ∀ i' ∈ settle .core context i, i'.IsQuiet := by
  by_cases hbrk : i = .code .brk []
  · have hfits : fits .core (.code .brk []) = false := rfl
    rw [hbrk, settle_brk, hfits]
    exact List.forall_mem_cons.2 ⟨trivial, List.forall_mem_singleton.2 ⟨rfl, rfl⟩⟩
  have hquiet : i.IsQuiet := by
    cases h with
    | trap => exact absurd rfl hbrk
    | @copy t x hx => cases x <;> exact ⟨rfl, rfl⟩
    | @jump branch k hb hk => cases branch <;> first | exact ⟨rfl, rfl⟩ | cases hb
    | @onto u j hs ht => cases u <;> first | exact ⟨rfl, rfl⟩ | cases hs <;> cases ht
    | @combine b j k hs ht => cases b <;> first | exact ⟨rfl, rfl⟩ | cases hs
    | announce | mark => trivial
    | site k h | go h _ | goBack j h | halt h | word n h | half n h => subst h; cases hop
    | _ => exact ⟨rfl, rfl⟩
  have hfits : fits .core i = true := by
    rcases fits_of_part h with hf | ⟨rfl, -⟩ | ⟨-, rfl⟩
    · exact hf
    · exact absurd rfl hbrk
    · cases hop
  rw [settle_of_fits hfits]
  exact List.forall_mem_singleton.2 hquiet

/-- Instructions of expandable opcodes are expanded for a target of the least tier. -/
theorem exists_coreBlock (config : Config) (scratch first : Nat) {op : Opcode}
    (hop : op.isExpandable = true) (d x y : Operand) :
    ∃ expansion, expand? ⟨scratch, config.wordBits⟩ first op [d, x, y] = some expansion ∧
      coreBlock config scratch first (.code op [d, x, y]) =
        .note (.comment (code op [d, x, y]).render) ::
          expansion.body.flatMap (settle .core ⟨scratch, config.wordBits⟩) := by
  obtain ⟨expansion, he⟩ := exists_expand ⟨scratch, config.wordBits⟩ first hop d x y
  have hfits : fits .core (.code op [d, x, y]) = false := by
    rcases Opcode.isExpandable_iff.1 hop with rfl | rfl | rfl | rfl | rfl <;> rfl
  exact ⟨expansion, he, congrArg Prod.fst (instruction_of_expand hfits he)⟩

namespace Placed

variable {m : Machine Bus} {v : View Bus} {scratch first t a b r : Nat} {i : Instruction}
  {op : Opcode} {x y : Operand} {before after : List Instruction}

/-- What an instruction was lowered to stands in the quiet program, unless it stores. -/
theorem exists_holds (h : Placed m v scratch first i before after)
    (hquiet : ∀ i' ∈ coreBlock m.config scratch first i, i'.IsQuiet) :
    ∃ resolution, ((m.ofView v).quiet resolution h.valid).Holds v.core.ip
      (coreBlock m.config scratch first i) := by
  obtain ⟨m₀, hl⟩ := h.loaded
  obtain ⟨-, hlen, resolution, hlocated⟩ := Machine.exists_located_of_load hl
  obtain ⟨-, hlocated⟩ := located_append.1 (located_append.1 hlocated).1
  rw [Nat.zero_add] at hlocated
  rw [extent_append, extent_append] at hlen
  refine ⟨resolution, h.ip ▸ Machine.holds_quiet hquiet ?_ (hlocated.congr h.intact)⟩
  have hlen' : (m.ofView v).programLen = m.programLen := rfl
  omega

/-- What an instruction reads, its expansion is given. -/
theorem given (h : Placed m v scratch first (.code op [.register t, x, y]) before after)
    (resolution : Resolution) {operand : Operand} {p : Nat}
    (hp : [.register t, x, y][p]? = some operand)
    (ha : (m.config.decode (.code op [.register t, x, y])).value v.core (p + 1) = .ok a)
    (hle : a ≤ m.config.mask) :
    operand.Given ((m.ofView v).quiet resolution h.valid) v (Frame.ofView v) scratch ∧
      operand.eval m.config.mask (Frame.ofView v).file = a := by
  obtain ⟨hreadable, rfl⟩ := Decoded.eval_of_value hp (fun _ _ => rfl) ha
  refine ⟨⟨hreadable, hle, ?_⟩, rfl⟩
  rintro rfl
  exact h.unnamed (List.mem_filterMap.2 ⟨_, List.mem_of_getElem? hp, rfl⟩)

/-- An expansion is ready to be executed where it is placed, if there is room on the stack. -/
theorem exists_ready (h : Placed m v scratch first (.code op [.register t, x, y]) before after)
    (hop : op.isExpandable = true)
    (hroom : v.core.stack.length + op.borrows y ≤ m.config.maxStack) :
    ∃ expansion resolution,
      expand? ⟨scratch, m.config.wordBits⟩ first op [.register t, x, y] = some expansion ∧
      extent (coreBlock m.config scratch first (.code op [.register t, x, y])) =
        extent (expansion.body.flatMap (settle .core ⟨scratch, m.config.wordBits⟩)) ∧
      Ready ((m.ofView v).quiet resolution h.valid) v (Frame.ofView v) scratch (op.borrows y)
        (expansion.body.flatMap (settle .core ⟨scratch, m.config.wordBits⟩)) := by
  obtain ⟨expansion, he, hblock⟩ :=
    exists_coreBlock m.config scratch first hop (.register t) x y
  have hpart := part_of_expand he
  have hregisters := h.registers
  obtain ⟨resolution, hold⟩ := h.exists_holds (by
    rw [hblock, List.forall_mem_cons, List.forall_mem_flatMap]
    exact ⟨trivial, fun i hi => isQuiet_settle hop (hpart i hi)⟩)
  rw [hblock] at hold hregisters
  refine ⟨expansion, resolution, he, ?_, h.running, hold.note_tail, fun i hi j hj => ?_, hroom,
    h.scratch_ne⟩
  · rw [hblock, extent_cons, footprint_note, Nat.zero_add]
  · rw [h.size]
    exact hregisters i (List.mem_cons_of_mem _ hi) j (List.mem_filterMap.2 ⟨_, hj, rfl⟩)

/-- The register that a result is for exists. -/
theorem lt_size (h : Placed m v scratch first (.code op [.register t, x, y]) before after)
    (hop : op.isExpandable = true) : t < v.core.registers.size := by
  obtain ⟨expansion, he, hblock⟩ :=
    exists_coreBlock m.config scratch first hop (.register t) x y
  obtain ⟨j, hj⟩ := exists_deliver_mem hop he
  have hfits : fits .core (deliver (.register t) j) = true := rfl
  rw [h.size]
  refine h.registers (deliver (.register t) j) ?_ t List.mem_cons_self
  rw [hblock]
  exact List.mem_cons_of_mem _ (List.mem_flatMap.2 ⟨_, hj, by simp [settle_of_fits hfits]⟩)

variable [PortBus Bus]

/-- An expansion delivers what its instruction computes. -/
theorem reaches (h : Placed m v scratch first (.code op [.register t, x, y]) before after)
    (hop : op.isExpandable = true)
    (ha : (m.config.decode (.code op [.register t, x, y])).value v.core 2 = .ok a)
    (hb : (m.config.decode (.code op [.register t, x, y])).value v.core 3 = .ok b)
    (hale : a ≤ m.config.mask) (hble : b ≤ m.config.mask)
    (hroom : v.core.stack.length + op.borrows y ≤ m.config.maxStack)
    (hr : op.result? a b = some r) :
    m.Reaches v (v.Delivers
      (extent (coreBlock m.config scratch first (.code op [.register t, x, y]))) [scratch] t
      (r &&& m.config.mask) (r &&& m.config.mask)) := by
  obtain ⟨expansion, resolution, he, hextent, hready⟩ := h.exists_ready hop hroom
  obtain ⟨hx, rfl⟩ := h.given resolution (p := 1) rfl ha hale
  obtain ⟨hy, rfl⟩ := h.given resolution (p := 2) rfl hb hble
  have hreaches := reaches_arithmetic h.valid.wordBits_pos h.valid.mask_add_one he hready hx hy hr
  rw [Frame.view_ofView] at hreaches
  rw [hextent]
  exact Machine.reaches_of_quiet (hreaches.mono fun w hw => hw.delivers (h.lt_size hop))

/-- A result that is a word is delivered alike by an instruction and by its expansion. -/
theorem delivers (h : Placed m v scratch first (.code op [.register t, x, y]) before after)
    (hop : op.isExpandable = true)
    (ha : (m.config.decode (.code op [.register t, x, y])).value v.core 2 = .ok a)
    (hb : (m.config.decode (.code op [.register t, x, y])).value v.core 3 = .ok b)
    (hale : a ≤ m.config.mask) (hble : b ≤ m.config.mask)
    (hroom : v.core.stack.length + op.borrows y ≤ m.config.maxStack)
    (hr : op.result? a b = some r) (hle : r ≤ m.config.mask) :
    (∃ u, (m.config.decode (.code op [.register t, x, y])).execute m.config v = (u, .executed) ∧
        v.Delivers 1 [] t r r u) ∧
      m.Reaches v (v.Delivers
        (extent (coreBlock m.config scratch first (.code op [.register t, x, y]))) [scratch] t
        r r) := by
  have hnative := Config.exists_delivers hop (h.lt_size hop) ha hb hr
  have hreaches := h.reaches hop ha hb hale hble hroom hr
  rw [Config.and_mask_of_le hle] at hnative hreaches
  exact ⟨hnative, hreaches⟩

omit [PortBus Bus] in
/-- Hidden registers are not those of the instruction. -/
theorem not_hidden (h : Placed m v scratch first i before after) {j : Nat}
    (hj : .register j ∈ i.operands) (count : Nat) :
    j ∉ scratch :: borrow (avoided ⟨scratch, m.config.wordBits⟩ i.operands) count := by
  rw [List.mem_cons, not_or]
  refine ⟨?_, fun hmem => (mem_borrow_avoided hmem).2.2 hj⟩
  rintro rfl
  exact h.unnamed (List.mem_filterMap.2 ⟨_, hj, rfl⟩)

/-- By zero, an expansion stops the core, with the destination as it was. -/
theorem stops (h : Placed m v scratch first (.code op [.register t, x, y]) before after)
    (hop : op = .div ∨ op = .mod)
    (ha : (m.config.decode (.code op [.register t, x, y])).value v.core 2 = .ok a)
    (hb : (m.config.decode (.code op [.register t, x, y])).value v.core 3 = .ok 0)
    (hale : a ≤ m.config.mask)
    (hroom : v.core.stack.length + op.borrows y ≤ m.config.maxStack) :
    m.Reaches v fun w =>
      v.Stops (scratch :: borrow (avoided ⟨scratch, m.config.wordBits⟩ [.register t, x, y])
        (op.borrows y)) w ∧ w.core.registers[t]? = v.core.registers[t]? := by
  have hexpandable : op.isExpandable = true := by rcases hop with rfl | rfl <;> rfl
  obtain ⟨expansion, resolution, he, -, hready⟩ := h.exists_ready hexpandable hroom
  obtain ⟨hx, -⟩ := h.given resolution (p := 1) rfl ha hale
  obtain ⟨hy, h0⟩ := h.given resolution (p := 2) rfl hb (Nat.zero_le _)
  have hpart := part_of_expand he
  obtain ⟨f, hf, hsettle⟩ := exists_settles .core ⟨scratch, m.config.wordBits⟩
  have hdq : op ≠ .dq := by rcases hop with rfl | rfl <;> decide
  have htrap : f (.code .brk []) = [.note (.comment (code .brk []).render), .code .hlt []] :=
    (hsettle op [] 0 0 _ hdq (.trap hop)).symm.trans settle_brk
  rw [List.flatMap_congr fun i hi => hsettle op _ first _ i hdq (hpart i hi)] at hready
  suffices hstops : ((m.ofView v).quiet resolution h.valid).Reaches ((Frame.ofView v).view v)
      ((Frame.ofView v).Stopped v (scratch ::
        borrow (avoided ⟨scratch, m.config.wordBits⟩ [.register t, x, y]) (op.borrows y))) by
    rw [Frame.view_ofView] at hstops
    refine Machine.reaches_of_quiet (hstops.mono fun w hw => ⟨hw.stops, ?_⟩)
    exact hw.stops.register t (h.not_hidden List.mem_cons_self _)
  rcases hop with rfl | rfl
  · exact stops_divide hf htrap he hready hy h0
  · exact stops_modulo hf htrap he hready hx hy h0

end Placed

/-! ## Products, quotients and remainders -/

variable [PortBus Bus] {m : Machine Bus} {v : View Bus} {scratch first t a b : Nat} {x y : Operand}
  {before after : List Instruction}

/-- A lowered product is what the instruction puts into its destination, as far as it fits the
    word. The flags hold no more than that, while the instruction keeps the whole product. -/
theorem delivers_multiply
    (h : Placed m v scratch first (.code .mlt [.register t, x, y]) before after)
    (ha : (m.config.decode (.code .mlt [.register t, x, y])).value v.core 2 = .ok a)
    (hb : (m.config.decode (.code .mlt [.register t, x, y])).value v.core 3 = .ok b)
    (hale : a ≤ m.config.mask) (hble : b ≤ m.config.mask)
    (hroom : v.core.stack.length + 2 ≤ m.config.maxStack) :
    (∃ u, (m.config.decode (.code .mlt [.register t, x, y])).execute m.config v = (u, .executed) ∧
        v.Delivers 1 [] t (a * b % Nat.pow 2 m.config.wordBits) (a * b) u) ∧
      m.Reaches v (v.Delivers
        (extent (coreBlock m.config scratch first (.code .mlt [.register t, x, y]))) [scratch] t
        (a * b % Nat.pow 2 m.config.wordBits) (a * b % Nat.pow 2 m.config.wordBits)) := by
  have hproduct : a * b &&& m.config.mask = a * b % Nat.pow 2 m.config.wordBits := by
    rw [Config.and_mask, h.valid.mask_add_one]
  rw [← hproduct]
  exact ⟨Config.exists_delivers rfl (h.lt_size rfl) ha hb rfl,
    h.reaches rfl ha hb hale hble hroom rfl⟩

/-- A program around what an instruction was lowered to, with register 7 as scratch. -/
def around (i : Instruction) : List Instruction :=
  [.code .nop []] ++ coreBlock {} 7 3 i ++ [.code .psh [.register 1]]

/-- A machine for bytes that executes such a program from RAM. -/
def host (i : Instruction) : Machine QueueBus := (Machine.blank {} .empty).loaded (around i)

/-- The core of such a machine, with two words in registers, between calls and with something on
    its stack. -/
def hostView (i : Instruction) (x y : Nat) : View QueueBus where
  core :=
    { ip := 1, registers := #[0, x, y, 3, 4, 5, 6, 7], flags := 300, stack := [8], calls := [9] }
  ram := (host i).ram
  bus := .empty

/-- The machine that is loaded with an instruction in the middle of a program has the instruction
    placed. -/
theorem placed_host (i : Instruction) (x y : Nat)
    (hload : ((Machine.blank {} QueueBus.empty).load (around i)).2.isOk = true)
    (hregisters : ∀ i' ∈ coreBlock {} 7 3 i, ∀ j ∈ i'.registers, j < 8)
    (hunnamed : 7 ∉ i.registers) :
    (host i).config = {} ∧ Placed (host i) (hostView i x y) 7 3 i [.code .nop []]
      [.code .psh [.register 1]] := by
  have hl := Machine.load_eq_loaded hload
  have hconfig : (host i).config = {} := (Machine.exists_located_of_load hl).1
  refine ⟨hconfig, ?_, ⟨_, by rw [hconfig]; exact hl⟩, fun a _ _ => ?_, rfl, rfl, ?_, ?_, ?_,
    hunnamed⟩
  · rw [hconfig]
    exact (Config.invalid?_eq_none_iff _).1 rfl
  · rfl
  · rw [hconfig]
    rfl
  · rwa [hconfig]
  · decide

/-- A product in the place of its first factor. -/
def scaling : Instruction := .code .mlt [.register 1, .register 1, .register 2]

theorem delivers_multiply_scaling :
    (host scaling).Reaches (hostView scaling 100 7)
      ((hostView scaling 100 7).Delivers 15 [7] 1 188 188) := by
  obtain ⟨hconfig, h⟩ := placed_host scaling 100 7 (by decide +kernel) (by decide +kernel)
    (by decide)
  have hdelivers := delivers_multiply (a := 100) (b := 7) h rfl rfl (by rw [hconfig]; decide)
    (by rw [hconfig]; decide) (by rw [hconfig]; decide)
  rw [hconfig] at hdelivers
  exact hdelivers.2

/-- A lowered quotient is delivered as the instruction delivers it. By zero, the core halts. -/
theorem delivers_divide
    (h : Placed m v scratch first (.code .div [.register t, x, y]) before after)
    (ha : (m.config.decode (.code .div [.register t, x, y])).value v.core 2 = .ok a)
    (hb : (m.config.decode (.code .div [.register t, x, y])).value v.core 3 = .ok b)
    (hale : a ≤ m.config.mask) (hble : b ≤ m.config.mask)
    (hroom : v.core.stack.length + (3 + divisorCount y) ≤ m.config.maxStack) :
    (b ≠ 0 →
      (∃ u, (m.config.decode (.code .div [.register t, x, y])).execute m.config v =
          (u, .executed) ∧ v.Delivers 1 [] t (a / b) (a / b) u) ∧
        m.Reaches v (v.Delivers
          (extent (coreBlock m.config scratch first (.code .div [.register t, x, y]))) [scratch] t
          (a / b) (a / b))) ∧
      (b = 0 → m.Reaches v fun w =>
        v.Stops (scratch :: borrow (avoided ⟨scratch, m.config.wordBits⟩ [.register t, x, y])
          (3 + divisorCount y)) w ∧ w.core.registers[t]? = v.core.registers[t]?) := by
  refine ⟨fun h0 => ?_, fun h0 => ?_⟩
  · exact h.delivers rfl ha hb hale hble hroom (if_neg h0)
      (Nat.le_trans (Nat.div_le_self a b) hale)
  · subst h0
    exact h.stops (.inl rfl) ha hb hale hroom

/-- A quotient in the place of the divisor. -/
def sharing : Instruction := .code .div [.register 2, .immediate 200, .register 2]

theorem delivers_divide_sharing :
    (host sharing).Reaches (hostView sharing 1 129)
        ((hostView sharing 1 129).Delivers 33 [7] 2 1 1) ∧
      (host sharing).Reaches (hostView sharing 1 0) fun w =>
        (hostView sharing 1 0).Stops [7, 1, 3, 4] w ∧ w.core.registers[2]? = some 0 := by
  obtain ⟨hconfig, h⟩ := placed_host sharing 1 129 (by decide +kernel) (by decide +kernel)
    (by decide)
  obtain ⟨-, h'⟩ := placed_host sharing 1 0 (by decide +kernel) (by decide +kernel) (by decide)
  have hdivide := delivers_divide (a := 200) (b := 129) h (by rw [hconfig]; rfl) rfl
    (by rw [hconfig]; decide) (by rw [hconfig]; decide) (by rw [hconfig]; decide)
  have hdivide' := delivers_divide (a := 200) (b := 0) h' (by rw [hconfig]; rfl) rfl
    (by rw [hconfig]; decide) (by rw [hconfig]; decide) (by rw [hconfig]; decide)
  rw [hconfig] at hdivide hdivide'
  exact ⟨(hdivide.1 (by decide)).2, hdivide'.2 rfl⟩

/-- A lowered remainder is delivered as the instruction delivers it. By zero, the core halts. -/
theorem delivers_modulo
    (h : Placed m v scratch first (.code .mod [.register t, x, y]) before after)
    (ha : (m.config.decode (.code .mod [.register t, x, y])).value v.core 2 = .ok a)
    (hb : (m.config.decode (.code .mod [.register t, x, y])).value v.core 3 = .ok b)
    (hale : a ≤ m.config.mask) (hble : b ≤ m.config.mask)
    (hroom : v.core.stack.length + divisorCount y ≤ m.config.maxStack) :
    (b ≠ 0 →
      (∃ u, (m.config.decode (.code .mod [.register t, x, y])).execute m.config v =
          (u, .executed) ∧ v.Delivers 1 [] t (a % b) (a % b) u) ∧
        m.Reaches v (v.Delivers
          (extent (coreBlock m.config scratch first (.code .mod [.register t, x, y]))) [scratch] t
          (a % b) (a % b))) ∧
      (b = 0 → m.Reaches v fun w =>
        v.Stops (scratch :: borrow (avoided ⟨scratch, m.config.wordBits⟩ [.register t, x, y])
          (divisorCount y)) w ∧ w.core.registers[t]? = v.core.registers[t]?) := by
  refine ⟨fun h0 => ?_, fun h0 => ?_⟩
  · exact h.delivers rfl ha hb hale hble hroom (if_neg h0) (Nat.le_trans (Nat.mod_le a b) hale)
  · subst h0
    exact h.stops (.inr rfl) ha hb hale hroom

/-- A remainder by a constant, which is zero in a byte if it is 256. -/
def dealing (y : Nat) : Instruction := .code .mod [.register 3, .register 1, .immediate y]

/-- The remainder of 200 by 77 is 46. By 256, which is zero in a byte, the core stops. -/
theorem delivers_modulo_dealing :
    (host (dealing 77)).Reaches (hostView (dealing 77) 200 2)
        ((hostView (dealing 77) 200 2).Delivers 12 [7] 3 46 46) ∧
      (host (dealing 256)).Reaches (hostView (dealing 256) 200 2) fun w =>
        (hostView (dealing 256) 200 2).Stops [7, 2] w ∧ w.core.registers[3]? = some 3 := by
  obtain ⟨hconfig, h⟩ := placed_host (dealing 77) 200 2 (by decide +kernel) (by decide +kernel)
    (by decide)
  obtain ⟨hconfig', h'⟩ := placed_host (dealing 256) 200 2 (by decide +kernel) (by decide +kernel)
    (by decide)
  have hmodulo := delivers_modulo (a := 200) (b := 77) h rfl (by rw [hconfig]; rfl)
    (by rw [hconfig]; decide) (by rw [hconfig]; decide) (by rw [hconfig]; decide)
  have hmodulo' := delivers_modulo (a := 200) (b := 0) h' rfl (by rw [hconfig']; rfl)
    (by rw [hconfig']; decide) (by rw [hconfig']; decide) (by rw [hconfig']; decide)
  rw [hconfig] at hmodulo
  rw [hconfig'] at hmodulo'
  exact ⟨(hmodulo.1 (by decide)).2, hmodulo'.2 rfl⟩

/-! ## Shifts -/

/-- What a shift by a count leaves of a word of so many bits. -/
def shiftedBy (op : Opcode) (bits x count : Nat) : Nat :=
  if op = .bsl then x * Nat.pow 2 count % Nat.pow 2 bits else x / Nat.pow 2 count

/-- The instruction gives up on counts beyond the result, and what is left then is zero. -/
theorem exists_shiftedBy {config : Config} (hvalid : config.Valid) {op : Opcode}
    (hop : op = .bsl ∨ op = .bsr) (hale : a ≤ config.mask) (count : Nat) :
    ∃ r, op.result? a count = some r ∧
      r &&& config.mask = shiftedBy op config.wordBits a count := by
  rcases hop with rfl | rfl
  · refine ⟨_, rfl, ?_⟩
    rw [Arithmetic.shiftLeft_and_mask, hvalid.mask_add_one, shiftedBy, if_pos rfl]
  · refine ⟨_, rfl, ?_⟩
    have hle : a / Nat.pow 2 count ≤ config.mask := Nat.le_trans (Nat.div_le_self a _) hale
    rw [Arithmetic.shiftRight_eq hale, Config.and_mask_of_le hle, shiftedBy, if_neg (by decide)]

/-- A lowered shift is delivered as the instruction delivers it, whatever the count. -/
theorem delivers_shift {op : Opcode} (hop : op = .bsl ∨ op = .bsr)
    (h : Placed m v scratch first (.code op [.register t, x, y]) before after)
    (ha : (m.config.decode (.code op [.register t, x, y])).value v.core 2 = .ok a)
    (hb : (m.config.decode (.code op [.register t, x, y])).value v.core 3 = .ok b)
    (hale : a ≤ m.config.mask) (hble : b ≤ m.config.mask)
    (hroom : v.core.stack.length + 1 ≤ m.config.maxStack) :
    (∃ u, (m.config.decode (.code op [.register t, x, y])).execute m.config v = (u, .executed) ∧
        v.Delivers 1 [] t (shiftedBy op m.config.wordBits a b) u.core.flags u) ∧
      m.Reaches v (v.Delivers
        (extent (coreBlock m.config scratch first (.code op [.register t, x, y]))) [scratch] t
        (shiftedBy op m.config.wordBits a b) (shiftedBy op m.config.wordBits a b)) := by
  have hexpandable : op.isExpandable = true := by rcases hop with rfl | rfl <;> rfl
  have hborrows : op.borrows y = 1 := by rcases hop with rfl | rfl <;> rfl
  obtain ⟨r, hr, hword⟩ := exists_shiftedBy h.valid hop hale b
  obtain ⟨u, hx, hu⟩ := Config.exists_delivers hexpandable (h.lt_size hexpandable) ha hb hr
  have hreaches := h.reaches hexpandable ha hb hale hble (hborrows ▸ hroom) hr
  rw [hword] at hu hreaches
  exact ⟨⟨u, hx, hu.flags ▸ hu⟩, hreaches⟩

/-- A shift up by the count in its own destination. -/
def raising : Instruction := .code .bsl [.register 2, .register 1, .register 2]

/-- A shift down by more bits than a word has. -/
def emptying : Instruction := .code .bsr [.register 1, .register 1, .immediate 255]

/-- A shift by three places of 101 gives 40 in a byte, and one by more places than a byte has gives
    0. -/
theorem delivers_shift_raising :
    (host raising).Reaches (hostView raising 101 3)
        ((hostView raising 101 3).Delivers 10 [7] 2 40 40) ∧
      (host emptying).Reaches (hostView emptying 101 3)
        ((hostView emptying 101 3).Delivers 10 [7] 1 0 0) := by
  obtain ⟨hconfig, h⟩ := placed_host raising 101 3 (by decide +kernel) (by decide +kernel)
    (by decide)
  obtain ⟨hconfig', h'⟩ := placed_host emptying 101 3 (by decide +kernel) (by decide +kernel)
    (by decide)
  have hshift := delivers_shift (a := 101) (b := 3) (.inl rfl) h rfl rfl
    (by rw [hconfig]; decide) (by rw [hconfig]; decide) (by rw [hconfig]; decide)
  have hshift' := delivers_shift (a := 101) (b := 255) (.inr rfl) h' rfl
    (by rw [hconfig']; rfl) (by rw [hconfig']; decide) (by rw [hconfig']; decide)
    (by rw [hconfig']; decide)
  rw [hconfig] at hshift
  rw [hconfig'] at hshift'
  exact ⟨hshift.2, hshift'.2⟩

end Lowering
end Wordcode
