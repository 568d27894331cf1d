import Wordcode.Proofs.Effects

/-!
# Checked streams

Some faults and some refusals to load come from the stream itself: a label that is placed
twice or nowhere, a register that does not exist, operands that do not suit their
operation. A stream can be *checked* for all of them before it is loaded, and then none of
them ever happens, whatever the machine, the number of its cores and the memory it
executes from. What remains are the faults of a run (memory, stacks, ports, data that is
executed) and the refusals of a machine that is too small.

The argument about a run is the usual one. Memory holds only instructions of the stream,
since what is stored is data; every core has all registers of the configuration; a tick
keeps both; and an instruction of a checked stream that is executed under these
conditions raises no static fault.

* `Checked`: what is checked;
* `LoadError.Arises`: where a refusal comes from;
* `Machine.Executes`: the invariant of a run;
* `Checked.safe`: a checked stream is safe.
-/

namespace Wordcode

variable {Bus : Type}

open Instruction

/-- Whether a fault comes from the stream and not from its run. -/
def FaultKind.isStatic : FaultKind → Bool
  | .unresolvedLabel _ | .registerOutOfRange _ _ | .invalidOperand _ _ => true
  | _ => false

/-- Whether an instruction ended in a static fault. -/
def Outcome.isStatic : Outcome → Bool
  | .faulted kind => kind.isStatic
  | _ => false

/-- Whether a tick ended in a static fault. -/
def Tick.isStatic : Tick → Bool
  | .ran _ outcome => outcome.isStatic
  | .idle => false

/-- Whether a stream is refused because the machine is too small for it. -/
def LoadError.isShortage : LoadError → Bool
  | .programTooLarge _ _ | .insufficientRegisters _ _ | .insufficientRam _ _ => true
  | .duplicateMark _ | .unresolvedData _ => false

/-- A stream that a machine refuses only if it is too small, and that never raises a static
    fault once it is loaded. -/
structure Safe (stream : List Instruction) : Prop where
  load : ∀ {Bus : Type} (m : Machine Bus) (error : LoadError),
    (m.load stream).2 = .error error → error.isShortage = true
  ticks : ∀ {Bus : Type} [PortBus Bus] (m m' : Machine Bus), m.load stream = (m', .ok ()) →
    ∀ n, ∀ tick ∈ m'.ticks n, tick.isStatic = false

/-- A stream whose operands suit their operations, that places every label it names, and
    none of them twice. -/
structure Wired (stream : List Instruction) : Prop where
  wellFormed : ∀ i ∈ stream, i.WellFormed
  nodup : (marks stream).Nodup
  marked : ∀ i ∈ stream, ∀ label : Label, .label label ∈ i.operands → label.id ∈ marks stream

/-- A wired stream that states a register index no less than any that it names. -/
structure Checked (stream : List Instruction) : Prop extends Wired stream where
  registers : ∃ index, .note (.maxReg index) ∈ stream ∧
    ∀ i ∈ stream, ∀ j, .register j ∈ i.operands → j ≤ index

/-! ## Refusals -/

theorem exists_split_of_foldlM_eq_error {ε α β : Type} {f : β → α → Except ε β} {xs : List α}
    {b : β} {e : ε} (h : xs.foldlM f b = .error e) :
    ∃ before x after b', xs = before ++ x :: after ∧ before.foldlM f b = .ok b' ∧
      f b' x = .error e := by
  induction xs generalizing b with
  | nil => cases h
  | cons x xs ih =>
    rw [List.foldlM_cons] at h
    rcases bind_eq_error_iff.1 h with hx | ⟨b', hx, h⟩
    · exact ⟨[], x, xs, b, rfl, rfl, hx⟩
    · obtain ⟨before, y, after, b'', rfl, hb, hy⟩ := ih h
      refine ⟨x :: before, y, after, b'', rfl, ?_, hy⟩
      rw [List.foldlM_cons]
      exact bind_eq_ok_iff.2 ⟨b', hx, hb⟩

theorem exists_of_mapM_eq_error {ε α β : Type} {f : α → Except ε β} {xs : List α} {e : ε}
    (h : xs.mapM f = .error e) : ∃ x ∈ xs, f x = .error e := by
  induction xs with
  | nil => cases h
  | cons x xs ih =>
    rw [List.mapM_cons] at h
    rcases bind_eq_error_iff.1 h with hx | ⟨y, -, h⟩
    · exact ⟨x, List.mem_cons_self, hx⟩
    · rcases bind_eq_error_iff.1 h with hxs | ⟨ys, -, h⟩
      · obtain ⟨x', hx', he⟩ := ih hxs
        exact ⟨x', List.mem_cons_of_mem _ hx', he⟩
      · cases h

/-- What in a stream, or in the configuration, an error comes from. -/
inductive LoadError.Arises (config : Config) (stream : List Instruction) : LoadError → Prop
  | duplicateMark {label : Label} : ¬(marks stream).Nodup →
      Arises config stream (.duplicateMark label)
  | insufficientRegisters {index : Nat} : .note (.maxReg index) ∈ stream →
      config.registers ≤ index →
      Arises config stream (.insufficientRegisters index config.registers)
  | insufficientRam {words : Nat} : .note (.minRam words) ∈ stream → config.ramWords < words →
      Arises config stream (.insufficientRam words config.ramWords)
  | programTooLarge : config.codeWords < extent stream →
      Arises config stream (.programTooLarge (extent stream) config.codeWords)
  | unresolvedData {op : Opcode} {label : Label} : .code op [.label label] ∈ stream →
      label.id ∉ marks stream → Arises config stream (.unresolvedData label)

namespace LoadError

variable {config : Config} {stream : List Instruction} {error : LoadError}

/-- An error in placing a stream is one that its instructions give rise to. -/
theorem arises_of_placement (h : Placement.ofStream? config stream = .error error) :
    Arises config stream error := by
  obtain ⟨before, i, after, placement, rfl, hb, hi⟩ := exists_split_of_foldlM_eq_error h
  obtain ⟨-, rfl⟩ := Placement.foldlM_add_eq_ok_iff.1 hb
  have hmem : i ∈ before ++ i :: after := by simp
  have herror : (before.foldl Placement.extend {}).resolve config i = .error error := by
    rcases bind_eq_error_iff.1 hi with hr | ⟨r, -, hr⟩
    · exact hr
    · cases hr
  unfold Placement.resolve at herror
  split at herror
  · next label =>
    split at herror
    · cases herror
    · next address haddress =>
      cases herror
      -- a label that has an address was placed before
      have hplaced : label.id ∈ marks before := by
        by_contra hl
        rw [Resolution.bind, Placement.addressOf_foldl_extend_of_not_mem hl] at haddress
        cases haddress
      refine .duplicateMark fun hnodup => ?_
      rw [marks_append, List.nodup_append] at hnodup
      exact hnodup.2.2 _ hplaced _ (by simp) rfl
  · next index =>
    split at herror
    · cases herror
    · next hle =>
      cases herror
      exact .insufficientRegisters hmem (Nat.le_of_not_lt hle)
  · next words =>
    split at herror
    · cases herror
    · next hle =>
      cases herror
      exact .insufficientRam hmem (Nat.lt_of_not_le hle)
  · cases herror

/-- The words of an instruction are refused only if they are data of a label that has no address. -/
theorem exists_of_wordsOf {resolution : Resolution} {i : Instruction}
    (h : Image.wordsOf config resolution i = .error error) :
    ∃ op label, i = .code op [.label label] ∧ error = .unresolvedData label ∧
      resolution.addressOf label = none := by
  cases i with
  | note n => cases h
  | code op operands =>
    cases hd : op.isData with
    | false =>
      rw [Image.wordsOf_code hd] at h
      cases h
    | true =>
      rw [Image.wordsOf_data hd] at h
      unfold Image.datum at h
      split at h
      · cases h
      · next label =>
        cases ha : resolution.addressOf label with
        | none =>
          rw [ha] at h
          cases h
          exact ⟨op, label, rfl, rfl, ha⟩
        | some address =>
          rw [ha] at h
          cases h
      · cases h

/-- Every refusal has a reason in the stream or in the configuration. -/
theorem arises_of_ofStream? (h : Image.ofStream? config stream = .error error) :
    Arises config stream error := by
  rcases bind_eq_error_iff.1 h with hp | ⟨placement, hp, h⟩
  · exact arises_of_placement hp
  · obtain ⟨⟨hnodup, -⟩, rfl⟩ := Placement.foldlM_add_eq_ok_iff.1 hp
    have hsize := Placement.size_foldl_extend stream {}
    simp only [Nat.zero_add] at hsize
    rw [hsize] at h
    split at h
    · next hlt =>
      cases h
      exact .programTooLarge hlt
    · rcases bind_eq_error_iff.1 h with hc | ⟨cells, -, h⟩
      · obtain ⟨i, hi, he⟩ := exists_of_mapM_eq_error hc
        obtain ⟨op, label, rfl, rfl, ha⟩ := exists_of_wordsOf he
        exact .unresolvedData hi ((Placement.addressOf_foldl_extend_eq_none_iff hnodup label).1 ha)
      · cases h

theorem arises_of_load {m : Machine Bus} (h : (m.load stream).2 = .error error) :
    Arises m.config stream error := by
  rw [Machine.load_eq] at h
  cases hi : Image.ofStream? m.config stream with
  | error e =>
    rw [hi] at h
    cases h
    exact arises_of_ofStream? hi
  | ok image =>
    rw [hi] at h
    cases h

end LoadError

/-- A wired stream is refused only by a machine that is too small. -/
theorem Wired.isShortage {stream : List Instruction} (h : Wired stream) {m : Machine Bus}
    {error : LoadError} (hl : (m.load stream).2 = .error error) : error.isShortage = true := by
  cases LoadError.arises_of_load hl with
  | duplicateMark hn => exact absurd h.nodup hn
  | unresolvedData hi hn => exact absurd (h.marked _ hi _ List.mem_cons_self) hn
  | insufficientRegisters | insufficientRam | programTooLarge => rfl

/-! ## Reading operands -/

/-- A computation that has a result of the given kind, or fails with a fault of the run. -/
def Guarded {α : Type} (P : α → Prop) : Except FaultKind α → Prop
  | .ok a => P a
  | .error kind => kind.isStatic = false

theorem Guarded.bind {α β : Type} {P : α → Prop} {Q : β → Prop} {x : Except FaultKind α}
    {f : α → Except FaultKind β} (hx : Guarded P x) (hf : ∀ a, P a → Guarded Q (f a)) :
    Guarded Q (x >>= f) := by
  cases x with
  | error kind => exact hx
  | ok a => exact hf a hx

/-- Accepted operands fill every place with a kind it accepts. -/
theorem Signature.exists_of_accepts {slots : List KindSet} {operands : List Operand}
    (h : accepts slots operands = true) {p : Nat} {kinds : KindSet} (hp : slots[p]? = some kinds) :
    ∃ x, operands[p]? = some x ∧ kinds.allows x.kind = true := by
  induction slots generalizing operands p with
  | nil => cases hp
  | cons kinds' slots ih =>
    cases operands with
    | nil => cases h
    | cons x operands =>
      rw [accepts, Bool.and_eq_true] at h
      cases p with
      | zero =>
        cases hp
        exact ⟨x, rfl, h.1⟩
      | succ p => exact ih h.2 hp

/-- Where an effect puts a word, or the fault for which there is no such place. -/
def Effect.destination? : Effect → Option (Except FaultKind Nat)
  | .compute destination _ | .pop destination | .receive destination _ => some destination
  | .assign t _ => some (.ok t)
  | _ => none

/-- An effect that puts a word somewhere puts it into a register below `count`. -/
def Effect.Writes (count : Nat) (e : Effect) : Prop :=
  ∀ destination, e.destination? = some destination → ∃ t < count, destination = .ok t

theorem Effect.writes_of_eq_none {count : Nat} {e : Effect} (h : e.destination? = none) :
    e.Writes count := by
  intro t ht
  rw [h] at ht
  cases ht

theorem Effect.writes_of_eq_some {count : Nat} {e : Effect} {destination : Except FaultKind Nat}
    (h : e.destination? = some destination) (ht : ∃ t < count, destination = .ok t) :
    e.Writes count := by
  intro destination' h'
  rw [h] at h'
  cases h'
  exact ht

/-- An instruction whose operands suit its opcode and all of whose registers are among the first
    `count`. -/
structure Suited (count : Nat) (op : Opcode) (operands : List Operand) : Prop where
  wellFormed : (code op operands).WellFormed
  registers : ∀ j, .register j ∈ operands → j < count

/-- A suited instruction whose labels are resolved. -/
structure Executable (count : Nat) (resolution : Resolution) (op : Opcode)
    (operands : List Operand) : Prop extends Suited count op operands where
  resolved : ∀ label, .label label ∈ operands → resolution.addressOf label ≠ none

section Slots

variable {count mask : Nat} {resolution : Resolution} {op : Opcode} {operands : List Operand}
  {core : Core}

theorem Suited.exists_slot (h : Suited count op operands) {p : Nat} {kinds : KindSet}
    (hp : op.slots[p]? = some kinds) :
    ∃ x ∈ operands, kinds.allows x.kind = true ∧
      (Decoded.ofInstruction resolution mask (.code op operands)).slot? (p + 1) =
        some (.decode resolution mask x) := by
  obtain ⟨x, hx, hk⟩ := Signature.exists_of_accepts h.wellFormed hp
  refine ⟨x, List.mem_of_getElem? hx, hk, ?_⟩
  rw [Decoded.slot?, Decoded.ofInstruction, List.getElem?_map, hx]
  rfl

/-- A place for registers only names a register that exists. -/
theorem Suited.destination (h : Suited count op operands) {p : Nat}
    (hp : op.slots[p]? = some .register) :
    ∃ t < count,
      (Decoded.ofInstruction resolution mask (.code op operands)).destination (p + 1) = .ok t := by
  obtain ⟨x, hx, hk, hslot⟩ := h.exists_slot hp
  rw [Decoded.destination, hslot]
  cases x with
  | register j => exact ⟨j, h.registers j hx, rfl⟩
  | immediate | label => cases hk

/-- Every place of an opcode can be read. -/
theorem Executable.value (h : Executable count resolution op operands)
    (hc : core.registers.size = count) {p : Nat} {kinds : KindSet}
    (hp : op.slots[p]? = some kinds) :
    Guarded (fun _ => True)
      ((Decoded.ofInstruction resolution mask (.code op operands)).value core (p + 1)) := by
  obtain ⟨x, hx, -, hslot⟩ := h.exists_slot hp
  rw [Decoded.value, hslot]
  cases x with
  | register j =>
    have hj : j < core.registers.size := hc ▸ h.registers j hx
    simp [Slot.decode, Core.read, hj, Guarded]
  | immediate n => trivial
  | label l =>
    obtain ⟨address, ha⟩ := Option.ne_none_iff_exists'.1 (h.resolved l hx)
    simp [Slot.decode, ha, Guarded]

end Slots

namespace Decoded

variable {count : Nat} {d : Decoded} {core : Core} {config : Config} {ram : Array Cell}

theorem guarded_assign (ht : ∃ t < count, d.destination 1 = .ok t) (word : Nat) :
    Guarded (Effect.Writes count) (d.destination 1 >>= fun t => pure (.assign t word)) := by
  obtain ⟨t, hlt, ht⟩ := ht
  rw [ht]
  exact Effect.writes_of_eq_some rfl ⟨t, hlt, rfl⟩

theorem guarded_unary {f : Nat → Nat} (hx : Guarded (fun _ => True) (d.value core 2))
    (ht : ∃ t < count, d.destination 1 = .ok t) : Guarded (Effect.Writes count) (d.unary core f) :=
  hx.bind fun _ _ => Effect.writes_of_eq_some rfl ht

theorem guarded_binary {f : Nat → Nat → Nat} (hx : Guarded (fun _ => True) (d.value core 2))
    (hy : Guarded (fun _ => True) (d.value core 3)) (ht : ∃ t < count, d.destination 1 = .ok t) :
    Guarded (Effect.Writes count) (d.binary core f) :=
  hx.bind fun _ _ => hy.bind fun _ _ => Effect.writes_of_eq_some rfl ht

theorem guarded_quotient {f : Nat → Nat → Nat} (hx : Guarded (fun _ => True) (d.value core 2))
    (hy : Guarded (fun _ => True) (d.value core 3)) (ht : ∃ t < count, d.destination 1 = .ok t) :
    Guarded (Effect.Writes count) (d.quotient core f) := by
  refine hx.bind fun x _ => hy.bind fun y _ => ?_
  split
  · exact Effect.writes_of_eq_none rfl
  · exact Effect.writes_of_eq_some rfl ht

theorem guarded_branch {taken : Bool} (hx : Guarded (fun _ => True) (d.value core 1)) :
    Guarded (Effect.Writes count) (d.branch core taken) := by
  unfold branch
  split
  · exact hx.bind fun _ _ => Effect.writes_of_eq_none rfl
  · exact Effect.writes_of_eq_none rfl

theorem guarded_address (value : Nat) : Guarded (fun _ => True) (address ram value) := by
  unfold address
  split
  · trivial
  · rfl

end Decoded

/-- Reading an executable instruction raises no static fault, and what it is about to write
    exists. -/
theorem Executable.effectOf {count mask : Nat} {resolution : Resolution} {op : Opcode}
    {operands : List Operand} {core : Core} {config : Config} {ram : Array Cell}
    (h : Executable count resolution op operands) (hc : core.registers.size = count) :
    Guarded (Effect.Writes count)
      ((Decoded.ofInstruction resolution mask (.code op operands)).effectOf config ram core
        op) := by
  cases op with
  | add | sub | mlt | and | or | xor | nand | nor | xnor | bsl | bsr =>
    exact Decoded.guarded_binary (h.value hc rfl) (h.value hc rfl) (h.destination rfl)
  | inc | dec | not | lsh | rsh => exact Decoded.guarded_unary (h.value hc rfl) (h.destination rfl)
  | div | mod =>
    exact Decoded.guarded_quotient (h.value hc rfl) (h.value hc rfl) (h.destination rfl)
  | cmp =>
    exact (h.value hc rfl).bind fun _ _ => (h.value hc rfl).bind fun _ _ =>
      Effect.writes_of_eq_none rfl
  | mov | imm => exact (h.value hc rfl).bind fun _ _ => Decoded.guarded_assign (h.destination rfl) _
  | load =>
    refine (h.value hc rfl).bind fun x _ => (Decoded.guarded_address x).bind fun location _ => ?_
    split
    · exact Decoded.guarded_assign (h.destination rfl) _
    · rfl
  | store =>
    exact (h.value hc rfl).bind fun x _ => (Decoded.guarded_address x).bind fun _ _ =>
      (h.value hc rfl).bind fun _ _ => Effect.writes_of_eq_none rfl
  | psh =>
    -- That a stack is full or empty is no static fault: it is not seen in the instruction.
    simp only [Decoded.effectOf]
    split
    · rfl
    · exact (h.value hc rfl).bind fun _ _ => Effect.writes_of_eq_none rfl
  | pop =>
    simp only [Decoded.effectOf]
    split
    · rfl
    · exact Effect.writes_of_eq_some rfl (h.destination rfl)
  | bra | brz | bnz | brc | bnc | brp | brn => exact Decoded.guarded_branch (h.value hc rfl)
  | bev | bod =>
    exact (h.value hc rfl).bind fun _ _ => Decoded.guarded_branch (h.value hc rfl)
  | cal =>
    simp only [Decoded.effectOf]
    split
    · rfl
    · exact (h.value hc rfl).bind fun _ _ => Effect.writes_of_eq_none rfl
  | inp =>
    exact (h.value hc rfl).bind fun _ _ => Effect.writes_of_eq_some rfl (h.destination rfl)
  | out =>
    exact (h.value hc rfl).bind fun _ _ => (h.value hc rfl).bind fun _ _ =>
      Effect.writes_of_eq_none rfl
  | ret | hlt | brk | nop => exact Effect.writes_of_eq_none rfl
  | dw | dd | dq => rfl

/-! ## Performing effects -/

/-- What no instruction changes: the number of registers, and that only data is put into
    memory. -/
structure View.Keeps (v u : View Bus) : Prop where
  size : u.core.registers.size = v.core.registers.size
  ram : ∀ (a : Nat) (decoded : Decoded), u.ram[a]? = some (.code decoded) →
    v.ram[a]? = some (.code decoded)

namespace View.Keeps

theorem assign (v : View Bus) (t word : Nat) : v.Keeps (v.assign t word).1 := by
  by_cases ht : t < v.core.registers.size
  · rw [assign_of_lt ht]
    exact ⟨by simp, fun _ _ ha => ha⟩
  · rw [assign_of_not_lt ht]
    exact ⟨rfl, fun _ _ ha => ha⟩

theorem assignTo (v : View Bus) (destination : Except FaultKind Nat) (word : Nat) :
    v.Keeps (v.assignTo destination word).1 := by
  cases destination with
  | ok t => exact assign v t word
  | error kind => exact ⟨rfl, fun _ _ ha => ha⟩

variable [PortBus Bus]

/-- No effect changes the number of registers or puts an instruction into memory. -/
theorem perform (mask : Nat) (v : View Bus) (e : Effect) : v.Keeps (e.perform mask v).1 := by
  have hassign (core : Core) (bus : Bus) (hcore : core.registers = v.core.registers)
      (destination : Except FaultKind Nat) (word : Nat) :
      v.Keeps (({ v with core, bus } : View Bus).assignTo destination word).1 := by
    obtain ⟨hsize, hram⟩ := assignTo { v with core, bus } destination word
    exact ⟨hsize.trans (by rw [hcore]), hram⟩
  cases e with
  | compute t result => exact hassign { v.core with flags := result } v.bus rfl t _
  | assign t word => exact assign v t word
  | store address word =>
    -- A store can only replace an instruction by a word, never put one there.
    refine ⟨rfl, fun a decoded ha => ?_⟩
    simp only [Effect.perform, advance, goTo, Array.getElem?_setIfInBounds] at ha
    split at ha
    · split at ha <;> cases ha
    · exact ha
  | pop t =>
    simp only [Effect.perform]
    split
    · exact ⟨rfl, fun _ _ ha => ha⟩
    · next word stack _ => exact hassign { v.core with stack } v.bus rfl t word
  | receive t port =>
    simp only [Effect.perform]
    split
    · next word bus _ => exact hassign v.core bus rfl t _
    · exact ⟨rfl, fun _ _ ha => ha⟩
  | leave =>
    simp only [Effect.perform]
    split <;> exact ⟨rfl, fun _ _ ha => ha⟩
  | send port word =>
    simp only [Effect.perform]
    split <;> exact ⟨rfl, fun _ _ ha => ha⟩
  | _ => exact ⟨rfl, fun _ _ ha => ha⟩

theorem execute (config : Config) (v : View Bus) (d : Decoded) :
    v.Keeps (d.execute config v).1 := by
  unfold Decoded.execute
  split
  · exact perform _ v _
  · exact ⟨rfl, fun _ _ ha => ha⟩

end View.Keeps

theorem View.isStatic_assignTo {v : View Bus} {destination : Except FaultKind Nat} {word : Nat}
    (h : ∃ t < v.core.registers.size, destination = .ok t) :
    (v.assignTo destination word).2.isStatic = false := by
  obtain ⟨t, ht, rfl⟩ := h
  rw [assignTo_ok, assign_of_lt ht]
  rfl

/-- An effect on registers that exist is performed without a static fault. -/
theorem Effect.isStatic_perform [PortBus Bus] {e : Effect} {v : View Bus} (mask : Nat)
    (h : e.Writes v.core.registers.size) : (e.perform mask v).2.isStatic = false := by
  cases e with
  | compute t result => exact View.isStatic_assignTo (h t rfl)
  | assign t word =>
    obtain ⟨_, ht, ⟨⟩⟩ := h _ rfl
    exact View.isStatic_assignTo ⟨t, ht, rfl⟩
  | pop t =>
    simp only [perform]
    split
    · rfl
    · exact View.isStatic_assignTo (h t rfl)
  | receive t port =>
    simp only [perform]
    split
    · exact View.isStatic_assignTo (h t rfl)
    · rfl
  | leave =>
    simp only [perform]
    split <;> rfl
  | send port word =>
    simp only [perform]
    split <;> rfl
  | _ => rfl

/-- An executable instruction raises no static fault. -/
theorem Executable.isStatic_execute [PortBus Bus] {resolution : Resolution} {mask : Nat}
    {op : Opcode} {operands : List Operand} {config : Config} {v : View Bus}
    (h : Executable v.core.registers.size resolution op operands) :
    ((Decoded.ofInstruction resolution mask (.code op operands)).execute config v).2.isStatic =
      false := by
  have heffect : Guarded (Effect.Writes v.core.registers.size)
      ((Decoded.ofInstruction resolution mask (.code op operands)).effectOf config v.ram v.core
        op) := h.effectOf rfl
  unfold Decoded.execute
  split
  · next e he =>
    replace he : Decoded.effectOf config v.ram v.core _ op = .ok e := he
    rw [he] at heffect
    exact e.isStatic_perform config.mask heffect
  · next kind he =>
    replace he : Decoded.effectOf config v.ram v.core _ op = .error kind := he
    rw [he] at heffect
    exact heffect

/-! ## Runs -/

/-- Every core has all registers of the configuration, and the memory that is executed holds
    no other instructions than those of the stream. -/
structure Machine.Executes (stream : List Instruction) (resolution : Resolution) (m : Machine Bus) :
    Prop where
  cores : ∀ core ∈ m.cores, core.registers.size = m.config.registers
  cells : ∀ (a : Nat) (decoded : Decoded), m.codeStore[a]? = some (.code decoded) →
    ∃ op operands, .code op operands ∈ stream ∧
      decoded = .ofInstruction resolution m.config.mask (.code op operands)

namespace Machine

variable [PortBus Bus] {stream : List Instruction} {resolution : Resolution} {m m' : Machine Bus}
  {core : Core}

/-- A tick of a core keeps its view. -/
theorem keeps_tick (v : View Bus) :
    v.Keeps (v.tick m.config m.rom m.programLen).1 := by
  have hstep : v.Keeps (v.step m.config m.rom m.programLen).1 := by
    unfold View.step
    split
    · exact ⟨rfl, fun _ _ ha => ha⟩
    · split
      · exact .execute m.config v _
      · exact ⟨rfl, fun _ _ ha => ha⟩
  unfold View.tick
  split
  · next u kind hu =>
    rw [hu] at hstep
    exact ⟨hstep.size, hstep.ram⟩
  · exact hstep

/-- A tick of a core raises no static fault. -/
theorem isStatic_tick (hm : m.Executes stream resolution)
    (hx : ∀ op operands, .code op operands ∈ stream →
      Executable m.config.registers resolution op operands)
    (hc : core ∈ m.cores) :
    (View.tick m.config m.rom m.programLen ⟨core, m.ram, m.bus⟩).2.isStatic = false := by
  have hstep : (View.step m.config m.rom m.programLen ⟨core, m.ram, m.bus⟩).2.isStatic = false := by
    unfold View.step
    split
    · rfl
    · split
      · next decoded hd =>
        obtain ⟨op, operands, hmem, rfl⟩ := hm.cells _ _ hd
        have := hx op operands hmem
        rw [← hm.cores core hc] at this
        exact this.isStatic_execute
      · rfl
  unfold View.tick
  split
  · next u kind hu =>
    rw [hu] at hstep
    exact hstep
  · exact hstep

omit [PortBus Bus] in
theorem mem_of_nextRunning? {index : Nat} (h : m.nextRunning? = some (index, core)) :
    core ∈ m.cores := by
  obtain ⟨offset, -, h⟩ := List.exists_of_findSome?_eq_some h
  dsimp only at h
  split at h
  · next core' hc =>
    split at h
    · cases h
    · cases h
      exact List.mem_of_getElem? hc
  · cases h

/-- A tick leaves the cores with as many registers as they had, and puts no instruction into the
    memory that is executed. -/
theorem keeps_clock (m : Machine Bus) :
    m.clock.1.config = m.config ∧
      (∀ core ∈ m.clock.1.cores, ∃ core' ∈ m.cores,
        core.registers.size = core'.registers.size) ∧
      ∀ (a : Nat) (decoded : Decoded), m.clock.1.codeStore[a]? = some (.code decoded) →
        m.codeStore[a]? = some (.code decoded) := by
  cases hn : m.nextRunning? with
  | none =>
    rw [clock_of_nextRunning?_eq_none hn]
    exact ⟨rfl, fun core hc => ⟨core, hc, rfl⟩, fun _ _ ha => ha⟩
  | some next =>
    obtain ⟨index, core⟩ := next
    have hkeeps : View.Keeps ⟨core, m.ram, m.bus⟩ _ := keeps_tick (m := m) ⟨core, m.ram, m.bus⟩
    rw [clock_of_nextRunning?_eq_some hn]
    refine ⟨rfl, fun core' hc' => ?_, fun a decoded ha => ?_⟩
    · rcases List.mem_or_eq_of_mem_set hc' with hc' | rfl
      · exact ⟨core', hc', rfl⟩
      · exact ⟨core, mem_of_nextRunning? hn, hkeeps.size⟩
    · unfold codeStore at ha ⊢
      split at ha
      · next hrom => rwa [if_pos hrom]
      · next hrom =>
        rw [if_neg hrom]
        exact hkeeps.ram a decoded ha

/-- A tick keeps the invariant, and raises no static fault. -/
theorem Executes.clock (hm : m.Executes stream resolution)
    (hx : ∀ op operands, .code op operands ∈ stream →
      Executable m.config.registers resolution op operands) :
    m.clock.1.Executes stream resolution ∧ m.clock.1.config = m.config ∧
      m.clock.2.isStatic = false := by
  obtain ⟨hconfig, hcores, hcells⟩ := keeps_clock m
  refine ⟨⟨fun core hc => ?_, fun a decoded ha => ?_⟩, hconfig, ?_⟩
  · obtain ⟨core', hc', hsize⟩ := hcores core hc
    rw [hsize, hm.cores core' hc', hconfig]
  · rw [hconfig]
    exact hm.cells a decoded (hcells a decoded ha)
  · cases hn : m.nextRunning? with
    | none =>
      rw [clock_of_nextRunning?_eq_none hn]
      rfl
    | some next =>
      rw [clock_of_nextRunning?_eq_some hn]
      exact isStatic_tick hm hx (mem_of_nextRunning? hn)

/-- No tick of a run raises a static fault. -/
theorem Executes.ticks (hm : m.Executes stream resolution)
    (hx : ∀ op operands, .code op operands ∈ stream →
      Executable m.config.registers resolution op operands) (n : Nat) :
    ∀ tick ∈ m.ticks n, tick.isStatic = false := by
  induction n generalizing m with
  | zero => exact fun _ h => absurd h List.not_mem_nil
  | succ n ih =>
    obtain ⟨hm', hconfig, htick⟩ := hm.clock hx
    rw [Machine.ticks, List.forall_mem_cons]
    exact ⟨htick, ih hm' (hconfig ▸ hx)⟩

theorem code_mem_of_fill {words a : Nat} {cells : List Cell} {decoded : Decoded}
    (h : (Image.fill words cells)[a]? = some (.code decoded)) : .code decoded ∈ cells := by
  rw [Image.fill, List.getElem?_toArray] at h
  rcases List.mem_append.1 (List.mem_of_getElem? h) with h | h
  · exact List.mem_of_mem_take h
  · cases List.eq_of_mem_replicate h

omit [PortBus Bus] in
/-- A machine into which a stream is loaded executes it. -/
theorem executes_install {image : Image} (h : Image.ofStream? m.config stream = .ok image) :
    (m.install image).Executes stream image.resolution where
  cores core hc := by
    obtain ⟨_, -, rfl⟩ := List.mem_map.1 hc
    exact Array.size_replicate
  cells a decoded ha := by
    have hmem : .code decoded ∈ image.cells := by
      simp only [codeStore, install, reset] at ha
      split at ha
      · next hrom => exact code_mem_of_fill (by simpa [hrom] using ha)
      · next hrom => exact code_mem_of_fill (by simpa [hrom] using ha)
    obtain ⟨op, operands, hi, -, hd⟩ := Image.exists_of_code_mem_cells h hmem
    exact ⟨op, operands, hi, hd⟩

end Machine

/-- A checked stream is safe. -/
theorem Checked.safe {stream : List Instruction} (h : Checked stream) : Safe stream where
  load _ _ hl := h.isShortage hl
  ticks {Bus} [PortBus Bus] m m' hl := by
    obtain ⟨image, hi, rfl⟩ := Machine.load_eq_ok_iff.1 hl
    refine (Machine.executes_install hi).ticks fun op operands hmem =>
      ⟨⟨h.wellFormed _ hmem, ?_⟩, ?_⟩
    · intro j hj
      obtain ⟨index, hindex, hle⟩ := h.registers
      calc j ≤ index := hle _ hmem j hj
        _ < m.config.registers := (Image.exists_ofStream?_iff.1 ⟨image, hi⟩).registers index hindex
    · intro label hlabel
      rw [ne_eq, Image.addressOf_eq_none_iff hi, not_not]
      exact h.marked _ hmem label hlabel

end Wordcode
