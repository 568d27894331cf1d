import Wordcode.Proofs.Expansion.Arithmetic
import Wordcode.Proofs.Expansion.Division
import Wordcode.Proofs.Lowering.Blocks

/-!
# Lowering keeps runs

A program and the lowered one are at the beginning of the same block at the same time. To
execute one instruction of the program, the lowered one executes the whole block, which
may take any number of ticks. After that they are in the same state again, but for the
scratch register, and for the flags as far as they do not fit the word: an expansion
delivers the word only.

* `Lowering.reaches_arithmetic`: an expansion computes what its instruction computes;
* `Lowering.Lowers.tick`: every tick of the program is matched by those of a block;
* `Lowering.halts_lower`: a lowered program halts if the program does.
-/

namespace Wordcode

variable {Bus : Type}

open Instruction Expansion

/-! ## Arithmetic -/

namespace Opcode

/-- The opcodes whose expansion computes. -/
def isExpandable : Opcode → Bool
  | .mlt | .bsl | .bsr | .div | .mod => true
  | _ => false

theorem isExpandable_iff {op : Opcode} : op.isExpandable = true ↔
    op = .mlt ∨ op = .bsl ∨ op = .bsr ∨ op = .div ∨ op = .mod := by
  cases op <;> simp [isExpandable]

theorem slots_of_isExpandable {op : Opcode} (h : op.isExpandable = true) : op.slots = ternary := by
  rcases isExpandable_iff.1 h with rfl | rfl | rfl | rfl | rfl <;> rfl

/-- The result of an expandable opcode, where it has one. -/
def result? : Opcode → Nat → Nat → Option Nat
  | .mlt, x, y => some (x * y)
  | .bsl, x, n => some (Arithmetic.shiftLeft x n)
  | .bsr, x, n => some (Arithmetic.shiftRight x n)
  | .div, x, y => if y = 0 then none else some (x / y)
  | .mod, x, y => if y = 0 then none else some (x % y)
  | _, _, _ => none

/-- Only products and shifts to the left can exceed a word. -/
theorem result?_le {op : Opcode} {x y r mask : Nat} (h : op.result? x y = some r) (hx : x ≤ mask)
    (hm : op ≠ .mlt) (hb : op ≠ .bsl) : r ≤ mask := by
  unfold result? at h
  split at h
  · exact absurd rfl hm
  · exact absurd rfl hb
  · cases h
    refine Nat.le_trans ?_ hx
    unfold Arithmetic.shiftRight
    split
    · exact Nat.shiftRight_le x _
    · exact Nat.zero_le x
  · split at h
    · cases h
    · cases h
      exact Nat.le_trans (Nat.div_le_self x y) hx
  · split at h
    · cases h
    · cases h
      exact Nat.le_trans (Nat.mod_le x y) hx
  · cases h

/-- How many registers an expansion borrows, by the last operand of its instruction. -/
def borrows : Opcode → Operand → Nat
  | .mlt, _ => 2
  | .bsl, _ | .bsr, _ => 1
  | .div, y => 3 + divisorCount y
  | .mod, y => divisorCount y
  | _, _ => 0

theorem borrows_le (op : Opcode) (y : Operand) : op.borrows y ≤ 4 := by
  have hy : divisorCount y ≤ 1 := by cases y <;> simp [divisorCount]
  unfold borrows
  split <;> omega

end Opcode

/-- There is an expansion for every instruction of an expandable opcode. -/
theorem Expansion.exists_expand (context : Context) (first : Nat) {op : Opcode}
    (hop : op.isExpandable = true) (d x y : Operand) :
    ∃ expansion, expand? context first op [d, x, y] = some expansion := by
  have hlength (count : Nat) := length_borrow (avoided context [d, x, y]) count
  have hdivisor {spare : List Nat} (h : spare.length = divisorCount y) :
      ∃ index load, divisor spare y = some (index, load) := by
    cases y with
    | register index => exact ⟨index, [], rfl⟩
    | immediate | label =>
      obtain ⟨index, rfl⟩ := List.length_eq_one_iff.1 h
      exact ⟨index, _, rfl⟩
  cases op with
  | mlt =>
    obtain ⟨j, k, hb⟩ := List.length_eq_two.1 (hlength 2)
    simp only [expand?, multiply, hb]
    exact ⟨_, rfl⟩
  | bsl | bsr =>
    obtain ⟨j, hb⟩ := List.length_eq_one_iff.1 (hlength 1)
    simp only [expand?, shiftBy, hb]
    exact ⟨_, rfl⟩
  | div =>
    obtain ⟨j, k, l, spare, hb⟩ : ∃ j k l spare,
        borrow (avoided context [d, x, y]) (3 + divisorCount y) = j :: k :: l :: spare := by
      match borrow (avoided context [d, x, y]) (3 + divisorCount y),
        hlength (3 + divisorCount y) with
      | j :: k :: l :: spare, _ => exact ⟨j, k, l, spare, rfl⟩
      | [], h | [_], h | [_, _], h =>
        simp only [List.length_cons, List.length_nil] at h
        omega
    have hspare := hlength (3 + divisorCount y)
    rw [hb] at hspare
    have hcount : spare.length = divisorCount y := by
      simp only [List.length_cons] at hspare
      omega
    obtain ⟨index, load, hd⟩ := hdivisor hcount
    simp only [expand?, divide, hb, hd]
    exact ⟨_, rfl⟩
  | mod =>
    obtain ⟨index, load, hd⟩ := hdivisor (hlength (divisorCount y))
    simp only [expand?, modulo, hd]
    exact ⟨_, rfl⟩
  | _ => cases hop

/-- An expansion that computes delivers its result. -/
theorem Expansion.exists_deliver_mem {context : Context} {first : Nat} {op : Opcode}
    {d x y : Operand} {expansion : Expansion} (hop : op.isExpandable = true)
    (he : expand? context first op [d, x, y] = some expansion) :
    ∃ j, deliver d j ∈ expansion.body := by
  have hshift {shift : Opcode} (he : shiftBy shift context first d x y = some expansion) :
      ∃ j, deliver d j ∈ expansion.body := by
    unfold shiftBy at he
    split at he
    · cases he
      exact ⟨context.scratch, by simp⟩
    · cases he
  cases op with
  | mlt =>
    replace he : multiply context first d x y = some expansion := he
    unfold multiply at he
    split at he
    · cases he
      exact ⟨context.scratch, by simp⟩
    · cases he
  | bsl | bsr => exact hshift he
  | div =>
    replace he : divide context first d x y = some expansion := he
    unfold divide at he
    split at he
    · next quotient _ _ =>
      obtain ⟨⟨index, load⟩, -, he⟩ := Option.bind_eq_some_iff.1 he
      cases he
      exact ⟨quotient, by simp⟩
    · cases he
  | mod =>
    replace he : modulo context first d x y = some expansion := he
    unfold modulo at he
    obtain ⟨⟨index, load⟩, -, he⟩ := Option.bind_eq_some_iff.1 he
    cases he
    exact ⟨context.scratch, by simp⟩
  | _ => cases hop
/-- An instruction of an expandable opcode computes a result, or breaks. -/
theorem Decoded.exists_result_of_effectOf {config : Config} {ram : Array Cell} {core : Core}
    {d : Decoded} {op : Opcode} {e : Effect} (hop : op.isExpandable = true)
    (h : d.effectOf config ram core op = .ok e) :
    e = .trap ∨ ∃ x, d.value core 2 = .ok x ∧ ∃ y, d.value core 3 = .ok y ∧
      ∃ r, op.result? x y = some r ∧ e = .compute (d.destination 1) r := by
  cases op with
  | mlt | bsl | bsr =>
    obtain ⟨x, hx, y, hy, rfl⟩ := binary_eq_ok_iff.1 h
    exact .inr ⟨x, hx, y, hy, _, rfl, rfl⟩
  | div | mod =>
    obtain ⟨x, hx, y, hy, ⟨-, rfl⟩ | ⟨h0, rfl⟩⟩ := quotient_eq_ok_iff.1 h
    · exact .inl rfl
    · exact .inr ⟨x, hx, y, hy, _, if_neg h0, rfl⟩
  | _ => cases hop

namespace Lowering

variable {target : Tier} {context : Expansion.Context} {code : Code} {base : View Bus}
  {frame : Frame}

theorem settle_brk : settle target context (.code .brk []) =
    if fits target (.code .brk []) = true then [.code .brk []]
    else [.note (.comment (Instruction.code .brk []).render), .code .hlt []] := by
  have he (n : Nat) : expand? context n .brk [] = some breakpoint := rfl
  exact congrArg Prod.fst (instructionAt_one he rfl
    (List.forall_mem_singleton.2 (fits_of_tier rfl [])) 0)

/-- The settled bodies of divisions and remainders. -/
theorem exists_settles (target : Tier) (context : Expansion.Context) :
    ∃ f, Settles f ∧ ∀ op given first count i, op ≠ .dq → Part op given first count i →
      settle target context i = f i := by
  refine ⟨fun i => if i = .code .brk [] then settle target context i else [i],
    ⟨fun i hi => if_neg hi, ?_⟩, fun op given first count i hop h => ?_⟩
  · rw [if_pos rfl, settle_brk]
    split <;> rfl
  · rcases fits_of_part h with hf | ⟨rfl, -⟩ | ⟨-, rfl⟩
    · dsimp only
      split
      · rfl
      · exact settle_of_fits hf
    · exact (if_pos rfl).symm
    · exact absurd rfl hop

variable [PortBus Bus]

/-- An expansion computes what its instruction computes. -/
theorem reaches_arithmetic {op : Opcode} {first t r : Nat} {x y : Operand} {expansion : Expansion}
    (hbits : 0 < context.wordBits) (hwidth : code.config.mask + 1 = Nat.pow 2 context.wordBits)
    (he : expand? context first op [.register t, x, y] = some expansion)
    (h : Ready code base frame context.scratch (op.borrows y)
      (expansion.body.flatMap (settle target context)))
    (hx : x.Given code base frame context.scratch) (hy : y.Given code base frame context.scratch)
    (hr : op.result? (x.eval code.config.mask frame.file) (y.eval code.config.mask frame.file) =
      some r) :
    code.Reaches (frame.view base) (frame.Delivered base
      (extent (expansion.body.flatMap (settle target context))) [context.scratch] t
      (r &&& code.config.mask)) := by
  have hpart := part_of_expand he
  obtain ⟨f, hf, hsettle⟩ := exists_settles target context
  have hsettles (hop : op ≠ .dq) :
      expansion.body.flatMap (settle target context) = expansion.body.flatMap f :=
    List.flatMap_congr fun i hi => hsettle op _ first _ i hop (hpart i hi)
  -- Products and shifts to the left can overflow; all other results are words already.
  have hle (hm : op ≠ .mlt) (hb : op ≠ .bsl) : r &&& code.config.mask = r :=
    Config.and_mask_of_le (Opcode.result?_le hr hx.le hm hb)
  unfold Opcode.result? at hr
  split at hr
  · rw [flatMap_settle he (by simp)] at h ⊢
    cases hr
    exact reaches_multiply he h hx hy
  · rw [flatMap_settle he (by simp)] at h ⊢
    cases hr
    rw [← Arithmetic.iterate_lsh hx.le]
    exact reaches_shiftBy (.inl rfl) he h hx hy
  · rw [flatMap_settle he (by simp)] at h ⊢
    rw [hle (by simp) (by simp)]
    cases hr
    rw [← Arithmetic.iterate_rsh hx.le]
    exact reaches_shiftBy (.inr rfl) he h hx hy
  · rw [hsettles (by simp)] at h ⊢
    rw [hle (by simp) (by simp)]
    split at hr
    · cases hr
    · next h0 =>
      cases hr
      exact reaches_divide hf hbits hwidth he h hx hy h0
  · rw [hsettles (by simp)] at h ⊢
    rw [hle (by simp) (by simp)]
    split at hr
    · cases hr
    · next h0 =>
      cases hr
      exact reaches_modulo hf he h hx hy h0
  · cases hr

end Lowering

/-! ## Frames of matched views -/

theorem Frame.read_eq_ok_iff {v : View Bus} {j word : Nat} :
    v.core.read j = .ok word ↔ j < v.core.registers.size ∧ (ofView v).file.word j = word := by
  by_cases hj : j < v.core.registers.size
  · have hread : ((ofView v).view v).core.read j = .ok ((ofView v).file.word j) := read_view hj
    rw [view_ofView] at hread
    simp [hread, hj]
  · simp [Core.read, hj]

/-- What an instruction reads from an operand that is no label, or one that is not bound. -/
theorem Decoded.eval_of_value {resolution : Resolution} {mask : Nat} {op : Opcode}
    {operands : List Operand} {p word : Nat} {x : Operand} {v : View Bus}
    (hx : operands[p]? = some x)
    (hl : ∀ l, .label l ∈ operands → resolution.addressOf l = none)
    (h : (ofInstruction resolution mask (.code op operands)).value v.core (p + 1) = .ok word) :
    x.Readable v.core.registers.size ∧ x.eval mask (Frame.ofView v).file = word := by
  have hs : (ofInstruction resolution mask (.code op operands)).slot? (p + 1) =
      some (Slot.decode resolution mask x) := by
    simp only [slot?, ofInstruction, Instruction.operands, List.getElem?_map, hx, Option.map_some]
  rw [value, hs] at h
  cases x with
  | register j => exact Frame.read_eq_ok_iff.1 h
  | immediate n =>
    cases h
    exact ⟨trivial, rfl⟩
  | label l =>
    rw [Slot.decode, hl l (List.mem_of_getElem? hx)] at h
    cases h

/-- An expandable instruction that does not break puts its result into its destination. -/
theorem Code.exists_result_of_tick [PortBus Bus] {code : Code} {op : Opcode} {t : Nat}
    {x y : Operand} {v v' : View Bus} {o : Outcome} (hop : op.isExpandable = true)
    (hfetch : code.fetch v.core.ip = some (.code (code.decode op [.register t, x, y])))
    (hx : code.tick v = (v', o)) (hf : o.isFault = false) (hb : o ≠ .breakpoint) :
    ∃ a b r, (code.decode op [.register t, x, y]).value v.core 2 = .ok a ∧
      (code.decode op [.register t, x, y]).value v.core 3 = .ok b ∧ op.result? a b = some r ∧
      v' = ((Frame.ofView v).compute code.config.mask t r).view v ∧ o = .executed := by
  obtain ⟨e, heffect, hx⟩ := Decoded.exists_effectOf_of_execute Code.decode_operation
    (Code.execute_of_tick hfetch hx hf) hf
  rcases Decoded.exists_result_of_effectOf hop heffect with
    rfl | ⟨a, ha, b, hb', r, hr, rfl⟩
  · cases hx
    exact absurd rfl hb
  · rw [Code.destination_eq_ok_iff.2 rfl] at hx
    replace hx : ({ v with core := { v.core with flags := r } } : View Bus).assign t
        (r &&& code.config.mask) = (v', o) := hx
    have hlt := View.lt_of_assign hx hf
    replace hlt : t < v.core.registers.size := hlt
    have hview : ({ Frame.ofView v with flags := r } : Frame).view v =
        { v with core := { v.core with flags := r } } :=
      congrArg (fun u : View Bus => { u with core := { u.core with flags := r } })
        (Frame.view_ofView v)
    rw [← hview, Frame.assign_view _ hlt] at hx
    cases hx
    exact ⟨a, b, r, ha, hb', hr, rfl, rfl⟩

/-- Matched views stay matched when their frames change alike. -/
theorem View.Matches.frame {mask : Nat} {exact : Prop} {visible : Nat → Prop}
    {reloc : Nat → Nat → Prop} {v w : View Bus} (h : v.Matches mask exact visible reloc w)
    {frame frame' : Frame} (hip : reloc frame.ip frame'.ip)
    (hflags : frame'.flags &&& mask = frame.flags &&& mask)
    (hexact : exact → frame'.flags = frame.flags) (hstack : frame'.stack = frame.stack)
    (hfile : ∀ j, visible j → frame'.file.word j = frame.file.word j) :
    (frame.view v).Matches mask exact visible reloc (frame'.view w) where
  size := by rw [Frame.size_view, Frame.size_view, h.size]
  register j hj := by
    rw [Frame.registers_view, Frame.registers_view, h.register j hj, hfile j hj]
  halted := h.halted
  flags := hflags
  carry := hexact
  ram := h.ram
  bus := h.bus
  ip := hip
  stack := hstack
  calls := h.calls

/-! ## Ticks -/

namespace Lowering

open Pieces

/-- No product or shift to the left is expanded, so that flags are kept in full. -/
def Exact (target : Tier) (stream : List Instruction) : Prop :=
  ∀ op operands, op = .mlt ∨ op = .bsl → .code op operands ∈ stream → op.tier ≤ target

/-- The programs that are lowered without a change of what they do: calls, breakpoints and
    ports are for the target, and carries are not asked for where they are lost. -/
structure Admits (target : Tier) (stream : List Instruction) : Prop where
  calls : target < .basic → ∀ operands,
    .code .cal operands ∉ stream ∧ .code .ret operands ∉ stream
  ports : target < .custom → ∀ operands,
    .code .brk operands ∉ stream ∧ .code .inp operands ∉ stream ∧ .code .out operands ∉ stream
  carries : ¬Exact target stream → ∀ operands,
    .code .brc operands ∉ stream ∧ .code .bnc operands ∉ stream

/-- A program and what becomes of it, both loaded in the same configuration. -/
structure Lowers (code code' : Code) (target : Tier) (context : Expansion.Context) (first : Nat)
    (stream : List Instruction) : Prop where
  config : code'.config = code.config
  original : code.Carries (blocks target context first stream).source
  lowered : code'.Carries (blocks target context first stream).target
  wordBits : context.wordBits = code.config.wordBits
  direct : ∀ i ∈ stream, i.Direct
  wellFormed : ∀ i ∈ stream, i.WellFormed
  /-- The program does not know of the scratch register. -/
  hidden : ∀ i ∈ stream, .register context.scratch ∉ i.operands
  scratch_ne : context.scratch ≠ 0
  registers : ∀ i ∈ (blocks target context first stream).target, ∀ j, .register j ∈ i.operands →
    j < code.config.registers

variable {code code' : Code} {target : Tier} {context : Expansion.Context} {first : Nat}
  {stream : List Instruction} {v w v' : View Bus} {o : Outcome}

/-- The two programs are in the same state, but for the scratch register. -/
abbrev Matched (code : Code) (target : Tier) (context : Expansion.Context) (first : Nat)
    (stream : List Instruction) : View Bus → View Bus → Prop :=
  View.Matches code.config.mask (Exact target stream) (· ≠ context.scratch)
    (Corresponds (blocks target context first stream))

theorem mem_of_blocks_eq {before after : Pieces} {i : Instruction} {new : List Instruction}
    (h : blocks target context first stream = before ++ ([i], new) :: after) : i ∈ stream := by
  have hsource := source_blocks target context first stream
  rw [h] at hsource
  rw [← hsource]
  simp

/-- Where registers are visible, so are the words in them. -/
theorem Matched.word_eq (hm : Matched code target context first stream v w) {j : Nat}
    (hj : j ≠ context.scratch) : (Frame.ofView w).file.word j = (Frame.ofView v).file.word j := by
  simp only [Frame.ofView, Core.register, hm.register j hj]

/-- What the program reads from an operand, its expansion is given. -/
theorem Lowers.given (h : Lowers code code' target context first stream)
    (hm : Matched code target context first stream v w) {i : Instruction} (hi : i ∈ stream)
    {x : Operand} (hx : x ∈ i.operands) (hr : x.Readable v.core.registers.size)
    (hle : x.eval code.config.mask (Frame.ofView v).file ≤ code.config.mask) :
    x.Given code' w (Frame.ofView w) context.scratch ∧
      x.eval code'.config.mask (Frame.ofView w).file =
        x.eval code.config.mask (Frame.ofView v).file := by
  have hne : x ≠ .register context.scratch := fun e => h.hidden i hi (e ▸ hx)
  have heval : x.eval code'.config.mask (Frame.ofView w).file =
      x.eval code.config.mask (Frame.ofView v).file := by
    rw [h.config]
    exact Operand.eval_congr fun j hj => hm.word_eq fun e => hne (e ▸ hj)
  exact ⟨⟨hm.size ▸ hr, by rw [heval, h.config]; exact hle, hne⟩, heval⟩

variable [PortBus Bus]

/-- An instruction that is expanded is matched by its whole block. -/
theorem Lowers.tick_expanded (h : Lowers code code' target context first stream)
    (hm : Matched code target context first stream v w)
    (hwithin : v.Within code.config.registers code.config.mask)
    (hroom : v.core.stack.length + 4 ≤ code.config.maxStack) {before after : Pieces} {op : Opcode}
    {operands : List Operand} {n : Nat}
    (hp : blocks target context first stream = before ++
      ([.code op operands], (instruction target context n (.code op operands)).1) :: after)
    (hv : v.core.ip = extent before.source) (hw : w.core.ip = extent before.target)
    (hop : op.isExpandable = true) (hfits : fits target (.code op operands) = false)
    (hh : v.core.halted = false) (hx : code.tick v = (v', o)) (hf : o.isFault = false)
    (hb : o ≠ .breakpoint) :
    ∃ os w', code'.Ticks w os w' ∧ Outcome.observed os = Outcome.observed [o] ∧
      Matched code target context first stream v' w' := by
  have hmem := mem_of_blocks_eq hp
  obtain ⟨t, x, y, rfl⟩ :=
    (h.wellFormed _ hmem).exists_ternary (Opcode.slots_of_isExpandable hop)
  have hshape : op.isData = false ∧ op.isBranch = false ∧ op ≠ .cal := by
    rcases Opcode.isExpandable_iff.1 hop with rfl | rfl | rfl | rfl | rfl <;> decide
  have hfree : ∀ l, .label l ∉ [.register t, x, y] := by
    simpa [Direct, hshape] using h.direct _ hmem
  obtain ⟨expansion, he⟩ := exists_expand context n hop (.register t) x y
  rw [instruction_of_expand hfits he] at hp
  obtain ⟨hold, hold'⟩ := holds_piece h.original h.lowered hp
  have hnext := corresponds_next hp
  rw [← hv] at hold hnext
  rw [← hw] at hold' hnext
  obtain ⟨a, b, r, ha, hb', hr, rfl, rfl⟩ :=
    Code.exists_result_of_tick hop ((Code.holds_code_cons hshape.1).1 hold).1 hx hf hb
  have hale : a ≤ code.config.mask := hwithin.value (fun _ => Code.value_slot_le hfree) ha
  have hble : b ≤ code.config.mask := hwithin.value (fun _ => Code.value_slot_le hfree) hb'
  have hunbound (l : Label) (hl : .label l ∈ [.register t, x, y]) :
      code.resolution.addressOf l = none := absurd hl (hfree l)
  obtain ⟨hxr, rfl⟩ := Decoded.eval_of_value (p := 1) rfl hunbound ha
  obtain ⟨hyr, rfl⟩ := Decoded.eval_of_value (p := 2) rfl hunbound hb'
  obtain ⟨hgx, hex⟩ := h.given hm hmem (x := x) (by simp [operands]) hxr hale
  obtain ⟨hgy, hey⟩ := h.given hm hmem (x := y) (by simp [operands]) hyr hble
  have hready : Ready code' w (Frame.ofView w) context.scratch (op.borrows y)
      (expansion.body.flatMap (settle target context)) := by
    refine ⟨hm.halted.trans hh, hold'.note_tail, fun i hi j hj => ?_, ?_, h.scratch_ne⟩
    · rw [hm.size, hwithin.size]
      exact h.registers i (by rw [hp]; simp [hi]) j hj
    · rw [← hm.stack] at hroom
      rw [h.config]
      exact Nat.le_trans (Nat.add_le_add_left (op.borrows_le y) _) hroom
  have hwidth : code'.config.mask + 1 = Nat.pow 2 context.wordBits := by
    rw [h.config, h.wordBits, code.valid.mask_add_one]
  obtain ⟨k, w', hticks, file, hfile, rfl⟩ :=
    reaches_arithmetic (h.wordBits ▸ code.valid.wordBits_pos) hwidth he hready hgx hgy
      (by rw [hex, hey]; exact hr)
  rw [Frame.view_ofView] at hticks
  refine ⟨_, _, hticks, by rw [Outcome.observed_replicate]; rfl, hm.frame ?_ ?_ ?_ hm.stack ?_⟩
  · simpa [footprint_code, Opcode.footprint_of_not_isData hshape.1, Frame.ofView] using hnext
  · rw [h.config, Nat.and_assoc, Nat.and_self]
    rfl
  -- only products and shifts to the left leave the word, and these are for the target
  · intro hexact
    have hle : r ≤ code.config.mask := by
      refine Opcode.result?_le hr hale ?_ ?_
      all_goals
        rintro rfl
        have := hexact _ _ (by simp) hmem
        simp_all [fits]
    simp [h.config, Config.and_mask_of_le hle]
  · intro j hj
    rw [hfile j (by simpa using hj), h.config, File.word_put, hm.word_eq hj]
    rfl

theorem lt_tier_of_fits {op : Opcode} {operands : List Operand}
    (h : fits target (.code op operands) = false) : target < op.tier :=
  Nat.lt_of_not_le (of_decide_eq_false h)

theorem fits_of_lt_tier {op : Opcode} (h : target < op.tier) (operands : List Operand) :
    fits target (.code op operands) = false :=
  decide_eq_false (Nat.not_le_of_lt h)

/-- Every tick of the program is matched by those of a block. -/
theorem Lowers.tick (h : Lowers code code' target context first stream)
    (ha : Admits target stream) (hm : Matched code target context first stream v w)
    (hwithin : v.Within code.config.registers code.config.mask)
    (hroom : v.core.stack.length + 4 ≤ code.config.maxStack) (hh : v.core.halted = false)
    (hx : code.tick v = (v', o)) (hf : o.isFault = false) (hb : o ≠ .breakpoint) :
    ∃ os w', code'.Ticks w os w' ∧ Outcome.observed os = Outcome.observed [o] ∧
      Matched code target context first stream v' w' := by
  have hr := relocates h.config h.original h.lowered fun p hp l => blocks_marks hp
  have hhalted : w.core.halted = false := hm.halted.trans hh
  have hempty (p : List Instruction × List Instruction)
      (hp : p ∈ blocks target context first stream) (h0 : extent p.1 = 0) : extent p.2 = 0 := by
    obtain ⟨i, -, n, rfl⟩ := mem_blocks hp
    cases i with
    | note => rw [instruction_of_fits rfl]; rfl
    | code op operands => exact absurd h0 (Nat.ne_of_gt op.footprint_pos)
  rcases cases_of_corresponds hm.ip hempty with ⟨hv, hw⟩ | ⟨before, p, after, hp, hv, hw, hpos⟩
  · obtain ⟨hw', hm'⟩ := tick_end h.original h.lowered hm hv hw hx
    exact ⟨[o], _, .single hhalted hw', rfl, hm'⟩
  obtain ⟨i, hmem, n, rfl⟩ := mem_blocks (p := p) (by rw [hp]; simp)
  cases i with
  | note => exact absurd hpos (Nat.lt_irrefl 0)
  | code op operands =>
    cases hfits : fits target (.code op operands) with
    | true =>
      rw [instruction_of_fits hfits] at hp
      have hcarry (hop : op.readsCarry = true) : Exact target stream := by
        by_contra hexact
        cases op with
        | brc => exact (ha.carries hexact operands).1 hmem
        | bnc => exact (ha.carries hexact operands).2 hmem
        | _ => cases hop
      obtain ⟨w', hw', hm'⟩ := tick_same h.original h.lowered hr hp hm hv hw (h.direct _ hmem)
        hcarry (fun j hj e => h.hidden _ hmem (e ▸ hj)) hx hf
      exact ⟨[o], w', .single hhalted hw', rfl, hm'⟩
    | false =>
      have htier := lt_tier_of_fits hfits
      obtain ⟨hold, -⟩ := holds_piece h.original h.lowered hp
      rw [← hv] at hold
      cases op with
      | mlt | bsl | bsr | div | mod =>
        exact h.tick_expanded hm hwithin hroom hp hv hw rfl hfits hh hx hf hb
      | dd | dq =>
        -- data is not executed
        obtain ⟨word, hword⟩ := (stands_data_iff rfl).1 hold.1
        have := Code.tick_of_fetch_data hword
        rw [hx, hf] at this
        cases this
      | nop =>
        have hnone : expand? context n .nop operands = none := by
          unfold expand?
          split <;> simp_all
        have hnext := corresponds_next hp
        rw [instruction_of_none hfits hnone, ← hv, ← hw] at hnext
        have hx := Code.execute_of_tick ((Code.holds_code_cons rfl).1 hold).1 hx hf
        cases hx
        exact ⟨[], w, .nil w, rfl, ⟨hm.size, hm.register, hm.halted, hm.flags, hm.carry, hm.ram,
          hm.bus⟩, hnext, hm.stack, hm.calls⟩
      | cal => exact absurd hmem (ha.calls htier operands).1
      | ret => exact absurd hmem (ha.calls htier operands).2
      | brk => exact absurd hmem (ha.ports htier operands).1
      | inp => exact absurd hmem (ha.ports htier operands).2.1
      | out => exact absurd hmem (ha.ports htier operands).2.2
      | _ => exact absurd (fits_of_tier rfl operands) (by rw [hfits]; decide)

end Lowering

/-! ## Runs -/

theorem Peephole.push_off (kept : List Instruction) (i : Instruction) :
    off.push kept i = i :: kept := by
  have hcanonical : off.canonical i = i := by
    unfold canonical
    split
    · rfl
    · rfl
  unfold push
  split
  · next n => cases n <;> rfl
  · rfl
  · rw [hcanonical]

/-- Without simplifications, a stream stays as it is. -/
theorem Peephole.apply_off (stream : List Instruction) : off.apply stream = stream := by
  suffices h : ∀ kept, stream.foldl off.push kept = stream.reverse ++ kept by
    rw [apply, h, List.append_nil, List.reverse_reverse]
  induction stream with
  | nil => exact fun _ => rfl
  | cons i rest ih =>
    intro kept
    rw [List.foldl_cons, push_off, ih, List.reverse_cons, List.append_assoc, List.singleton_append]

/-- Two machines that differ in one register at most, and in flags beyond the word. -/
structure Machine.AlikeBut (scratch : Nat) (m m' : Machine Bus) : Prop where
  registers : ∀ j, j ≠ scratch →
    m'.cores.map (·.registers[j]?) = m.cores.map (·.registers[j]?)
  flags : m'.cores.map (·.flags &&& m.config.mask) = m.cores.map (·.flags &&& m.config.mask)
  stack : m'.cores.map Core.stack = m.cores.map Core.stack
  ram : m'.ram = m.ram
  bus : m'.bus = m.bus

namespace Lowering

open Pieces

variable [PortBus Bus] {config : Config} {program : Program} {lowered : Lowered}
  {m m₁ m₂ : Machine Bus} {n : Nat}

/-- A lowered program halts if the program does, in the same state, but for the scratch
    register and for carries of products and shifts that were expanded. -/
theorem halts_lower (hlower : lower config .off program = .ok lowered)
    (hbits : m.config.wordBits = config.wordBits) (hm : m.SingleCore)
    (hwell : ∀ i ∈ program.instructions, i.WellFormed)
    (hdirect : ∀ i ∈ program.instructions, i.Direct)
    (hadmits : Admits config.maxTier program.instructions)
    (hregisters : lowered.registersRequired ≤ m.config.registers)
    (hl₁ : m.load program.instructions = (m₁, .ok ()))
    (hl₂ : m.load lowered.program.instructions = (m₂, .ok ())) (hn : m₁.HaltsWithin n)
    (hbreak : m₁.breakpoints n = 0)
    (hroom : ∀ k ≤ n, ∀ core ∈ (m₁.after k).cores, core.stack.length + 4 ≤ m.config.maxStack) :
    ∃ n', m₂.HaltsWithin n' ∧ m₂.breakpoints n' = 0 ∧
      (m₁.after n).AlikeBut (scratch program) (m₂.after n') ∧
      (Exact config.maxTier program.instructions →
        (m₂.after n').cores.map Core.flags = (m₁.after n).cores.map Core.flags) := by
  obtain ⟨code, hcode, hc, hr, hinit⟩ := Machine.exists_code_of_load hm hl₁
  obtain ⟨code', hcode', hc', hr', hinit'⟩ := Machine.exists_code_of_load hm hl₂
  obtain ⟨highest, hhighest, hrequired, hinstructions, -⟩ := exists_of_lower hlower
  rw [Peephole.apply_off] at hhighest hinstructions
  rw [hinstructions] at hc'
  let context : Expansion.Context := ⟨scratch program, config.wordBits⟩
  have htarget : (expanded config program).instructions =
      (blocks config.maxTier context program.labels.nextId program.instructions).target :=
    (target_blocks _ _ _ _).symm
  rw [htarget] at hhighest hc'
  -- The registers of the lowered program exist since the machine has as many as it requires.
  have h : Lowers code code' config.maxTier context program.labels.nextId program.instructions := by
    refine ⟨hcode'.trans hcode.symm, ?_, hc'.of_declare, ?_, hdirect, hwell,
      fun i hi => scratch_not_mem hi, Nat.succ_ne_zero _, fun i hi j hj => ?_⟩
    · rwa [source_blocks]
    · rw [hcode, hbits]
    · have hle := le_highestRegister hi hj
      rw [hcode]
      omega
  have hwithin : (View.initial m.config m.bus).Within code.config.registers code.config.mask :=
    hcode ▸ .initial m.config m.bus
  have hticks (o : Outcome) (ho : .ran 0 o ∈ m₁.ticks n) : o.isFault = false ∧ o ≠ .breakpoint := by
    refine ⟨hn.faultless _ ho, ?_⟩
    rintro rfl
    exact List.countP_eq_zero.1 hbreak _ ho rfl
  -- The ticks that a block can match: those on words, with room on the stack to save four
  -- registers, and neither a fault nor a breakpoint.
  obtain ⟨point, -, -, hhalts, hbreaks, hpoints⟩ :=
    hn.simulate (Matched code config.maxTier context program.labels.nextId program.instructions)
      (fun v o => v.Within code.config.registers code.config.mask ∧
        v.core.stack.length + 4 ≤ code.config.maxStack ∧ o.isFault = false ∧ o ≠ .breakpoint)
      hr hr' hinit hinit'
      ⟨⟨rfl, fun _ _ => rfl, rfl, rfl, fun _ => rfl, rfl, rfl⟩, corresponds_zero, rfl, .nil⟩
      (fun v w v' o hR hh hx ha => h.tick hadmits hR ha.1 ha.2.1 hh hx ha.2.2.1 ha.2.2.2)
      (fun v w hR hh => hR.halted.trans hh)
      (fun os u o hts hfs hlt hu ho => by
        refine ⟨hwithin.ticks hc hdirect hts hfs, ?_, hticks o ho⟩
        rw [hcode]
        exact hroom os.length (Nat.le_of_lt hlt) u.core
          (by rw [hu]; exact List.mem_singleton_self _))
  obtain ⟨u, u', hu, hu', hR⟩ := hpoints n (Nat.le_refl n)
  refine ⟨point n, hhalts, hbreaks.trans hbreak, ?_, fun hexact => ?_⟩
  · rw [hu, hu']
    have hmask : (m₁.ofView u).config.mask = code.config.mask := congrArg Config.mask hr.config
    refine ⟨fun j hj => ?_, ?_, ?_, hR.ram, hR.bus⟩
    · exact congrArg (fun r => [r]) (hR.register j hj)
    · rw [hmask]
      exact congrArg (fun f => [f]) hR.flags
    · exact congrArg (fun s => [s]) hR.stack
  · rw [hu, hu']
    exact congrArg (fun f => [f]) (hR.carry hexact)

/-- Squares and their thirds, counted down. -/
def squares : Program where
  instructions :=
    [.code .imm [.register 1, .immediate 3],
      .note (.markLabel (.anonymous 0)),
      .code .mlt [.register 2, .register 1, .register 1],
      .code .div [.register 3, .register 2, .immediate 3],
      .code .nop [],
      .code .bsr [.register 2, .register 2, .register 1],
      .code .dec [.register 1, .register 1],
      .code .bnz [.label (.anonymous 0)],
      .code .hlt []]
  labels := { nextId := 1 }

/-- A target of the least tier. -/
def squaresConfig : Config :=
  { registers := 16, romWords := 128, executeFromRom := true, maxTier := .core }

/-- A machine for the squares and for what becomes of them. -/
def squaresMachine : Machine QueueBus := .blank squaresConfig .empty

/-- A loop that multiplies halts after 24 ticks, and so does what it is lowered to, in the end. -/
theorem halts_lower_squares :
    (squaresMachine.loaded squares.instructions).HaltsWithin 24 ∧
      ∃ n', (squaresMachine.loaded
          (lowering squaresConfig .off squares).program.instructions).HaltsWithin n' ∧
        ((squaresMachine.loaded squares.instructions).after 24).AlikeBut (scratch squares)
          ((squaresMachine.loaded
            (lowering squaresConfig .off squares).program.instructions).after n') := by
  have hm : squaresMachine.SingleCore := Machine.singleCore_blank (by decide) rfl rfl
  have hlower : lower squaresConfig .off squares = .ok (lowering squaresConfig .off squares) :=
    lower_eq_ok_lowering (by decide +kernel)
  have hadmits : Admits .core squares.instructions :=
    ⟨by simp [squares], by simp [squares], by simp [squares]⟩
  have hregisters : (lowering squaresConfig .off squares).registersRequired ≤ 16 := by
    decide +kernel
  have hl₁ : squaresMachine.load squares.instructions =
      (squaresMachine.loaded squares.instructions, .ok ()) :=
    Machine.load_eq_loaded (by decide +kernel)
  have hl₂ : squaresMachine.load (lowering squaresConfig .off squares).program.instructions =
      (squaresMachine.loaded (lowering squaresConfig .off squares).program.instructions,
        .ok ()) :=
    Machine.load_eq_loaded (by decide +kernel)
  have hn : (squaresMachine.loaded squares.instructions).HaltsWithin 24 := by decide +kernel
  have hbreak : (squaresMachine.loaded squares.instructions).breakpoints 24 = 0 := by
    decide +kernel
  have hroom : ∀ k ≤ 24, ∀ core ∈ ((squaresMachine.loaded squares.instructions).after k).cores,
      core.stack.length + 4 ≤ 256 := by decide +kernel
  obtain ⟨n', hhalts, -, halike, -⟩ := halts_lower hlower rfl hm (by decide) (by decide) hadmits
    hregisters hl₁ hl₂ hn hbreak hroom
  exact ⟨hn, n', hhalts, halike⟩

end Lowering
end Wordcode
