import Wordcode.Proofs.Lowering.Blocks
import Wordcode.Proofs.Peephole.FixedPoints
import Wordcode.Proofs.Peephole.Runs

/-!
# Lowered calls

A target without calls keeps return addresses on the value stack. A call pushes the address
of a label that is placed after it, and a return pops an address into the scratch register
and goes there. Addresses are never cut to a word on this way, however short words are.

In a program that does not use the value stack itself, a pushed address is popped only by a
return, so the peephole pass finds nothing to simplify across instructions: what it does to
each of them alone is what it does to the whole stream.

* `Peephole.apply_blocks`: the simplified blocks of such a program;
* `Lowering.Mirrors`: the value stack is the call stack, with every return address replaced;
* `Lowering.Plan.tick`: every tick of the program is matched by those of a block;
* `Lowering.halts_lower_calls`: a lowered program halts if the program does, and its value
  stack mirrors the call stack all the way.
-/

namespace Wordcode

variable {Bus : Type}

open Instruction

/-! ## Simplifying instructions one by one -/

namespace Peephole

variable {settings : Peephole} {kept : List Instruction}

/-- What becomes of an instruction on its own. -/
def alone (settings : Peephole) : Instruction → List Instruction
  | .note n => if settings.drops n then [] else [.note n]
  | .code op operands => [settings.canonical (.code op operands)]

/-- Simplifying instructions one after the other does no more than to simplify each, and
    leaves no push for a pop that follows. -/
def Separate (settings : Peephole) (stream : List Instruction) : Prop :=
  ∀ kept, pendingPush? kept = none →
    stream.foldl settings.push kept = (stream.flatMap settings.alone).reverse ++ kept ∧
      pendingPush? ((stream.flatMap settings.alone).reverse ++ kept) = none

theorem Separate.nil : Separate settings [] := fun _ h => ⟨rfl, h⟩

theorem Separate.append {xs ys : List Instruction} (hx : Separate settings xs)
    (hy : Separate settings ys) : Separate settings (xs ++ ys) := by
  intro kept h
  obtain ⟨hx₁, hx₂⟩ := hx kept h
  obtain ⟨hy₁, hy₂⟩ := hy _ hx₂
  rw [List.foldl_append, hx₁, hy₁, List.flatMap_append, List.reverse_append, List.append_assoc]
  exact ⟨rfl, hy₂⟩

theorem Separate.flatMap {α : Type} {f : α → List Instruction} {xs : List α}
    (h : ∀ x ∈ xs, Separate settings (f x)) : Separate settings (xs.flatMap f) := by
  induction xs with
  | nil => exact .nil
  | cons x rest ih =>
    rw [List.forall_mem_cons] at h
    exact h.1.append (ih h.2)

/-- A stream that is simplified instruction by instruction. -/
theorem Separate.apply_eq {stream : List Instruction} (h : Separate settings stream) :
    settings.apply stream = stream.flatMap settings.alone := by
  rw [apply, (h [] rfl).1, List.append_nil, List.reverse_reverse]

theorem Separate.note (n : Note) : Separate settings [.note n] := by
  intro kept h
  simp only [List.foldl_cons, List.foldl_nil, push, List.flatMap_singleton, alone]
  split
  · exact ⟨rfl, h⟩
  · refine ⟨rfl, ?_⟩
    cases n with
    | comment text => simp [pendingPush?, h]
    | _ => rfl

/-- Only a push waits for what follows. -/
theorem Separate.code {op : Opcode} (h : op ≠ .psh) (operands : List Operand) :
    Separate settings [.code op operands] := by
  intro kept hk
  obtain ⟨op', operands', he, hop'⟩ := exists_canonical settings h operands
  rw [List.foldl_cons, List.foldl_nil, push_code (.inl hk), List.flatMap_singleton, alone, he]
  exact ⟨rfl, pendingPush?_code hop' operands'⟩

/-- A push does not wait if what follows is no pop. -/
theorem Separate.push_then {op : Opcode} (hp : op ≠ .pop) (h : op ≠ .psh)
    (operands pushed : List Operand) :
    Separate settings [.code .psh pushed, .code op operands] := by
  intro kept hk
  obtain ⟨op', operands', he, hop'⟩ := exists_canonical settings h operands
  simp only [List.foldl_cons, List.foldl_nil, push_code (.inl hk), push_code (.inr hp),
    List.flatMap_cons, List.flatMap_nil, alone, he]
  exact ⟨rfl, pendingPush?_code hop' operands'⟩

end Peephole

/-! ## Simplified blocks -/

section Alone

variable {settings : Peephole} {rest : List Instruction}

theorem extent_alone (i : Instruction) : extent (settings.alone i) = i.footprint := by
  cases i with
  | note n =>
    rw [Peephole.alone]
    split <;> rfl
  | code op operands =>
    rw [Peephole.alone]
    unfold Peephole.canonical
    split
    · next he =>
      cases he
      split <;> rfl
    · rfl

theorem extent_flatMap_alone (stream : List Instruction) :
    extent (stream.flatMap settings.alone) = extent stream := by
  induction stream with
  | nil => rfl
  | cons i rest ih => rw [List.flatMap_cons, extent_append, extent_alone, ih, extent_cons]

theorem flatMap_alone_code {op : Opcode} (h : op ≠ .imm) (operands : List Operand) :
    (code op operands :: rest).flatMap settings.alone =
      code op operands :: rest.flatMap settings.alone := by
  rw [List.flatMap_cons, Peephole.alone, Peephole.canonical_of_ne_imm h, List.singleton_append]

theorem Code.Holds.alone_note {code : Code} {address : Nat} {n : Note}
    (h : code.Holds address ((.note n :: rest).flatMap settings.alone)) :
    code.Holds address (rest.flatMap settings.alone) := by
  rw [List.flatMap_cons, Peephole.alone] at h
  split at h
  · exact h
  · exact h.note_tail

end Alone

namespace Lowering

open Pieces

variable {target : Tier} {context : Expansion.Context} {settings : Peephole} {first : Nat}
  {stream : List Instruction}

/-- Whether a program does nothing that would take more than the lowering of calls: it leaves
    the value stack alone, and nothing but calls, returns and `NOP` needs to be lowered. -/
structure CallsOnly (stream : List Instruction) : Prop where
  stack : ∀ operands, .code .psh operands ∉ stream ∧ .code .pop operands ∉ stream
  tier : ∀ op operands, .code op operands ∈ stream →
    op.tier = .core ∨ op = .cal ∨ op = .ret ∨ op = .nop

/-- A call pushes the address of its label, and the label is placed after the jump. -/
theorem instruction_call (context : Expansion.Context) (n : Nat) (x : Operand) :
    instruction .core context n (.code .cal [x]) =
      ([.note (.comment (code .cal [x]).render), .note (.createLabel (.anonymous n)),
        Expansion.jump .psh n, .code .bra [x], Expansion.mark n], n + 1) := by
  have he : Expansion.expand? context n .cal [x] = some (Expansion.call n x) := rfl
  rw [instruction_of_expand rfl he, flatMap_settle he (by decide)]
  rfl

/-- A return pops an address into the scratch register. -/
theorem instruction_return (context : Expansion.Context) (n : Nat) :
    instruction .core context n (.code .ret []) =
      ([.note (.comment (code .ret []).render), .code .pop [.register context.scratch],
        .code .bra [.register context.scratch]], n) := by
  have he : Expansion.expand? context n .ret [] = some (Expansion.comeBack context) := rfl
  rw [instruction_of_expand rfl he, flatMap_settle he (by decide)]
  rfl

theorem instruction_nop (context : Expansion.Context) (n : Nat) :
    instruction .core context n (.code .nop []) = ([], n) :=
  instruction_of_none rfl rfl

/-- The instructions of a program with calls only. -/
theorem CallsOnly.cases (h : CallsOnly stream) (hw : ∀ i ∈ stream, i.WellFormed)
    {i : Instruction} (hi : i ∈ stream) :
    (∃ n, i = .note n) ∨
      (∃ op operands, i = .code op operands ∧ op.tier = .core ∧ op ≠ .psh ∧ op ≠ .pop) ∨
      (∃ x, i = .code .cal [x]) ∨ i = .code .ret [] ∨ i = .code .nop [] := by
  cases i with
  | note n => exact .inl ⟨n, rfl⟩
  | code op operands =>
    have hlength := (hw _ hi).length_operands
    rcases h.tier op operands hi with htier | rfl | rfl | rfl
    · exact .inr (.inl ⟨op, operands, rfl, htier, fun e => (h.stack operands).1 (e ▸ hi),
        fun e => (h.stack operands).2 (e ▸ hi)⟩)
    · obtain ⟨x, rfl⟩ := List.length_eq_one_iff.1 hlength
      exact .inr (.inr (.inl ⟨x, rfl⟩))
    · rw [List.eq_nil_of_length_eq_zero hlength]
      exact .inr (.inr (.inr (.inl rfl)))
    · rw [List.eq_nil_of_length_eq_zero hlength]
      exact .inr (.inr (.inr (.inr rfl)))

/-- Every block of a program with calls only is simplified one by one. -/
theorem CallsOnly.separate (h : CallsOnly stream) (hw : ∀ i ∈ stream, i.WellFormed)
    {i : Instruction} (hi : i ∈ stream) (context : Expansion.Context) (n : Nat) :
    Peephole.Separate settings (instruction .core context n i).1 := by
  rcases h.cases hw hi with ⟨m, rfl⟩ | ⟨op, operands, rfl, htier, hpsh, -⟩ | ⟨x, rfl⟩ | rfl | rfl
  · rw [instruction_of_fits rfl]
    exact .note m
  · rw [instruction_of_fits (fits_of_tier htier operands)]
    exact .code hpsh operands
  · rw [instruction_call]
    exact (Peephole.Separate.note _).append ((Peephole.Separate.note _).append
      ((Peephole.Separate.push_then (by decide) (by decide) [x] _).append (.note _)))
  · rw [instruction_return]
    exact (Peephole.Separate.note _).append
      ((Peephole.Separate.code (by decide) _).append (.code (by decide) _))
  · rw [instruction_nop]
    exact .nil

/-- The pieces of a program that is lowered and then simplified one by one. -/
def simplifiedBlocks (settings : Peephole) (context : Expansion.Context) (first : Nat)
    (stream : List Instruction) : Pieces :=
  (blocks .core context first stream).map fun p => (p.1, p.2.flatMap settings.alone)

theorem source_simplifiedBlocks (settings : Peephole) (context : Expansion.Context) (first : Nat)
    (stream : List Instruction) :
    (simplifiedBlocks settings context first stream).source = stream := by
  rw [simplifiedBlocks, source, List.flatMap_map]
  exact source_blocks .core context first stream

/-- The simplified program, cut into blocks. -/
theorem CallsOnly.target_simplifiedBlocks (h : CallsOnly stream)
    (hw : ∀ i ∈ stream, i.WellFormed) (settings : Peephole) (context : Expansion.Context)
    (first : Nat) :
    (simplifiedBlocks settings context first stream).target =
      settings.apply (sequence (instruction .core context) first stream).1 := by
  have hseparate : Peephole.Separate settings (blocks .core context first stream).target := by
    refine .flatMap fun p hp => ?_
    obtain ⟨i, hi, n, rfl⟩ := mem_blocks hp
    exact h.separate hw hi context n
  rw [← target_blocks, hseparate.apply_eq, simplifiedBlocks, target, target, List.flatMap_map,
    List.flatMap_assoc]

theorem mem_simplifiedBlocks {p : List Instruction × List Instruction}
    (h : p ∈ simplifiedBlocks settings context first stream) :
    ∃ i ∈ stream, ∃ n, p = ([i], (instruction .core context n i).1.flatMap settings.alone) := by
  obtain ⟨q, hq, rfl⟩ := List.mem_map.1 h
  obtain ⟨i, hi, n, rfl⟩ := mem_blocks hq
  exact ⟨i, hi, n, rfl⟩

/-- Pieces without a footprint are passed over on both sides, so a point of the program is
    either its end or the beginning of a piece with something to execute. -/
theorem extent_of_mem_simplifiedBlocks {p : List Instruction × List Instruction}
    (h : p ∈ simplifiedBlocks settings context first stream) (h0 : extent p.1 = 0) :
    extent p.2 = 0 := by
  obtain ⟨i, -, n, rfl⟩ := mem_simplifiedBlocks h
  rw [extent_flatMap_alone]
  cases i with
  | note => rw [instruction_of_fits rfl]; rfl
  | code op operands => exact absurd h0 (Nat.ne_of_gt op.footprint_pos)

/-! ## Ticks -/

/-- The addresses at which a call is gone on with after it returns. -/
def Site (pieces : Pieces) (a a' : Nat) : Prop :=
  ∃ (before after : Pieces) (operands : List Operand) (new : List Instruction),
    pieces = before ++ ([.code .cal operands], new) :: after ∧ a = extent before.source + 1 ∧
      a' = extent before.target + extent new

theorem Site.corresponds {pieces : Pieces} {a a' : Nat} (h : Site pieces a a') :
    Corresponds pieces a a' := by
  obtain ⟨before, after, operands, new, hp, rfl, rfl⟩ := h
  exact corresponds_next hp

/-- The lowered program is in the state of the program, but for the scratch register, and
    has on its value stack where calls are to be gone on with. -/
structure Mirrored (code : Code) (pieces : Pieces) (hidden : Nat) (v w : View Bus) : Prop
    extends View.Agrees code.config.mask True (· ≠ hidden) v w where
  ip : Corresponds pieces v.core.ip w.core.ip
  sites : List.Forall₂ (Site pieces) v.core.calls w.core.stack

/-- A program with calls and what becomes of it, both loaded in the same configuration. -/
structure Plan (code code' : Code) (settings : Peephole) (context : Expansion.Context)
    (first : Nat) (stream : List Instruction) : Prop where
  config : code'.config = code.config
  original : code.Carries (simplifiedBlocks settings context first stream).source
  lowered : code'.Carries (simplifiedBlocks settings context first stream).target
  direct : ∀ i ∈ stream, i.Direct
  wellFormed : ∀ i ∈ stream, i.WellFormed
  calls : CallsOnly stream
  hidden : ∀ i ∈ stream, .register context.scratch ∉ i.operands
  scratch_ne : context.scratch ≠ 0
  registers : ∀ i ∈ (simplifiedBlocks settings context first stream).target, ∀ j,
    .register j ∈ i.operands → j < code.config.registers

variable {code code' : Code} {settings : Peephole} {context : Expansion.Context} {first n : Nat}
  {stream : List Instruction} {v w v' : View Bus} {o : Outcome}

/-- The marks of the program stay where they are. -/
theorem Plan.relocates (h : Plan code code' settings context first stream) :
    code.Relocates code' (Corresponds (simplifiedBlocks settings context first stream)) := by
  refine Pieces.relocates h.config h.original h.lowered fun p hp l hl => ?_
  obtain ⟨i, -, n, rfl⟩ := mem_simplifiedBlocks hp
  rw [List.mem_singleton] at hl
  subst hl
  rw [instruction_of_fits rfl]
  exact ⟨rfl, rfl⟩

variable [PortBus Bus]

/-- An instruction for every target is executed alike. -/
theorem Plan.tick_core (h : Plan code code' settings context first stream)
    (hm : Mirrored code (simplifiedBlocks settings context first stream) context.scratch v w)
    (hpos : 0 < v.core.registers.size) {before after : Pieces} {op : Opcode}
    {operands : List Operand}
    (hp : simplifiedBlocks settings context first stream = before ++
      ([.code op operands], [settings.canonical (.code op operands)]) :: after)
    (hv : v.core.ip = extent before.source) (hw : w.core.ip = extent before.target)
    (hmem : .code op operands ∈ stream) (htier : op.tier = .core) (hpsh : op ≠ .psh)
    (hpop : op ≠ .pop) (hx : code.tick v = (v', o)) (hf : o.isFault = false) :
    ∃ w', code'.tick w = (w', o) ∧
      Mirrored code (simplifiedBlocks settings context first stream) context.scratch v' w' := by
  obtain ⟨hold, hold'⟩ := holds_piece h.original h.lowered hp
  rw [← hv] at hold
  rw [← hw] at hold'
  cases hdata : op.isData with
  | true =>
    obtain ⟨word, hword⟩ := (stands_data_iff hdata).1 hold.1
    have := Code.tick_of_fetch_data hword
    rw [hx, hf] at this
    cases this
  | false =>
    -- The instruction may stand in the lowered program with another opcode, which executes
    -- alike.
    obtain ⟨op', operands', hcanonical, hdata', hexecute⟩ :=
      @Decoded.execute_canonical Bus _ code'.resolution code'.config.mask settings _ hdata operands
    have hnext := corresponds_next hp
    rw [hcanonical] at hold' hnext
    simp only [extent_cons, footprint_code, Opcode.footprint_of_not_isData hdata,
      Opcode.footprint_of_not_isData hdata', extent_nil, Nat.add_zero, ← hv, ← hw] at hnext
    have hx := Code.execute_of_tick ((Code.holds_code_cons hdata).1 hold).1 hx hf
    have hfetch := ((Code.holds_code_cons hdata').1 hold').1
    have hvisible (j : Nat) (hj : .register j ∈ operands) : j ≠ context.scratch :=
      fun e => h.hidden _ hmem (e ▸ hj)
    have hpos' : 0 < w.core.registers.size := hm.size ▸ hpos
    cases hb : op.isBranch with
    | true =>
      obtain ⟨l, rest, rfl, hl⟩ : ∃ l rest, operands = .label l :: rest ∧ ∀ l, .label l ∉ rest := by
        simpa [Direct, hb] using h.direct _ hmem
      obtain ⟨w', hw', ha, hip, ⟨-, hcalls⟩, hstack, -⟩ := hm.toAgrees.execute_branch h.relocates
        hb (fun _ => trivial) hl (fun j hj => hvisible j (List.mem_cons_of_mem _ hj)) hnext hx hf
      refine ⟨w', Code.tick_of_execute hfetch ?_ hf, ha, hip, ?_⟩
      · exact h.config ▸ hexecute _ _ _ _ hpos' hw' hf
      · rw [hcalls, hstack]
        exact hm.sites
    | false =>
      have hfree : ∀ l, .label l ∉ operands := by
        have hcal : op ≠ .cal := by
          rintro rfl
          cases htier
        simpa [Direct, hb, hcal] using h.direct _ hmem
      have hplain : op.isPlain = true := by
        cases op <;> simp_all [Opcode.isPlain, Opcode.isData, Opcode.tier]
      obtain ⟨w', hw', ha, hfollow, hfollow'⟩ := hm.toAgrees.execute_plain
        (fun j hj => hvisible j (Code.register_mem_slots_decode hj)) Code.decode_operation hplain
        hx hf
      rw [← Code.decode_congr h.config hfree] at hw'
      refine ⟨w', Code.tick_of_execute hfetch ?_ hf, ha, ?_, ?_⟩
      · exact h.config ▸ hexecute _ _ _ _ hpos' hw' hf
      · rw [hfollow.ip, hfollow'.ip]
        exact hnext
      · rw [hfollow.calls, hfollow'.stack]
        exact hm.sites

/-- A call leaves the address of its label on the value stack. -/
theorem Plan.tick_call (h : Plan code code' settings context first stream)
    (hm : Mirrored code (simplifiedBlocks settings context first stream) context.scratch v w)
    {before after : Pieces} {x : Operand}
    (hp : simplifiedBlocks settings context first stream = before ++ ([.code .cal [x]],
      (instruction .core context n (.code .cal [x])).1.flatMap settings.alone) :: after)
    (hv : v.core.ip = extent before.source) (hw : w.core.ip = extent before.target)
    (hmem : .code .cal [x] ∈ stream) (hh : v.core.halted = false) (hx : code.tick v = (v', o))
    (hf : o.isFault = false) :
    o = .executed ∧ ∃ w', code'.Ticks w [.executed, .executed] w' ∧
      Mirrored code (simplifiedBlocks settings context first stream) context.scratch v' w' := by
  obtain ⟨l, rfl⟩ : ∃ l, x = .label l := by
    obtain ⟨l, rest, he, -⟩ : ∃ l rest, [x] = .label l :: rest ∧ ∀ l, .label l ∉ rest := by
      simpa [Direct] using h.direct _ hmem
    exact ⟨l, by cases he; rfl⟩
  obtain ⟨hold, hold'⟩ := holds_piece h.original h.lowered hp
  have hextent : extent ((instruction .core context n (.code .cal [.label l])).1.flatMap
      settings.alone) = 2 := by
    rw [extent_flatMap_alone, instruction_call]
    rfl
  rw [← hv] at hold
  rw [← hw, instruction_call] at hold'
  -- the block, without its comment and its announcement
  have hblock := hold'.alone_note.alone_note
  rw [Expansion.jump, flatMap_alone_code (by decide), flatMap_alone_code (by decide)] at hblock
  obtain ⟨hpush, hblock⟩ := (Code.holds_code_cons rfl).1 hblock
  obtain ⟨hjump, hblock⟩ := (Code.holds_code_cons rfl).1 hblock
  have hsite : code'.resolution.addressOf (.anonymous n) = some (w.core.ip + 2) := hblock.1
  obtain ⟨e, heffect, hx⟩ := Decoded.exists_effectOf_of_execute Code.decode_operation
    (Code.execute_of_tick ((Code.holds_code_cons rfl).1 hold).1 hx hf) hf
  obtain ⟨hlength, a, ha, rfl⟩ := Decoded.effectOf_cal_eq_ok_iff.1 heffect
  obtain ⟨a', ha', hrel⟩ := h.relocates.label l a (Code.value_label_eq_ok_iff.1 ha)
  cases hx
  have hhalted : w.core.halted = false := hm.halted.trans hh
  let w₁ : View Bus := { w with core := { w.core with
    ip := w.core.ip + 1, stack := (w.core.ip + 2) :: w.core.stack } }
  let w₂ : View Bus := { w₁ with core := { w₁.core with ip := a' } }
  have htick₁ : code'.tick w = (w₁, .executed) := by
    refine Code.tick_of_execute hpush ?_ rfl
    rw [Decoded.execute_of_effectOf Code.decode_operation (Decoded.effectOf_psh_eq_ok_iff.2
      ⟨?_, _, Code.value_label_eq_ok_iff.2 hsite, rfl⟩)]
    · rfl
    · rwa [h.config, ← hm.sites.length_eq]
  have htick₂ : code'.tick w₁ = (w₂, .executed) := by
    refine Code.tick_of_execute hjump ?_ rfl
    rw [Decoded.execute_of_effectOf Code.decode_operation (e := .jump a')]
    · rfl
    · rw [Decoded.effectOf_of_isBranch rfl]
      exact bind_eq_ok_iff.2 ⟨true, rfl, Decoded.branch_eq_ok_iff.2
        (.inl ⟨rfl, a', Code.value_label_eq_ok_iff.2 ha', rfl⟩)⟩
  refine ⟨rfl, w₂, .cons hhalted htick₁ (.single hhalted htick₂),
    ⟨hm.size, hm.register, hm.halted, hm.flags, hm.carry, hm.ram, hm.bus⟩, hrel, ?_⟩
  exact .cons ⟨before, after, _, _, hp, by rw [hv], by rw [hextent, hw]⟩ hm.sites

/-- A return goes to the address on the value stack. -/
theorem Plan.tick_return (h : Plan code code' settings context first stream)
    (hm : Mirrored code (simplifiedBlocks settings context first stream) context.scratch v w)
    (hsize : v.core.registers.size = code.config.registers) {before after : Pieces}
    (hp : simplifiedBlocks settings context first stream = before ++ ([.code .ret []],
      (instruction .core context n (.code .ret [])).1.flatMap settings.alone) :: after)
    (hv : v.core.ip = extent before.source) (hw : w.core.ip = extent before.target)
    (hcalled : v.core.calls ≠ []) (hh : v.core.halted = false) (hx : code.tick v = (v', o))
    (hf : o.isFault = false) :
    o = .executed ∧ ∃ w', code'.Ticks w [.executed, .executed] w' ∧
      Mirrored code (simplifiedBlocks settings context first stream) context.scratch v' w' := by
  obtain ⟨hold, hold'⟩ := holds_piece h.original h.lowered hp
  have hlt : context.scratch < w.core.registers.size := by
    rw [hm.size, hsize]
    refine h.registers (.code .pop [.register context.scratch]) ?_ _ List.mem_cons_self
    rw [hp, target_append, target_cons, instruction_return]
    simp [Peephole.alone, Peephole.canonical_of_ne_imm]
  rw [← hv] at hold
  rw [← hw, instruction_return] at hold'
  have hblock := hold'.alone_note
  rw [flatMap_alone_code (by decide), flatMap_alone_code (by decide)] at hblock
  obtain ⟨hpop, hblock⟩ := (Code.holds_code_cons rfl).1 hblock
  obtain ⟨hjump, -⟩ := (Code.holds_code_cons rfl).1 hblock
  have hx := Code.execute_of_tick ((Code.holds_code_cons rfl).1 hold).1 hx hf
  have hhalted : w.core.halted = false := hm.halted.trans hh
  obtain ⟨site, calls, hs⟩ := List.exists_cons_of_ne_nil hcalled
  -- The program returns to the site on top of its calls. Its counterpart is on top of the value
  -- stack, from where it goes through the scratch register into a branch.
  have hsites := hm.sites
  rw [hs, List.forall₂_cons_left_iff] at hsites
  obtain ⟨site', stack, hsite, hrest, hstack⟩ := hsites
  have hleave : (code.decode .ret []).effectOf code.config v.ram v.core .ret = .ok .leave := rfl
  rw [Decoded.execute_of_effectOf Code.decode_operation hleave] at hx
  simp only [Effect.perform, hs] at hx
  cases hx
  let popped : Core := { w.core with stack }
  let w₁ : View Bus :=
    { w with core := { popped.put context.scratch site' with ip := w.core.ip + 1 } }
  let w₂ : View Bus := { w₁ with core := { w₁.core with ip := site' } }
  have htick₁ : code'.tick w = (w₁, .executed) := by
    refine Code.tick_of_execute hpop ?_ rfl
    rw [Decoded.execute_of_effectOf Code.decode_operation (Decoded.effectOf_pop_eq_ok_iff.2
      ⟨by simp [hstack], rfl⟩), Code.destination_eq_ok_iff.2 rfl]
    simp only [Effect.perform, hstack]
    exact View.assign_of_lt (v := { w with core := popped }) hlt
  have hread : w₁.core.read context.scratch = .ok site' := by
    have hput : (popped.put context.scratch site').registers[context.scratch]? = some site' :=
      Core.registers_put_self site' h.scratch_ne hlt
    simp [w₁, Core.read, hput, h.scratch_ne]
  have htick₂ : code'.tick w₁ = (w₂, .executed) := by
    refine Code.tick_of_execute (by simpa [w₁] using hjump) ?_ rfl
    rw [Decoded.execute_of_effectOf Code.decode_operation (e := .jump site')]
    · rfl
    · rw [Decoded.effectOf_of_isBranch rfl]
      exact bind_eq_ok_iff.2 ⟨true, rfl, Decoded.branch_eq_ok_iff.2 (.inl ⟨rfl, site', hread, rfl⟩)⟩
  have hhalted₁ : w₁.core.halted = false := by simpa [w₁, popped] using hhalted
  refine ⟨rfl, w₂, .cons hhalted htick₁ (.single hhalted₁ htick₂), ⟨?_, fun j hj => ?_, ?_, ?_, ?_,
    hm.ram, hm.bus⟩, hsite.corresponds, ?_⟩
  · simpa [w₂, w₁, popped] using hm.size
  · simpa [w₂, w₁, popped, Core.registers_put_of_ne site' hj] using hm.register j hj
  · simpa [w₂, w₁, popped] using hm.halted
  · simpa [w₂, w₁, popped] using hm.flags
  · simpa [w₂, w₁, popped] using hm.carry
  · simpa [w₂, w₁, popped] using hrest

/-- Every tick of the program is matched by those of a block. -/
theorem Plan.tick (h : Plan code code' settings context first stream)
    (hm : Mirrored code (simplifiedBlocks settings context first stream) context.scratch v w)
    (hsize : v.core.registers.size = code.config.registers)
    (hcalled : code.fetch v.core.ip = some (.code (code.decode .ret [])) → v.core.calls ≠ [])
    (hh : v.core.halted = false) (hx : code.tick v = (v', o)) (hf : o.isFault = false) :
    ∃ os w', code'.Ticks w os w' ∧ Outcome.observed os = Outcome.observed [o] ∧
      Mirrored code (simplifiedBlocks settings context first stream) context.scratch v' w' := by
  have hhalted : w.core.halted = false := hm.halted.trans hh
  rcases cases_of_corresponds hm.ip fun _ => extent_of_mem_simplifiedBlocks with
    ⟨hv, hw⟩ | ⟨before, p, after, hp, hv, hw, hpos⟩
  · rw [Code.tick_of_size_le (by rw [h.original.size, hv])] at hx
    cases hx
    exact ⟨[.executed], w.halt, .single hhalted (Code.tick_of_size_le (by rw [h.lowered.size, hw])),
      rfl, ⟨hm.size, hm.register, rfl, hm.flags, hm.carry, hm.ram, hm.bus⟩, hm.ip, hm.sites⟩
  obtain ⟨i, hmem, n, rfl⟩ := mem_simplifiedBlocks (p := p) (by rw [hp]; simp)
  have hnext := corresponds_next hp
  obtain ⟨hold, -⟩ := holds_piece h.original h.lowered hp
  rw [← hv] at hold hnext
  rw [← hw] at hnext
  rcases h.calls.cases h.wellFormed hmem with
    ⟨m, rfl⟩ | ⟨op, operands, rfl, htier, hpsh, hpop⟩ | ⟨x, rfl⟩ | rfl | rfl
  · exact absurd hpos (Nat.lt_irrefl 0)
  · rw [instruction_of_fits (fits_of_tier htier operands)] at hp
    have hpos' : 0 < v.core.registers.size := hsize ▸ code.valid.registers_pos
    obtain ⟨w', hw', hm'⟩ := h.tick_core hm hpos' hp hv hw hmem htier hpsh hpop hx hf
    exact ⟨[o], w', .single hhalted hw', rfl, hm'⟩
  · obtain ⟨rfl, w', hw', hm'⟩ := h.tick_call hm hp hv hw hmem hh hx hf
    exact ⟨_, w', hw', rfl, hm'⟩
  · have hfetch := ((Code.holds_code_cons rfl).1 hold).1
    obtain ⟨rfl, w', hw', hm'⟩ :=
      h.tick_return hm hsize hp hv hw (hcalled hfetch) hh hx hf
    exact ⟨_, w', hw', rfl, hm'⟩
  -- What does nothing is lowered to nothing: the lowered program waits.
  · rw [instruction_nop] at hnext
    have hx := Code.execute_of_tick ((Code.holds_code_cons rfl).1 hold).1 hx hf
    cases hx
    exact ⟨[], w, .nil w, rfl, ⟨hm.size, hm.register, hm.halted, hm.flags, hm.carry, hm.ram,
      hm.bus⟩, hnext, hm.sites⟩

end Lowering

/-! ## Runs -/

/-- Whether a core is about to return although it was not called. -/
def Machine.leaves (m : Machine Bus) (core : Core) : Bool :=
  !core.halted && core.calls.isEmpty && decide (core.ip < m.programLen) &&
    match m.rom[core.ip]? with
    | some (.code d) => d.operation == .code .ret
    | _ => false

theorem Machine.Runs.leaves_of_fetch {m : Machine Bus} {code : Code} {u : View Bus}
    (h : m.Runs code) (hh : u.core.halted = false) (hcalls : u.core.calls = [])
    (hfetch : code.fetch u.core.ip = some (.code (code.decode .ret []))) :
    (m.ofView u).leaves u.core = true := by
  have hlt : u.core.ip < code.size := by
    by_contra hge
    rw [Code.size_le_of_fetch (Nat.le_of_not_lt hge)] at hfetch
    cases hfetch
  rw [Code.fetch, if_pos hlt] at hfetch
  simp [leaves, ofView, hh, hcalls, h.size, h.rom, hlt, hfetch, Code.decode_operation]

namespace Lowering

open Pieces

section Statement

variable (config : Config) (program : Program)

/-- What becomes of the beginning of a program, with the first label that is free after it. -/
def beginning (before : List Instruction) : List Instruction × Nat :=
  sequence (instruction config.maxTier ⟨scratch program, config.wordBits⟩) program.labels.nextId
    before

/-- An address to come back to after a call of the program, and the address of the label
    that is placed after the lowered call. -/
def ReturnSite (lowered : Lowered) (a a' : Nat) : Prop :=
  ∃ before operands after, program.instructions = before ++ .code .cal operands :: after ∧
    a = extent before + 1 ∧ ∃ before' after', lowered.program.instructions =
      before' ++ .note (.markLabel (.anonymous (beginning config program before).2)) :: after' ∧
      a' = extent before'

/-- A core that executes the lowered program, in the state of one that executes the
    program. -/
structure CoreMirrors (lowered : Lowered) (core core' : Core) : Prop where
  ip : ∃ before after, program.instructions = before ++ after ∧ core.ip = extent before ∧
    core'.ip = extent (beginning config program before).1
  registers : ∀ j, j ≠ scratch program → core'.registers[j]? = core.registers[j]?
  flags : core'.flags = core.flags
  /-- Return addresses are on the value stack. -/
  sites : List.Forall₂ (ReturnSite config program lowered) core.calls core'.stack

/-- A machine that executes the lowered program, in the state of one that executes the
    program. -/
structure Mirrors (lowered : Lowered) (m m' : Machine Bus) : Prop where
  cores : List.Forall₂ (CoreMirrors config program lowered) m.cores m'.cores
  ram : m'.ram = m.ram
  bus : m'.bus = m.bus

end Statement

variable {config : Config} {settings : Peephole} {program : Program} {lowered : Lowered}
  {m m₁ m₂ : Machine Bus} {n : Nat}

/-- The blocks at the beginning are those of instructions at the beginning. -/
theorem simplifiedBlocks_eq_append {context : Expansion.Context} {first : Nat}
    {stream : List Instruction} {xs ys : Pieces}
    (h : simplifiedBlocks settings context first stream = xs ++ ys) :
    ∃ before after, stream = before ++ after ∧
      xs = simplifiedBlocks settings context first before ∧
      ys = simplifiedBlocks settings context
        (sequence (instruction .core context) first before).2 after := by
  obtain ⟨xs', ys', hb, rfl, rfl⟩ := List.map_eq_append_iff.1 h
  obtain ⟨before, after, rfl, rfl, rfl⟩ := blocks_eq_append hb
  exact ⟨before, after, rfl, rfl, rfl⟩

/-- Simplifying the blocks of a program with calls only does not move them. -/
theorem extent_target_simplifiedBlocks (settings : Peephole) (context : Expansion.Context)
    (first : Nat) (stream : List Instruction) :
    extent (simplifiedBlocks settings context first stream).target =
      extent (sequence (instruction .core context) first stream).1 := by
  rw [← target_blocks, simplifiedBlocks, target, target, List.flatMap_map, ← List.flatMap_assoc,
    extent_flatMap_alone]

/-- The site of a call in the blocks of a program is a return site of the lowered program. -/
theorem Site.returnSite {highest a a' : Nat} (htier : config.maxTier = .core)
    (hw : ∀ i ∈ program.instructions, i.WellFormed)
    (hlowered : lowered.program.instructions = (simplifiedBlocks settings
      ⟨scratch program, config.wordBits⟩ program.labels.nextId program.instructions).target.map
        (declare highest))
    (h : Site (simplifiedBlocks settings ⟨scratch program, config.wordBits⟩ program.labels.nextId
      program.instructions) a a') : ReturnSite config program lowered a a' := by
  obtain ⟨xs, ys, operands, new, hp, rfl, rfl⟩ := h
  obtain ⟨before, rest, hstream, rfl, hrest⟩ := simplifiedBlocks_eq_append hp
  cases rest with
  | nil => cases hrest
  | cons i after =>
    rw [simplifiedBlocks, blocks, List.map_cons, List.cons.injEq, Prod.mk.injEq] at hrest
    obtain ⟨⟨hi, rfl⟩, -⟩ := hrest
    cases hi
    obtain ⟨x, rfl⟩ := List.length_eq_one_iff.1
      (hw (.code .cal operands) (by simp [hstream])).length_operands
    obtain ⟨id, hid⟩ : ∃ id, id = (beginning config program before).2 := ⟨_, rfl⟩
    have hfirst : (sequence (instruction .core ⟨scratch program, config.wordBits⟩)
        program.labels.nextId before).2 = id := by rw [hid, beginning, htier]
    -- the block of the call, up to its label
    let call : List Instruction := [.note (.comment (code .cal [x]).render),
      .note (.createLabel (.anonymous id)), Expansion.jump .psh id, .code .bra [x]]
    have hblock : (instruction .core ⟨scratch program, config.wordBits⟩ id
        (.code .cal [x])).1.flatMap settings.alone =
          call.flatMap settings.alone ++ [.note (.markLabel (.anonymous id))] := by
      rw [instruction_call]
      have happend : ∀ rest : List Instruction, (call ++ rest).flatMap settings.alone =
          call.flatMap settings.alone ++ rest.flatMap settings.alone :=
        fun _ => List.flatMap_append
      exact happend [Expansion.mark id]
    rw [hfirst, hblock] at hp ⊢
    refine ⟨before, [x], after, hstream, by rw [source_simplifiedBlocks], ?_⟩
    rw [← hid]
    refine ⟨((simplifiedBlocks settings ⟨scratch program, config.wordBits⟩ program.labels.nextId
      before).target ++ call.flatMap settings.alone).map (declare highest),
      (target ys).map (declare highest), ?_, ?_⟩
    · rw [hlowered, hp, target_append, target_cons]
      simp only [List.map_append, List.append_assoc, List.map_cons, List.singleton_append]
      rfl
    · rw [extent_map_declare, extent_append, extent_append]
      rfl

variable [PortBus Bus]

/-- Where a program with calls only halts, so does the lowered program, in the same state but
    for the scratch register. At all corresponding points of the two runs, the value stack of
    the lowered program has the return sites of the calls of the program. -/
theorem halts_lower_calls (hlower : lower config settings program = .ok lowered)
    (htier : config.maxTier = .core) (hm : m.SingleCore)
    (hwell : ∀ i ∈ program.instructions, i.WellFormed)
    (hdirect : ∀ i ∈ program.instructions, i.Direct) (hcalls : CallsOnly program.instructions)
    (hregisters : lowered.registersRequired ≤ m.config.registers)
    (hl₁ : m.load program.instructions = (m₁, .ok ()))
    (hl₂ : m.load lowered.program.instructions = (m₂, .ok ())) (hn : m₁.HaltsWithin n)
    (hleave : ∀ k < n, ∀ core ∈ (m₁.after k).cores, (m₁.after k).leaves core = false) :
    ∃ point : Nat → Nat, Monotone point ∧ point 0 = 0 ∧ m₂.HaltsWithin (point n) ∧
      ∀ k ≤ n, Mirrors config program lowered (m₁.after k) (m₂.after (point k)) := by
  obtain ⟨code, hcode, hc, hr, hinit⟩ := Machine.exists_code_of_load hm hl₁
  obtain ⟨code', hcode', hc', hr', hinit'⟩ := Machine.exists_code_of_load hm hl₂
  obtain ⟨highest, hhighest, hrequired, hinstructions, -⟩ := exists_of_lower hlower
  let context : Expansion.Context := ⟨scratch program, config.wordBits⟩
  let pieces : Pieces :=
    simplifiedBlocks settings context program.labels.nextId program.instructions
  have htarget : settings.apply (expanded config program).instructions = pieces.target := by
    rw [hcalls.target_simplifiedBlocks hwell, expanded, htier]
    rfl
  rw [htarget] at hhighest hinstructions
  rw [hinstructions] at hc'
  have h : Plan code code' settings context program.labels.nextId program.instructions := by
    refine ⟨hcode'.trans hcode.symm, ?_, hc'.of_declare, hdirect, hwell, hcalls,
      fun i hi => scratch_not_mem hi, Nat.succ_ne_zero _, fun i hi j hj => ?_⟩
    · rwa [source_simplifiedBlocks]
    · have hle : j ≤ highestRegister pieces.target := le_highestRegister hi hj
      rw [hcode]
      omega
  have hwithin : (View.initial m.config m.bus).Within code.config.registers code.config.mask :=
    hcode ▸ .initial m.config m.bus
  obtain ⟨point, hmono, hzero, hhalts, -, hpoints⟩ :=
    hn.simulate (Mirrored code pieces context.scratch)
      (fun v o => v.core.registers.size = code.config.registers ∧ o.isFault = false ∧
        (v.core.halted = false → code.fetch v.core.ip = some (.code (code.decode .ret [])) →
          v.core.calls ≠ []))
      hr hr' hinit hinit'
      ⟨⟨rfl, fun _ _ => rfl, rfl, rfl, fun _ => rfl, rfl, rfl⟩, corresponds_zero, .nil⟩
      (fun v w v' o hR hh hx ha => h.tick hR ha.1 (ha.2.2 hh) hh hx ha.2.1)
      (fun v w hR hh => hR.halted.trans hh)
      (fun os u o hts hfs hlt hu ho => by
        -- At a return, the core was called: otherwise it would be leaving.
        refine ⟨(hwithin.ticks hc hdirect hts hfs).size, hn.faultless _ ho, fun hh hfetch he => ?_⟩
        have := hleave os.length hlt u.core (by rw [hu]; exact List.mem_singleton_self _)
        rw [hu] at this
        exact absurd (hr.leaves_of_fetch hh he hfetch) (by simp [this]))
  refine ⟨point, hmono, hzero, hhalts, fun k hk => ?_⟩
  obtain ⟨u, u', hu, hu', hR⟩ := hpoints k hk
  rw [hu, hu']
  refine ⟨.cons ⟨?_, hR.register, hR.carry trivial, ?_⟩ .nil, hR.ram, hR.bus⟩
  · obtain ⟨xs, ys, hp, hv, hw⟩ := hR.ip
    obtain ⟨before, after, hstream, rfl, -⟩ := simplifiedBlocks_eq_append hp
    refine ⟨before, after, hstream, ?_, ?_⟩
    · rw [hv, source_simplifiedBlocks]
    · rw [hw, extent_target_simplifiedBlocks, beginning, htier]
  · exact hR.sites.imp fun a a' hs => hs.returnSite htier hwell hinstructions

/-- A subprogram that calls another. -/
def nested : Program where
  instructions :=
    [.code .cal [.label (.anonymous 0)],
      .code .hlt [],
      .note (.markLabel (.anonymous 0)),
      .code .cal [.label (.anonymous 1)],
      .code .ret [],
      .note (.markLabel (.anonymous 1)),
      .code .inc [.register 1, .register 1],
      .code .nop [],
      .code .ret []]
  labels := { nextId := 2 }

/-- Words of two bits, for programs of more than four words. -/
def nestedConfig : Config :=
  { registers := 3, romWords := 16, executeFromRom := true, wordBits := 2, maxTier := .core }

/-- A machine for the nested calls and for what becomes of them. -/
def nestedMachine : Machine QueueBus := .blank nestedConfig .empty

/-- A call within a call: the lowered program keeps both return sites in step with the source. -/
theorem halts_lower_calls_nested :
    (nestedMachine.loaded nested.instructions).HaltsWithin 8 ∧
      ∃ point : Nat → Nat, Monotone point ∧ point 0 = 0 ∧
        (nestedMachine.loaded
          (lowering nestedConfig .all nested).program.instructions).HaltsWithin (point 8) ∧
        ∀ k ≤ 8, Mirrors nestedConfig nested (lowering nestedConfig .all nested)
          ((nestedMachine.loaded nested.instructions).after k)
          ((nestedMachine.loaded
            (lowering nestedConfig .all nested).program.instructions).after (point k)) := by
  have hm : nestedMachine.SingleCore := Machine.singleCore_blank (by decide) rfl rfl
  have hlower : lower nestedConfig .all nested = .ok (lowering nestedConfig .all nested) :=
    lower_eq_ok_lowering (by decide +kernel)
  have hcalls : CallsOnly nested.instructions := by
    refine ⟨by simp [nested], fun op operands h => ?_⟩
    simp only [nested, List.mem_cons, Instruction.code.injEq, List.not_mem_nil, or_false,
      reduceCtorEq, false_or] at h
    rcases h with ⟨rfl, -⟩ | ⟨rfl, -⟩ | ⟨rfl, -⟩ | ⟨rfl, -⟩ | ⟨rfl, -⟩ | ⟨rfl, -⟩ | ⟨rfl, -⟩ <;>
      decide
  have hregisters : (lowering nestedConfig .all nested).registersRequired ≤ 3 := by
    decide +kernel
  have hl₁ : nestedMachine.load nested.instructions =
      (nestedMachine.loaded nested.instructions, .ok ()) :=
    Machine.load_eq_loaded (by decide +kernel)
  have hl₂ : nestedMachine.load (lowering nestedConfig .all nested).program.instructions =
      (nestedMachine.loaded (lowering nestedConfig .all nested).program.instructions, .ok ()) :=
    Machine.load_eq_loaded (by decide +kernel)
  have hn : (nestedMachine.loaded nested.instructions).HaltsWithin 8 := by decide +kernel
  have hleave : ∀ k < 8, ∀ core ∈ ((nestedMachine.loaded nested.instructions).after k).cores,
      ((nestedMachine.loaded nested.instructions).after k).leaves core = false := by
    decide +kernel
  exact ⟨hn, halts_lower_calls hlower rfl hm (by decide) (by decide) hcalls hregisters hl₁ hl₂ hn
    hleave⟩

end Lowering
end Wordcode
