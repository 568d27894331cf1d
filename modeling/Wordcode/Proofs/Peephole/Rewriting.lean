import Mathlib.Logic.Relation
import Wordcode.Peephole
import Wordcode.Proofs.Relocation

/-!
# Peephole simplification as rewriting

The pass uses what it has kept as a stack, so that one `POP` may reach a `PSH` from which
earlier simplifications have removed everything else. What it does to the stream is
nevertheless a sequence of small rewrites: each takes a few instructions that follow each
other, at any place of the stream, and puts others there.

* `Peephole.Simplifies`: which instructions give way to which;
* `Peephole.Rewrites`: a simplification at one place of a stream;
* `Peephole.rewrites_apply`: the pass is a sequence of rewrites, so it keeps what they keep
  (`Peephole.keeps_apply`);
* `Peephole.Rewrites.loadable`: a rewritten stream can be loaded if the stream could.
-/

namespace Wordcode

open Instruction Relation

/-- Comments and nothing else. -/
def Comments (stream : List Instruction) : Prop :=
  ∀ i ∈ stream, ∃ text, i = .note (.comment text)

namespace Comments

variable {comments : List Instruction}

theorem extent_eq_zero (h : Comments comments) : extent comments = 0 := by
  induction comments with
  | nil => rfl
  | cons i rest ih =>
    obtain ⟨text, rfl⟩ := h i List.mem_cons_self
    rw [extent_cons, footprint_note, ih fun j hj => h j (List.mem_cons_of_mem _ hj)]

theorem marks_eq_nil (h : Comments comments) : marks comments = [] := by
  rw [List.eq_nil_iff_forall_not_mem]
  intro id hid
  obtain ⟨label, hl, -⟩ := mem_marks_iff.1 hid
  obtain ⟨text, ht⟩ := h _ hl
  cases ht

end Comments

namespace Peephole

/-- Instructions that give way to others. -/
inductive Simplifies : List Instruction → List Instruction → Prop
  | drop {n : Note} : all.drops n = true → Simplifies [.note n] []
  | zero (destination : Operand) :
      Simplifies [.code .imm [destination, .immediate 0]] [.code .mov [destination, .zero]]
  | move {comments : List Instruction} (pushed popped : Operand) : Comments comments →
      Simplifies (.code .psh [pushed] :: (comments ++ [.code .pop [popped]]))
        (comments ++ [transfer popped pushed])
  | cancel {comments : List Instruction} (operand : Operand) : Comments comments →
      Simplifies (.code .psh [operand] :: (comments ++ [.code .pop [operand]])) comments

/-- A stream that is simplified at one place. -/
inductive Rewrites : List Instruction → List Instruction → Prop
  | intro {old new : List Instruction} (before after : List Instruction) : Simplifies old new →
      Rewrites (before ++ (old ++ after)) (before ++ (new ++ after))

variable {settings : Peephole}

/-! ## The pass as a sequence of rewrites -/

theorem all_drops_of_drops {n : Note} (h : settings.drops n = true) : all.drops n = true := by
  cases n with
  | markLabel | maxReg | minRam => cases h
  | _ => rfl

theorem pendingPush?_eq_some {kept comments before : List Instruction} {pushed : Operand}
    (h : pendingPush? kept = some (comments, pushed, before)) :
    kept = comments ++ .code .psh [pushed] :: before ∧ Comments comments := by
  fun_induction pendingPush? kept generalizing comments with
  | case1 text kept ih =>
    obtain ⟨⟨comments', pushed', before'⟩, hp, he⟩ := Option.map_eq_some_iff.1 h
    cases he
    obtain ⟨rfl, hc⟩ := ih hp
    exact ⟨rfl, List.forall_mem_cons.2 ⟨⟨text, rfl⟩, hc⟩⟩
  | case2 pushed' kept =>
    cases h
    exact ⟨rfl, fun _ hi => absurd hi List.not_mem_nil⟩
  | case3 => cases h

theorem rewrites_canonical (settings : Peephole) (before after : List Instruction)
    (i : Instruction) :
    ReflTransGen Rewrites (before ++ i :: after) (before ++ settings.canonical i :: after) := by
  unfold canonical
  split
  · next destination =>
    split
    · exact .single (.intro before after (.zero destination))
    · exact .refl
  · exact .refl

/-- Taking in one more instruction rewrites the stream of which it is the next. -/
theorem rewrites_push (kept rest : List Instruction) (i : Instruction) :
    ReflTransGen Rewrites (kept.reverse ++ i :: rest) ((settings.push kept i).reverse ++ rest) := by
  unfold push
  split
  · next n =>
    split
    · next hd => exact .single (.intro kept.reverse rest (.drop (all_drops_of_drops hd)))
    · rw [List.reverse_cons, List.append_assoc]
      exact .refl
  · next popped =>
    have hkeep : ReflTransGen Rewrites (kept.reverse ++ .code .pop [popped] :: rest)
        ((Instruction.code .pop [popped] :: kept).reverse ++ rest) := by
      rw [List.reverse_cons, List.append_assoc]
      exact .refl
    split
    · split
      · next comments pushed before hp =>
        obtain ⟨rfl, hc⟩ := pendingPush?_eq_some hp
        have hc' : Comments comments.reverse := fun j hj => hc j (List.mem_reverse.1 hj)
        split
        · next he =>
          subst he
          have := Rewrites.intro before.reverse rest (.cancel pushed hc')
          exact .single (by simpa using this)
        -- A pair becomes a move, and this is put in canonical form like any instruction.
        · have hm := Rewrites.intro before.reverse rest (.move pushed popped hc')
          have hz := rewrites_canonical settings
            (before.reverse ++ comments.reverse) rest (transfer popped pushed)
          exact .head (by simpa using hm) (by simpa using hz)
      · exact hkeep
    · exact hkeep
  · rw [List.reverse_cons, List.append_assoc]
    exact rewrites_canonical settings kept.reverse rest _

/-- Simplifying a stream is a sequence of rewrites. -/
theorem rewrites_apply (settings : Peephole) (stream : List Instruction) :
    ReflTransGen Rewrites stream (settings.apply stream) := by
  suffices h : ∀ kept, ReflTransGen Rewrites (kept.reverse ++ stream)
      (stream.foldl settings.push kept).reverse from h []
  induction stream with
  | nil => exact fun kept => by simpa using .refl
  | cons i rest ih =>
    intro kept
    exact (rewrites_push kept rest i).trans (ih (settings.push kept i))

/-- What every rewrite keeps is kept by the pass. -/
theorem keeps_apply (settings : Peephole) {P : List Instruction → Prop}
    (step : ∀ {xs ys}, Rewrites xs ys → P xs → P ys) {stream : List Instruction} (h : P stream) :
    P (settings.apply stream) := by
  have hrewrites := rewrites_apply settings stream
  generalize settings.apply stream = stream' at hrewrites
  induction hrewrites with
  | refl => exact h
  | tail _ hr ih => exact step hr ih

/-! ## What a rewrite keeps -/

variable {old new stream stream' : List Instruction}

theorem footprint_transfer (destination value : Operand) :
    (transfer destination value).footprint = 1 := by
  cases value <;> rfl

theorem wellFormed_transfer {destination value : Operand}
    (h : (code .pop [destination]).WellFormed) : (transfer destination value).WellFormed := by
  cases destination with
  | register t => cases value <;> rfl
  | immediate | label => cases h

theorem operands_transfer (destination value : Operand) :
    (transfer destination value).operands = [destination, value] := by
  cases value <;> rfl

namespace Simplifies

theorem marks_eq_nil (h : Simplifies old new) : marks old = [] ∧ marks new = [] := by
  cases h with
  | @drop n hd =>
    cases n with
    | markLabel => cases hd
    | _ => exact ⟨rfl, rfl⟩
  | zero => exact ⟨rfl, rfl⟩
  | move pushed popped hc => cases pushed <;> simp [transfer, hc.marks_eq_nil]
  | cancel operand hc => simp [hc.marks_eq_nil]

theorem extent_le (h : Simplifies old new) : extent new ≤ extent old := by
  cases h with
  | drop => simp
  | zero => exact Nat.le_refl _
  | move pushed popped hc => simp [footprint_transfer, hc.extent_eq_zero, Opcode.footprint]
  | cancel operand hc => simp [hc.extent_eq_zero]

/-- Instructions that are not there before are moves between registers. -/
theorem mem_new (h : Simplifies old new) {i : Instruction} (hi : i ∈ new) :
    i ∈ old ∨ ∃ op operands, i = .code op operands ∧ (op = .mov ∨ op = .imm) ∧
      ((∀ j ∈ old, j.Direct) → ∀ l, .label l ∉ operands) := by
  cases h with
  | drop => cases hi
  | zero destination =>
    cases List.mem_singleton.1 hi
    refine .inr ⟨.mov, _, rfl, .inl rfl, fun hd l hl => ?_⟩
    have := hd _ List.mem_cons_self
    simp_all [Direct, Opcode.isBranch, Operand.zero]
  | @move comments pushed popped hc =>
    rcases List.mem_append.1 hi with hi | hi
    · exact .inl (by simp [hi])
    · cases List.mem_singleton.1 hi
      refine .inr ?_
      have hfree (hd : ∀ j ∈ .code .psh [pushed] :: (comments ++ [.code .pop [popped]]), j.Direct)
          (l : Label) : .label l ∉ [popped, pushed] := by
        have h₁ := hd (.code .psh [pushed]) (by simp)
        have h₂ := hd (.code .pop [popped]) (by simp)
        simp_all [Direct, Opcode.isBranch]
      cases pushed with
      | register j => exact ⟨.mov, _, rfl, .inl rfl, hfree⟩
      | immediate n => exact ⟨.imm, _, rfl, .inr rfl, hfree⟩
      | label l => exact ⟨.imm, _, rfl, .inr rfl, hfree⟩
  | cancel operand hc => exact .inl (by simp [hi])

/-- What gives way to well-formed instructions is well-formed. -/
theorem wellFormed (h : Simplifies old new) (hw : ∀ i ∈ old, i.WellFormed) :
    ∀ i ∈ new, i.WellFormed := by
  cases h with
  | drop => exact fun _ hi => absurd hi List.not_mem_nil
  | zero destination =>
    have hd := hw _ List.mem_cons_self
    rw [List.forall_mem_singleton]
    cases destination with
    | register t => rfl
    | immediate | label => cases hd
  | @move comments pushed popped hc =>
    simp only [List.forall_mem_cons, List.forall_mem_append] at hw
    rw [List.forall_mem_append, List.forall_mem_singleton]
    exact ⟨hw.2.1, wellFormed_transfer hw.2.2.1⟩
  | @cancel comments operand hc =>
    simp only [List.forall_mem_cons, List.forall_mem_append] at hw
    exact hw.2.1

/-- What a simplification names was there before. -/
theorem exists_operand (h : Simplifies old new) {i : Instruction} (hi : i ∈ new)
    {x : Operand} (hx : x ∈ i.operands) : x = .zero ∨ ∃ j ∈ old, x ∈ j.operands := by
  cases h with
  | drop => exact absurd hi List.not_mem_nil
  | zero destination =>
    cases List.mem_singleton.1 hi
    rcases List.mem_cons.1 hx with rfl | hx
    · exact .inr ⟨_, List.mem_cons_self, List.mem_cons_self⟩
    · exact .inl (List.mem_singleton.1 hx)
  | @move comments pushed popped hc =>
    rcases List.mem_append.1 hi with hi | hi
    · exact .inr ⟨i, by simp [hi], hx⟩
    · cases List.mem_singleton.1 hi
      rw [operands_transfer] at hx
      rcases List.mem_cons.1 hx with rfl | hx
      · exact .inr ⟨.code .pop [x], by simp, List.mem_cons_self⟩
      · exact .inr ⟨.code .psh [pushed], by simp, hx⟩
  | @cancel comments operand hc => exact .inr ⟨i, by simp [hi], hx⟩

/-- What gives way is a note that may be dropped, a constant, a push or a pop. -/
theorem mem_old (h : Simplifies old new) {i : Instruction} (hi : i ∈ old) :
    (∃ n, i = .note n ∧ all.drops n = true) ∨
      ∃ op operands, i = .code op operands ∧ (op = .imm ∨ op = .psh ∨ op = .pop) := by
  have hpair {comments : List Instruction} {pushed popped : Operand} (hc : Comments comments)
      (hi : i ∈ .code .psh [pushed] :: (comments ++ [.code .pop [popped]])) :
      (∃ n, i = .note n ∧ all.drops n = true) ∨
        ∃ op operands, i = .code op operands ∧ (op = .imm ∨ op = .psh ∨ op = .pop) := by
    simp only [List.mem_cons, List.mem_append, List.not_mem_nil, or_false] at hi
    rcases hi with rfl | hi | rfl
    · exact .inr ⟨.psh, _, rfl, .inr (.inl rfl)⟩
    · obtain ⟨text, rfl⟩ := hc i hi
      exact .inl ⟨_, rfl, rfl⟩
    · exact .inr ⟨.pop, _, rfl, .inr (.inr rfl)⟩
  cases h with
  | drop hd => exact .inl ⟨_, List.mem_singleton.1 hi, hd⟩
  | zero destination => exact .inr ⟨.imm, _, List.mem_singleton.1 hi, .inl rfl⟩
  | move pushed popped hc => exact hpair hc hi
  | cancel operand hc => exact hpair hc hi

/-- What is stated about registers is never left out. -/
theorem maxReg_not_mem (h : Simplifies old new) (index : Nat) :
    .note (.maxReg index) ∉ old := by
  intro hi
  rcases h.mem_old hi with ⟨n, he, hd⟩ | ⟨_, _, he, -⟩
  · cases he
    cases hd
  · cases he

end Simplifies

namespace Rewrites

/-- Only constants, pushes and pops are simplified away. -/
theorem code_mem (h : Rewrites stream stream') {op : Opcode} {operands : List Operand}
    (hop : op ≠ .imm ∧ op ≠ .psh ∧ op ≠ .pop) (hi : .code op operands ∈ stream) :
    .code op operands ∈ stream' := by
  obtain @⟨old, new, before, after, hs⟩ := h
  simp only [List.mem_append] at hi ⊢
  rcases hi with hi | hi | hi
  · exact .inl hi
  · rcases hs.mem_old hi with ⟨n, he, -⟩ | ⟨op', operands', he, h⟩
    · cases he
    · cases he
      rcases h with rfl | rfl | rfl
      · exact absurd rfl hop.1
      · exact absurd rfl hop.2.1
      · exact absurd rfl hop.2.2
  · exact .inr (.inr hi)

theorem direct (h : Rewrites stream stream') (hd : ∀ i ∈ stream, i.Direct) :
    ∀ i ∈ stream', i.Direct := by
  obtain ⟨before, after, hs⟩ := h
  intro i hi
  simp only [List.mem_append] at hi
  rcases hi with hi | hi | hi
  · exact hd i (by simp [hi])
  · rcases hs.mem_new hi with hi | ⟨op, operands, rfl, hop, hl⟩
    · exact hd i (by simp [hi])
    · have hl := hl fun j hj => hd j (by simp [hj])
      rcases hop with rfl | rfl <;> simpa [Direct, Opcode.isBranch] using hl
  · exact hd i (by simp [hi])

/-- A rewritten stream can be loaded if the stream could. -/
theorem loadable {config : Config} (h : Rewrites stream stream') (hl : Loadable config stream) :
    Loadable config stream' := by
  obtain @⟨old, new, before, after, hs⟩ := h
  have hmarks : marks (before ++ (new ++ after)) = marks (before ++ (old ++ after)) := by
    simp only [marks_append, hs.marks_eq_nil]
  -- all notes, and all data, were there before
  have hold (i : Instruction) (hi : i ∈ before ++ (new ++ after))
      (hne : ∀ operands, i ≠ .code .mov operands ∧ i ≠ .code .imm operands) :
      i ∈ before ++ (old ++ after) := by
    simp only [List.mem_append] at hi ⊢
    refine hi.imp_right fun hi => hi.imp_left fun hi => ?_
    rcases hs.mem_new hi with hi | ⟨op, operands, rfl, rfl | rfl, -⟩
    · exact hi
    · exact absurd rfl (hne operands).1
    · exact absurd rfl (hne operands).2
  refine ⟨hmarks ▸ hl.nodup, fun index hi => hl.registers index (hold _ hi (by simp)),
    fun words hi => hl.ram words (hold _ hi (by simp)), ?_, fun op label hd hi => ?_⟩
  · have := hs.extent_le
    have := hl.fits
    simp only [extent_append] at *
    omega
  · rw [hmarks]
    refine hl.data op label hd (hold _ hi fun operands => ⟨?_, ?_⟩) <;>
      · rintro ⟨⟩
        cases hd

end Rewrites

end Peephole
end Wordcode
