import Wordcode.Proofs.Peephole.Rewriting

/-!
# Streams that are simple already

The peephole pass finds nothing to do in its own result. What it keeps is a stack, so the
argument is about this stack: it holds only instructions that the pass would take in as they
are, on top of what lies below them (`Peephole.Steady`). Taking in one more instruction keeps
it so. The case that needs care is a pop that meets a push below comments: the push is taken
out from under the comments, but whether a comment stays does not depend on what lies below.

* `Peephole.push_code`, `Peephole.push_note`: what becomes of one more instruction;
* `Peephole.steady_apply`: the result of the pass is steady;
* `Peephole.apply_of_steady`: the pass leaves a steady stream as it is;
* `Peephole.apply_eq_self_iff`: these are the streams in which there is nothing to simplify, said
  without the pass (`Peephole.Simple`);
* `Peephole.apply_apply`: simplifying twice is simplifying once.
-/

namespace Wordcode

open Instruction

namespace Peephole

variable {settings : Peephole} {kept : List Instruction}

/-! ## One more instruction -/

theorem canonical_of_ne_imm {op : Opcode} (h : op ≠ .imm) (operands : List Operand) :
    settings.canonical (.code op operands) = .code op operands := by
  unfold canonical
  split
  · next he => exact absurd (by cases he; rfl) h
  · rfl

/-- An instruction is in canonical form, or becomes a move of zero. -/
theorem canonical_cases (settings : Peephole) (i : Instruction) :
    settings.canonical i = i ∨
      ∃ destination, settings.canonical i = .code .mov [destination, .zero] := by
  unfold canonical
  split
  · next destination =>
    split
    · exact .inr ⟨destination, rfl⟩
    · exact .inl rfl
  · exact .inl rfl

theorem exists_canonical (settings : Peephole) {op : Opcode} (h : op ≠ .psh)
    (operands : List Operand) :
    ∃ op' operands', settings.canonical (.code op operands) = .code op' operands' ∧
      op' ≠ .psh := by
  unfold canonical
  split
  · split
    · exact ⟨.mov, _, rfl, by decide⟩
    · exact ⟨.imm, _, rfl, by decide⟩
  · exact ⟨op, operands, rfl, h⟩

theorem push_of_ne_pop {op : Opcode} {operands : List Operand}
    (h : ∀ popped, code op operands ≠ .code .pop [popped]) :
    settings.push kept (.code op operands) = settings.canonical (.code op operands) :: kept := by
  unfold push
  split
  · next he => cases he
  · next popped he => exact absurd he (h popped)
  · rfl

theorem push_code {op : Opcode} {operands : List Operand}
    (h : pendingPush? kept = none ∨ op ≠ .pop) :
    settings.push kept (.code op operands) = settings.canonical (.code op operands) :: kept := by
  unfold push
  split
  · next he => cases he
  · next he =>
    cases he
    rw [h.resolve_right (fun hne => hne rfl), canonical_of_ne_imm (by decide)]
    split <;> rfl
  · rfl

theorem pendingPush?_code {op : Opcode} (h : op ≠ .psh) (operands : List Operand) :
    pendingPush? (.code op operands :: kept) = none := by
  unfold pendingPush?
  split
  · next he => cases he
  · next he => exact absurd (by cases he; rfl) h
  · rfl

theorem push_note_eq_cons_iff {n : Note} :
    settings.push kept (.note n) = .note n :: kept ↔ settings.drops n = false := by
  rw [push]
  cases settings.drops n <;> simp

/-- An instruction in canonical form is taken in as it is, if it is no pop. -/
theorem push_canonical {op : Opcode} (h : op ≠ .pop) (operands : List Operand) :
    settings.push kept (settings.canonical (.code op operands)) =
      settings.canonical (.code op operands) :: kept := by
  rcases canonical_cases settings (.code op operands) with hc | ⟨destination, hc⟩
  · rw [hc, push_code (.inr h), hc]
  · rw [hc, push_code (.inr (by decide)), canonical_of_ne_imm (by decide)]

/-! ## Steady streams -/

/-- A stream, its last instruction first, each of whose instructions the pass takes in as it is
    after those before it. -/
def Steady (settings : Peephole) : List Instruction → Prop
  | [] => True
  | i :: kept => settings.push kept i = i :: kept ∧ settings.Steady kept

/-- A push under comments can be taken away: comments stay whatever lies below them. -/
theorem Steady.of_comments {comments before : List Instruction} {i : Instruction}
    (hc : Comments comments) (h : settings.Steady (comments ++ i :: before)) :
    settings.Steady (comments ++ before) := by
  induction comments with
  | nil => exact h.2
  | cons c comments ih =>
    obtain ⟨⟨text, rfl⟩, hrest⟩ := List.forall_mem_cons.1 hc
    exact ⟨push_note_eq_cons_iff.2 (push_note_eq_cons_iff.1 h.1), ih hrest h.2⟩

theorem exists_transfer (popped pushed : Operand) :
    ∃ op operands, transfer popped pushed = .code op operands ∧ op ≠ .pop := by
  cases pushed with
  | register => exact ⟨.mov, _, rfl, by decide⟩
  | immediate | label => exact ⟨.imm, _, rfl, by decide⟩

/-- A pop is kept, or takes a push with it and may leave a move. -/
theorem push_pop_cases (settings : Peephole) (kept : List Instruction) (operands : List Operand) :
    settings.push kept (.code .pop operands) = .code .pop operands :: kept ∨
      ∃ popped pushed comments before, operands = [popped] ∧ settings.stackTraffic = true ∧
        kept = comments ++ .code .psh [pushed] :: before ∧ Comments comments ∧
        (settings.push kept (.code .pop operands) = comments ++ before ∨
          settings.push kept (.code .pop operands) =
            settings.canonical (transfer popped pushed) :: (comments ++ before)) := by
  rw [Peephole.push.eq_def]
  split
  · next he => cases he
  · next popped he =>
    cases he
    split
    · next hs =>
      split
      · next comments pushed before hp =>
        obtain ⟨rfl, hc⟩ := pendingPush?_eq_some hp
        refine .inr ⟨popped, pushed, comments, before, rfl, hs, rfl, hc, ?_⟩
        split
        · exact .inl rfl
        · exact .inr rfl
      · exact .inl rfl
    · exact .inl rfl
  · exact .inl (by rw [canonical_of_ne_imm (by decide)])

/-- What is kept stays steady when one more instruction is taken in. -/
theorem Steady.push (h : settings.Steady kept) (i : Instruction) :
    settings.Steady (settings.push kept i) := by
  cases i with
  | note n =>
    cases hd : settings.drops n with
    | true => rwa [Peephole.push, if_pos hd]
    | false =>
      have hpush : settings.push kept (.note n) = .note n :: kept := push_note_eq_cons_iff.2 hd
      rw [hpush]
      exact ⟨hpush, h⟩
  | code op operands =>
    by_cases hop : op = .pop
    · subst hop
      rcases push_pop_cases settings kept operands with
        hp | ⟨popped, pushed, comments, before, -, -, rfl, hc, hp | hp⟩
      · rw [hp]
        exact ⟨hp, h⟩
      · rw [hp]
        exact h.of_comments hc
      · obtain ⟨op, operands, ht, hop⟩ := exists_transfer popped pushed
        rw [hp, ht]
        exact ⟨push_canonical hop operands, h.of_comments hc⟩
    · rw [push_code (.inr hop)]
      exact ⟨push_canonical hop operands, h⟩

/-- The result of the pass is steady. -/
theorem steady_apply (settings : Peephole) (stream : List Instruction) :
    settings.Steady (settings.apply stream).reverse := by
  suffices h : ∀ kept, settings.Steady kept → settings.Steady (stream.foldl settings.push kept) by
    rw [apply, List.reverse_reverse]
    exact h [] trivial
  induction stream with
  | nil => exact fun _ h => h
  | cons i rest ih => exact fun kept h => ih (settings.push kept i) (h.push i)

/-- The pass leaves a steady stream as it is. -/
theorem apply_of_steady {stream : List Instruction} (h : settings.Steady stream.reverse) :
    settings.apply stream = stream := by
  suffices hkept : ∀ kept, settings.Steady kept → kept.reverse.foldl settings.push [] = kept by
    have hstream := hkept stream.reverse h
    rw [List.reverse_reverse] at hstream
    rw [apply, hstream, List.reverse_reverse]
  intro kept
  induction kept with
  | nil => exact fun _ => rfl
  | cons i kept ih =>
    intro h
    rw [List.reverse_cons, List.foldl_append, ih h.2]
    exact h.1

/-! ## Streams in which there is nothing to simplify -/

/-- A push and a pop, with nothing but comments between them. -/
def pair (pushed : Operand) (comments : List Instruction) (popped : Operand) : List Instruction :=
  .code .psh [pushed] :: (comments ++ [.code .pop [popped]])

/-- Instructions that follow each other and that the pass does not leave as they are. -/
inductive Redex (settings : Peephole) : List Instruction → Prop
  | note {n : Note} : settings.drops n = true → Redex settings [.note n]
  | zero (destination : Operand) : settings.zeroImmediates = true →
      Redex settings [.code .imm [destination, .immediate 0]]
  | pair {comments : List Instruction} (pushed popped : Operand) :
      settings.stackTraffic = true → Comments comments →
      Redex settings (Peephole.pair pushed comments popped)

/-- A stream in which there is nothing to simplify. -/
def Simple (settings : Peephole) (stream : List Instruction) : Prop :=
  ∀ old, settings.Redex old → ¬ old <:+: stream

theorem Redex.ne_nil {old : List Instruction} (h : settings.Redex old) : old ≠ [] := by
  rintro rfl
  cases h

theorem pendingPush?_comments {comments : List Instruction} (hc : Comments comments)
    (pushed : Operand) (before : List Instruction) :
    pendingPush? (comments ++ .code .psh [pushed] :: before) =
      some (comments, pushed, before) := by
  induction comments with
  | nil => rfl
  | cons c comments ih =>
    obtain ⟨⟨text, rfl⟩, hrest⟩ := List.forall_mem_cons.1 hc
    rw [List.cons_append, pendingPush?, ih hrest]
    rfl

/-- An instruction is taken in as it is exactly if nothing to simplify ends with it. -/
theorem push_eq_cons_iff {i : Instruction} :
    settings.push kept i = i :: kept ↔
      ∀ old, settings.Redex old → ¬ old.reverse <+: i :: kept := by
  constructor
  · intro hpush old hold
    cases hold with
    | note hd =>
      rw [List.reverse_singleton, List.cons_prefix_cons]
      rintro ⟨rfl, -⟩
      exact absurd (hd.symm.trans (push_note_eq_cons_iff.1 hpush)) (by decide)
    | zero destination hz =>
      rw [List.reverse_singleton, List.cons_prefix_cons]
      rintro ⟨rfl, -⟩
      simp [Peephole.push, canonical, hz] at hpush
    | @pair comments pushed popped hs hc =>
      have hpair : (Peephole.pair pushed comments popped).reverse =
          .code .pop [popped] :: (comments.reverse ++ [.code .psh [pushed]]) := by
        simp [Peephole.pair]
      rw [hpair, List.cons_prefix_cons]
      rintro ⟨rfl, before, rfl⟩
      have hc' : Comments comments.reverse := fun j hj => hc j (List.mem_reverse.1 hj)
      rw [List.append_assoc, List.singleton_append, Peephole.push, if_pos hs,
        pendingPush?_comments hc'] at hpush
      -- the pair leaves at most one instruction more than there was before it
      have hlength := congrArg List.length hpush
      dsimp only at hlength
      split at hlength <;> simp only [List.length_cons, List.length_append] at hlength <;> omega
  · intro h
    rcases i with ⟨op, operands⟩ | n
    · by_cases hop : op = .pop
      · subst hop
        rcases push_pop_cases settings kept operands with
          hp | ⟨popped, pushed, comments, before, rfl, hs, rfl, hc, -⟩
        · exact hp
        · have hc' : Comments comments.reverse := fun j hj => hc j (List.mem_reverse.1 hj)
          exact absurd ⟨before, by simp [Peephole.pair]⟩ (h _ (.pair pushed popped hs hc'))
      · rw [push_code (.inr hop)]
        congr 1
        unfold canonical
        split
        · next destination he =>
          split
          · next hz =>
            rw [he] at h
            exact absurd ⟨kept, rfl⟩ (h _ (.zero destination hz))
          · exact he.symm
        · rfl
    · rw [push_note_eq_cons_iff, Bool.eq_false_iff]
      exact fun hd => h _ (.note hd) ⟨kept, rfl⟩

theorem steady_iff :
    settings.Steady kept ↔ ∀ old, settings.Redex old → ¬ old.reverse <:+: kept := by
  induction kept with
  | nil =>
    refine ⟨fun _ old hold hin => hold.ne_nil ?_, fun _ => trivial⟩
    exact List.reverse_eq_nil_iff.1 (List.infix_nil.1 hin)
  | cons i kept ih =>
    rw [Steady, push_eq_cons_iff, ih]
    simp only [List.infix_cons_iff, not_or]
    exact ⟨fun ⟨hlast, hrest⟩ old hold => ⟨hlast old hold, hrest old hold⟩,
      fun h => ⟨fun old hold => (h old hold).1, fun old hold => (h old hold).2⟩⟩

theorem steady_reverse_iff {stream : List Instruction} :
    settings.Steady stream.reverse ↔ settings.Simple stream := by
  simp only [steady_iff, Simple, List.reverse_infix]

/-- The pass leaves exactly those streams as they are in which there is nothing to simplify. -/
theorem apply_eq_self_iff {stream : List Instruction} :
    settings.apply stream = stream ↔ settings.Simple stream := by
  rw [← steady_reverse_iff]
  refine ⟨fun h => ?_, apply_of_steady⟩
  rw [← h]
  exact steady_apply settings stream

/-- After the pass there is nothing left to simplify, and so doing it again changes nothing. -/
theorem apply_apply (settings : Peephole) (stream : List Instruction) :
    settings.Simple (settings.apply stream) ∧
      settings.apply (settings.apply stream) = settings.apply stream := by
  have hsimple : settings.Simple (settings.apply stream) :=
    steady_reverse_iff.1 (steady_apply settings stream)
  exact ⟨hsimple, apply_eq_self_iff.2 hsimple⟩

end Peephole
end Wordcode
