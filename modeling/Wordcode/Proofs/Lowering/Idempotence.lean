import Wordcode.Proofs.Lowering.Fitting
import Wordcode.Proofs.Peephole.FixedPoints

/-!
# Lowering again

A lowered program has nothing left to lower. Each of its instructions fits the target, so none
is expanded; the peephole pass has been over it, and leaves it as it is. The registers that it
states are those it names, borrowed ones and the scratch register among them, so they are
stated again as they were. What changes is only the scratch register, which would now be the
one after these, and is not used.

* `Peephole.Steady.map_declare`: what is stated about registers is nothing to simplify;
* `Lowering.max_highestRegister_declared`: a lowered program states what it names;
* `Lowering.lower_lower`: a lowered program is lowered to itself.
-/

namespace Wordcode

open Instruction

/-! ## Stated registers and the peephole pass -/

namespace Peephole

open Lowering (declare)

variable {settings : Peephole} {kept : List Instruction} {index : Nat}

/-- A push that waits for its pop is found as before once the needs are restated. -/
theorem pendingPush?_map_declare (kept : List Instruction) :
    pendingPush? (kept.map (declare index)) =
      (pendingPush? kept).map fun (comments, pushed, before) =>
        (comments.map (declare index), pushed, before.map (declare index)) := by
  induction kept with
  | nil => rfl
  | cons i kept ih =>
    rcases i with ⟨op, operands⟩ | n
    · by_cases hop : op = .psh
      · subst hop
        rcases operands with _ | ⟨x, _ | ⟨y, rest⟩⟩ <;> rfl
      · rw [pendingPush?_code hop]
        exact pendingPush?_code hop operands
    · cases n with
      | comment text =>
        have hcons (kept : List Instruction) : pendingPush? (.note (.comment text) :: kept) =
            (pendingPush? kept).map fun (comments, pushed, before) =>
              (.note (.comment text) :: comments, pushed, before) := rfl
        change pendingPush? (.note (.comment text) :: kept.map (declare index)) = _
        rw [hcons, hcons, ih, Option.map_map, Option.map_map]
        rfl
      | _ => rfl

theorem declare_code (op : Opcode) (operands : List Operand) :
    declare index (.code op operands) = .code op operands := rfl

theorem declare_canonical (op : Opcode) (operands : List Operand) :
    declare index (settings.canonical (.code op operands)) =
      settings.canonical (.code op operands) := by
  rcases canonical_cases settings (.code op operands) with hc | ⟨destination, hc⟩ <;>
    rw [hc] <;> rfl

/-- The pass does the same whatever index is stated. -/
theorem push_map_declare (kept : List Instruction) (i : Instruction) :
    settings.push (kept.map (declare index)) (declare index i) =
      (settings.push kept i).map (declare index) := by
  rcases i with ⟨op, operands⟩ | n
  · by_cases hop : op = .pop ∧ ∃ popped, operands = [popped]
    · obtain ⟨rfl, popped, rfl⟩ := hop
      rw [declare_code, push, push, pendingPush?_map_declare]
      cases pendingPush? kept with
      | none => split <;> rfl
      | some found =>
        obtain ⟨comments, pushed, before⟩ := found
        obtain ⟨op, operands, ht, -⟩ := exists_transfer popped pushed
        simp only [Option.map_some, ht]
        split
        · split
          · rw [List.map_append]
          · rw [List.map_cons, declare_canonical, List.map_append]
        · rfl
    · have hpop (popped : Operand) : code op operands ≠ .code .pop [popped] := by
        rintro ⟨⟩
        exact hop ⟨rfl, popped, rfl⟩
      rw [declare_code, push_of_ne_pop hpop, push_of_ne_pop hpop, List.map_cons, declare_canonical]
  · have hdrops : ∃ n', declare index (.note n) = .note n' ∧
        settings.drops n' = settings.drops n := by
      cases n <;> exact ⟨_, rfl, rfl⟩
    obtain ⟨n', hn, hd⟩ := hdrops
    rw [hn, push, push, hd]
    split
    · rfl
    · rw [List.map_cons, hn]

theorem Steady.map_declare (h : settings.Steady kept) (index : Nat) :
    settings.Steady (kept.map (declare index)) := by
  induction kept with
  | nil => trivial
  | cons i kept ih => exact ⟨by rw [push_map_declare, h.1, List.map_cons], ih h.2⟩

end Peephole

namespace Lowering

variable {config : Config} {settings : Peephole} {program : Program} {lowered : Lowered}
  {stream : List Instruction}

/-! ## Stated registers -/

theorem foldl_max_le {xs : List Nat} {start bound : Nat} (hs : start ≤ bound)
    (h : ∀ x ∈ xs, x ≤ bound) : xs.foldl max start ≤ bound := by
  induction xs generalizing start with
  | nil => exact hs
  | cons x xs ih =>
    rw [List.forall_mem_cons] at h
    exact ih (Nat.max_le.2 ⟨hs, h.1⟩) h.2

theorem mem_filterMap_declared? {index : Nat} :
    index ∈ stream.filterMap declared? ↔ .note (.maxReg index) ∈ stream := by
  rw [List.mem_filterMap]
  constructor
  · rintro ⟨i, hi, he⟩
    unfold declared? at he
    split at he
    · cases he
      exact hi
    · cases he
  · exact fun h => ⟨_, h, rfl⟩

theorem highestRegister_map_declare (index : Nat) :
    highestRegister (stream.map (declare index)) = highestRegister stream := by
  have h (i : Instruction) : (declare index i).highestRegister? = i.highestRegister? := by
    unfold declare
    split <;> rfl
  simp only [highestRegister, List.filterMap_map, Function.comp_def, h]

theorem map_declare_map_declare (index : Nat) :
    (stream.map (declare index)).map (declare index) = stream.map (declare index) := by
  rw [List.map_map]
  refine List.map_congr_left fun i _ => ?_
  rcases i with ⟨op, operands⟩ | n
  · rfl
  · cases n <;> rfl

/-- What a program states about registers is stated in what it is lowered to. -/
theorem maxReg_mem_apply_expanded {index : Nat}
    (h : .note (.maxReg index) ∈ program.instructions) :
    .note (.maxReg index) ∈ settings.apply (expanded config program).instructions := by
  have hexpanded := (introduces_stream config.maxTier ⟨scratch program, config.wordBits⟩
    program).notes _ h
  exact settings.keeps_apply (fun hr hi => hr.maxReg_mem hi) hexpanded

theorem declared_eq_zero_or (stream : List Instruction) :
    declared stream = 0 ∨ ∃ index, .note (.maxReg index) ∈ stream := by
  rcases hs : stream.filterMap declared? with _ | ⟨index, rest⟩
  · rw [declared, hs]
    exact .inl rfl
  · exact .inr ⟨index, mem_filterMap_declared?.1 (hs ▸ List.mem_cons_self)⟩

/-- A stream that states a register index wherever it stated one needs no other, if the index is
    the highest that it names or that was stated. -/
theorem max_highestRegister_declared {highest stated : Nat}
    (hh : highest = max (highestRegister stream) stated)
    (hs : stated = 0 ∨ ∃ index, .note (.maxReg index) ∈ stream) :
    max (highestRegister (stream.map (declare highest)))
      (declared (stream.map (declare highest))) = highest := by
  rw [highestRegister_map_declare]
  have hle : declared (stream.map (declare highest)) ≤ highest := by
    refine foldl_max_le (Nat.zero_le highest) fun index hi => ?_
    exact Nat.le_of_eq (eq_of_maxReg_mem_declare (mem_filterMap_declared?.1 hi))
  rcases hs with rfl | ⟨index, hi⟩
  · omega
  · have hmem : .note (.maxReg highest) ∈ stream.map (declare highest) :=
      List.mem_map.2 ⟨_, hi, rfl⟩
    have hge : highest ≤ declared (stream.map (declare highest)) :=
      le_foldl_max (mem_filterMap_declared?.2 hmem) 0
    omega

/-! ## Lowering a lowered program -/

/-- A program that fits its target stays as it is. -/
theorem expanded_of_fits (h : ∀ i ∈ program.instructions, fits config.maxTier i = true) :
    expanded config program = program := by
  rw [expanded, Lowering.stream, sequence_eq_flatMap fun i hi => instruction_of_fits (h i hi) _,
    List.flatMap_singleton']

/-- A lowered program is lowered to itself. -/
theorem lower_lower (h : lower config settings program = .ok lowered) :
    lower config settings lowered.program = .ok lowered := by
  have hfits := fits_of_mem_lowered h
  obtain ⟨highest, hh, -, hlimit, -, rfl⟩ := lower_eq_ok_iff.1 h
  have hexpanded := expanded_of_fits hfits
  have hsteady := (Peephole.steady_apply settings
    (expanded config program).instructions).map_declare highest
  rw [List.map_reverse] at hsteady
  have happly := Peephole.apply_of_steady hsteady
  have hmax := max_highestRegister_declared hh
    ((declared_eq_zero_or program.instructions).imp_right fun ⟨index, hi⟩ =>
      ⟨index, maxReg_mem_apply_expanded hi⟩)
  refine lower_eq_ok_iff.2
    ⟨highest, ?_, ?_, hlimit, fun i hi => check_of_fits (hfits i hi), ?_⟩
  · rw [hexpanded, happly, hmax]
  · rw [scratch, Program.highestRegister, hmax]
    exact hlimit
  · rw [hexpanded, happly, map_declare_map_declare]

/-- A program that states a register, and has something to expand and something to simplify. -/
def moving : Program where
  instructions :=
    [.note (.maxReg 2),
      .code .imm [.register 1, .immediate 0],
      .code .psh [.register 1],
      .note (.comment "to the other register"),
      .code .pop [.register 2],
      .code .div [.register 2, .register 2, .immediate 3],
      .code .ret []]

theorem lower_lower_moving :
    lower { maxTier := .core } .standard moving =
        .ok (lowering { maxTier := .core } .standard moving) ∧
      (lowering { maxTier := .core } .standard moving).registersRequired = 7 ∧
      lower { maxTier := .core } .standard
          (lowering { maxTier := .core } .standard moving).program =
        .ok (lowering { maxTier := .core } .standard moving) := by
  have h : lower { maxTier := .core } .standard moving =
      .ok (lowering { maxTier := .core } .standard moving) :=
    lower_eq_ok_lowering (by decide +kernel)
  exact ⟨h, by decide +kernel, lower_lower h⟩

end Lowering
end Wordcode
