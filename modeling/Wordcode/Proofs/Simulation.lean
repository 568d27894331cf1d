import Mathlib.Order.Monotone.Basic
import Wordcode.Proofs.Relocation

/-!
# Simulations between two programs

When one stream is obtained from another piece by piece, the second program simulates the
first: where the first is at the beginning of a piece, so is the second, and by executing
a piece each gets to the beginning of the same piece again.

* `Code.Ticks.simulate`: from single ticks to whole sequences of ticks, with the points of
  the second that correspond to the points of the first;
* `Pieces.Corresponds`: the addresses at which the same piece begins;
* `Pieces.relocates`: where labels are marked in pieces of their own, their addresses
  correspond;
* `Pieces.cases_of_corresponds`: a program is at its end or at a piece that it executes.
-/

namespace Wordcode

variable {Bus : Type}

open Instruction

/-! ## From ticks to sequences of ticks -/

/-- The outcomes that can be told from executing further. -/
def Outcome.observed (os : List Outcome) : List Outcome := os.filter (· ≠ .executed)

namespace Outcome

@[simp] theorem observed_nil : observed [] = [] := rfl

@[simp] theorem observed_append (os os' : List Outcome) :
    observed (os ++ os') = observed os ++ observed os' :=
  List.filter_append ..

@[simp] theorem observed_replicate (n : Nat) : observed (List.replicate n .executed) = [] := by
  simp [observed]

theorem observed_cons (o : Outcome) (os : List Outcome) :
    observed (o :: os) = observed [o] ++ observed os :=
  observed_append [o] os

/-- Outcomes that are observed alike fault alike. -/
theorem isFault_of_observed_eq {os os' : List Outcome} (h : observed os' = observed os)
    (hf : ∀ o ∈ os, o.isFault = false) : ∀ o ∈ os', o.isFault = false := by
  intro o ho
  by_cases he : o = .executed
  · rw [he]
    rfl
  · have hmem : o ∈ observed os' := List.mem_filter.2 ⟨ho, by simpa using he⟩
    rw [h] at hmem
    exact hf o (List.mem_of_mem_filter hmem)

end Outcome

namespace Code

variable {code code' : Code}

/-- The points of a sequence of ticks, after one more tick that takes `count` ticks. -/
def delayed (count : Nat) (point : Nat → Nat) : Nat → Nat
  | 0 => 0
  | k + 1 => count + point k

variable [PortBus Bus]

/-- If every tick of a first program is matched by ticks of a second that are observed
    alike, so is every sequence of ticks, and each point of the first sequence has a point
    of the second that is related to it. -/
theorem Ticks.simulate {R : View Bus → View Bus → Prop} {allowed : View Bus → Outcome → Prop}
    (step : ∀ v w v' o, R v w → v.core.halted = false → code.tick v = (v', o) → allowed v o →
      ∃ os w', code'.Ticks w os w' ∧ Outcome.observed os = Outcome.observed [o] ∧ R v' w')
    {v v' w : View Bus} {os : List Outcome} (h : code.Ticks v os v') (hR : R v w)
    (hallowed : ∀ before u o after, os = before ++ o :: after → code.Ticks v before u →
      allowed u o) :
    ∃ os' w', code'.Ticks w os' w' ∧ Outcome.observed os' = Outcome.observed os ∧ R v' w' ∧
      ∃ point : Nat → Nat, Monotone point ∧ point 0 = 0 ∧ point os.length = os'.length ∧
        ∀ k ≤ os.length, ∀ u, code.Ticks v (os.take k) u →
          ∃ u', code'.Ticks w (os'.take (point k)) u' ∧ R u u' := by
  induction h generalizing w with
  | nil v =>
    refine ⟨[], w, .nil w, rfl, hR, fun _ => 0, monotone_const, rfl, rfl, fun k hk u hu => ?_⟩
    rw [List.take_nil] at hu
    cases hu
    exact ⟨w, .nil w, hR⟩
  | @cons v v₁ v' o os hh ht hts ih =>
    -- The point after `k + 1` ticks is the one that the rest has after `k`, later by the ticks
    -- that match the first.
    obtain ⟨os₀, w₁, hw₁, hobs₀, hR₁⟩ :=
      step v w v₁ o hR hh ht (hallowed [] v o os rfl (.nil v))
    obtain ⟨os', w', hw', hobs, hR', point, hmono, hzero, hlast, hpoints⟩ := ih hR₁
      fun before u o' after he hu => hallowed (o :: before) u o' after (by rw [he]; rfl)
        (.cons hh ht hu)
    refine ⟨os₀ ++ os', w', hw₁.append hw', ?_, hR',
      delayed os₀.length point, ?_, rfl, ?_, ?_⟩
    · rw [Outcome.observed_append, Outcome.observed_cons o os, hobs₀, hobs]
    · refine monotone_nat_of_le_succ fun k => ?_
      cases k with
      | zero => exact Nat.zero_le _
      | succ k => exact Nat.add_le_add_left (hmono (Nat.le_succ k)) _
    · simp only [delayed, List.length_cons, List.length_append, hlast]
    · intro k hk u hu
      cases k with
      | zero =>
        rw [List.take_zero] at hu
        cases hu
        exact ⟨w, .nil w, hR⟩
      | succ k =>
        rw [List.take_succ_cons] at hu
        cases hu with
        | cons _ ht' hu =>
          rw [ht] at ht'
          cases ht'
          obtain ⟨u', hu', hR''⟩ := hpoints k (Nat.le_of_succ_le_succ hk) u hu
          refine ⟨u', ?_, hR''⟩
          simp only [delayed, List.take_length_add_append]
          exact hw₁.append hu'

end Code

/-! ## Pieces -/

/-- A stream and what becomes of it, piece by piece. -/
abbrev Pieces := List (List Instruction × List Instruction)

namespace Pieces

variable (pieces : Pieces)

/-- The stream that is cut into pieces. -/
def source : List Instruction := pieces.flatMap Prod.fst

/-- What becomes of the stream. -/
def target : List Instruction := pieces.flatMap Prod.snd

/-- Two addresses correspond if the same piece begins there, or if both are at the end. -/
def Corresponds (a a' : Nat) : Prop :=
  ∃ before after, pieces = before ++ after ∧ a = extent (source before) ∧
    a' = extent (target before)

variable {pieces}

@[simp] theorem source_append (xs ys : Pieces) : source (xs ++ ys) = source xs ++ source ys :=
  List.flatMap_append

@[simp] theorem target_append (xs ys : Pieces) : target (xs ++ ys) = target xs ++ target ys :=
  List.flatMap_append

@[simp] theorem source_cons (p : List Instruction × List Instruction) (rest : Pieces) :
    source (p :: rest) = p.1 ++ source rest := rfl

@[simp] theorem target_cons (p : List Instruction × List Instruction) (rest : Pieces) :
    target (p :: rest) = p.2 ++ target rest := rfl

@[simp] theorem source_nil : source [] = [] := rfl

@[simp] theorem target_nil : target [] = [] := rfl

/-- A stream of which every instruction stays. -/
def same (stream : List Instruction) : Pieces := stream.map fun i => ([i], [i])

@[simp] theorem source_same (stream : List Instruction) : source (same stream) = stream := by
  induction stream with
  | nil => rfl
  | cons i rest ih => rw [same, List.map_cons, source_cons, ← same, ih]; rfl

@[simp] theorem target_same (stream : List Instruction) : target (same stream) = stream := by
  induction stream with
  | nil => rfl
  | cons i rest ih => rw [same, List.map_cons, target_cons, ← same, ih]; rfl

theorem corresponds_zero : Corresponds pieces 0 0 := ⟨[], pieces, rfl, rfl, rfl⟩

/-- Where a piece ends, the next one begins. -/
theorem corresponds_next {before after : Pieces} {p : List Instruction × List Instruction}
    (h : pieces = before ++ p :: after) :
    Corresponds pieces (extent (source before) + extent p.1)
      (extent (target before) + extent p.2) :=
  ⟨before ++ [p], after, by simp [h], by simp, by simp⟩

/-- A program is at its end or at a piece that it executes, unless pieces appear from
    nothing. -/
theorem cases_of_corresponds {a a' : Nat} (h : Corresponds pieces a a')
    (hp : ∀ p ∈ pieces, extent p.1 = 0 → extent p.2 = 0) :
    (a = extent (source pieces) ∧ a' = extent (target pieces)) ∨
      ∃ before p after, pieces = before ++ p :: after ∧ a = extent (source before) ∧
        a' = extent (target before) ∧ 0 < extent p.1 := by
  obtain ⟨before, after, hs, ha, ha'⟩ := h
  -- pieces that take no memory are passed over
  induction after generalizing before with
  | nil =>
    rw [List.append_nil] at hs
    exact .inl ⟨hs ▸ ha, hs ▸ ha'⟩
  | cons p after ih =>
    by_cases h0 : extent p.1 = 0
    · have h0' := hp p (by simp [hs]) h0
      exact ih (before ++ [p]) (by simp [hs]) (by simp [ha, h0]) (by simp [ha', h0'])
    · exact .inr ⟨before, p, after, hs, ha, ha', by omega⟩

/-- Where labels are marked in pieces of their own, and stay, their addresses correspond. -/
theorem relocates {code code' : Code} (hconfig : code'.config = code.config)
    (hs : code.Carries (source pieces)) (ht : code'.Carries (target pieces))
    (hmarks : ∀ p ∈ pieces, ∀ l, .note (.markLabel l) ∈ p.1 →
      p.1 = [.note (.markLabel l)] ∧ p.2 = [.note (.markLabel l)]) :
    code.Relocates code' (Corresponds pieces) := by
  refine ⟨hconfig, fun l a ha => ?_⟩
  have hl : l.id ∈ marks (source pieces) := by
    by_contra hl
    rw [hs.unmarked l hl] at ha
    cases ha
  obtain ⟨m, hm, hid⟩ := mem_marks_iff.1 hl
  obtain ⟨p, hp, hmem⟩ := List.mem_flatMap.1 hm
  obtain ⟨before, after, rfl⟩ := List.append_of_mem hp
  obtain ⟨h₁, h₂⟩ := hmarks p hp m hmem
  have hat : code.resolution.addressOf m = some (extent (source before)) := by
    have := hs.holds
    rw [source_append, source_cons, h₁] at this
    simpa [Stands] using Located.stands this
  have hat' : code'.resolution.addressOf m = some (extent (target before)) := by
    have := ht.holds
    rw [target_append, target_cons, h₂] at this
    simpa [Stands] using Located.stands this
  rw [← Resolution.addressOf_congr _ hid, hat] at ha
  cases ha
  exact ⟨_, by rw [← Resolution.addressOf_congr _ hid, hat'], before, p :: after, rfl, rfl, rfl⟩

/-- Both programs hold a piece where it begins. -/
theorem holds_piece {code code' : Code} (hs : code.Carries (source pieces))
    (ht : code'.Carries (target pieces)) {before after : Pieces}
    {p : List Instruction × List Instruction} (h : pieces = before ++ p :: after) :
    code.Holds (extent (source before)) p.1 ∧ code'.Holds (extent (target before)) p.2 := by
  have hs := hs.holds
  have ht := ht.holds
  rw [h, source_append, source_cons, Code.holds_append, Code.holds_append, Nat.zero_add] at hs
  rw [h, target_append, target_cons, Code.holds_append, Code.holds_append, Nat.zero_add] at ht
  exact ⟨hs.2.1, ht.2.1⟩

section Matches

variable [PortBus Bus] {code code' : Code} {exact : Prop} {visible : Nat → Prop} {v v' w : View Bus}
  {o : Outcome}

/-- Where a piece is one instruction that stays, both programs execute it alike. -/
theorem tick_same (hs : code.Carries (source pieces)) (ht : code'.Carries (target pieces))
    (hr : code.Relocates code' (Corresponds pieces)) {before after : Pieces} {op : Opcode}
    {operands : List Operand}
    (h : pieces = before ++ ([.code op operands], [.code op operands]) :: after)
    (hm : v.Matches code.config.mask exact visible (Corresponds pieces) w)
    (hv : v.core.ip = extent (source before)) (hw : w.core.ip = extent (target before))
    (hdirect : (Instruction.code op operands).Direct) (hcarry : op.readsCarry = true → exact)
    (hvis : ∀ j, .register j ∈ operands → visible j) (hx : code.tick v = (v', o))
    (hf : o.isFault = false) :
    ∃ w', code'.tick w = (w', o) ∧
      v'.Matches code.config.mask exact visible (Corresponds pieces) w' := by
  obtain ⟨hp, hp'⟩ := holds_piece hs ht h
  rw [← hv] at hp
  rw [← hw] at hp'
  cases hd : op.isData with
  | true =>
    obtain ⟨word, hword⟩ := (stands_data_iff hd).1 hp.1
    have := Code.tick_of_fetch_data hword
    rw [hx, hf] at this
    cases this
  | false =>
    have hnext := corresponds_next h
    simp only [extent_cons, footprint_code, Opcode.footprint_of_not_isData hd, extent_nil,
      Nat.add_zero, ← hv, ← hw] at hnext
    have hfetch := ((Code.holds_code_cons hd).1 hp).1
    have hfetch' := ((Code.holds_code_cons hd).1 hp').1
    obtain ⟨w', hw', hm'⟩ := hm.execute hr hdirect hcarry hvis hnext
      (Code.execute_of_tick hfetch hx hf) hf
    rw [← hr.config] at hw'
    exact ⟨w', Code.tick_of_execute hfetch' hw' hf, hm'⟩

/-- At the end both programs halt. -/
theorem tick_end (hs : code.Carries (source pieces)) (ht : code'.Carries (target pieces))
    {mask : Nat} (hm : v.Matches mask exact visible (Corresponds pieces) w)
    (hv : v.core.ip = extent (source pieces)) (hw : w.core.ip = extent (target pieces))
    (hx : code.tick v = (v', o)) :
    code'.tick w = (w.halt, o) ∧ v'.Matches mask exact visible (Corresponds pieces) w.halt := by
  rw [Code.tick_of_size_le (by rw [hs.size, hv])] at hx
  cases hx
  exact ⟨Code.tick_of_size_le (by rw [ht.size, hw]),
    ⟨hm.size, hm.register, rfl, hm.flags, hm.carry, hm.ram, hm.bus⟩, hm.ip, hm.stack, hm.calls⟩

end Matches

end Pieces

/-! ## Machines -/

namespace Machine

variable {m₁ m₂ : Machine Bus} {code code' : Code} {v w : View Bus} {n : Nat}

theorem breakpoints_eq_of_observed {os os' : List Outcome}
    (h : Outcome.observed os' = Outcome.observed os) :
    (os'.map (Tick.ran 0)).countP Tick.isBreakpoint =
      (os.map (Tick.ran 0)).countP Tick.isBreakpoint := by
  have hcount (xs : List Outcome) : (xs.map (Tick.ran 0)).countP Tick.isBreakpoint =
      (Outcome.observed xs).count .breakpoint := by
    rw [Outcome.observed, List.count_filter (by decide), List.countP_map, List.count]
    congr 1
    funext o
    cases o <;> rfl
  rw [hcount, hcount, h]

variable [PortBus Bus]

/-- A machine whose ticks are matched by those of a second halts only if the second halts,
    and each point of its run has a point in the run of the second. -/
theorem HaltsWithin.simulate (hn : m₁.HaltsWithin n) (R : View Bus → View Bus → Prop)
    (allowed : View Bus → Outcome → Prop) (h₁ : m₁.Runs code) (h₂ : m₂.Runs code')
    (hv : m₁ = m₁.ofView v) (hw : m₂ = m₂.ofView w) (hR : R v w)
    (step : ∀ v w v' o, R v w → v.core.halted = false → code.tick v = (v', o) → allowed v o →
      ∃ os w', code'.Ticks w os w' ∧ Outcome.observed os = Outcome.observed [o] ∧ R v' w')
    (halted : ∀ v w, R v w → v.core.halted = true → w.core.halted = true)
    (hallowed : ∀ os u o, code.Ticks v os u → (∀ o ∈ os, o.isFault = false) → os.length < n →
      m₁.after os.length = m₁.ofView u → .ran 0 o ∈ m₁.ticks n → allowed u o) :
    ∃ point : Nat → Nat, Monotone point ∧ point 0 = 0 ∧ m₂.HaltsWithin (point n) ∧
      m₂.breakpoints (point n) = m₁.breakpoints n ∧
      ∀ k ≤ n, ∃ u u', m₁.after k = m₁.ofView u ∧ m₂.after (point k) = m₂.ofView u' ∧ R u u' := by
  have hfault (tick : Tick) (h : tick ∈ m₁.ticks n) : tick.isFault = false := hn.faultless tick h
  obtain ⟨os, v', idle, hts, hlen, ha, htk⟩ := exists_ticks h₁ v n
  rw [← hv] at ha htk
  have hran (o : Outcome) (ho : o ∈ os) : .ran 0 o ∈ m₁.ticks n := by
    rw [htk]
    exact List.mem_append_left _ (List.mem_map_of_mem ho)
  have hhalt : v'.core.halted = true := by
    rw [← isHalted_ofView m₁, ← ha]
    exact hn.halted
  -- what the first machine is after the ticks of a beginning of the run
  have hafter {os' : List Outcome} {u : View Bus} (h : code.Ticks v os' u) :
      m₁.after os'.length = m₁.ofView u := by
    have := (after_of_ticks h₁ h).1
    rwa [← hv] at this
  have hafter₂ {os' : List Outcome} {u : View Bus} (h : code'.Ticks w os' u) :
      m₂.after os'.length = m₂.ofView u ∧ m₂.ticks os'.length = os'.map (.ran 0) := by
    have := after_of_ticks h₂ h
    rwa [← hw] at this
  obtain ⟨os', w', hts', hobs, hR', point, hmono, hzero, hlast, hpoints⟩ :=
    hts.simulate step hR fun before u o after he hu => by
      refine hallowed before u o hu (fun o' ho' => ?_) ?_ (hafter hu) (hran o (by simp [he]))
      · exact hfault (.ran 0 o') (hran o' (by simp [he, ho']))
      · rw [he, List.length_append, List.length_cons] at hlen
        omega
  have hfaultless := Outcome.isFault_of_observed_eq hobs fun o ho => hfault (.ran 0 o) (hran o ho)
  refine ⟨fun k => point (min k os.length), fun j k hjk => hmono (by omega), by simpa using hzero,
    ?_, ?_, fun k hk => ?_⟩
  · simp only [Nat.min_eq_right (show os.length ≤ n by omega), hlast]
    obtain ⟨ha', htk'⟩ := hafter₂ hts'
    refine ⟨?_, fun tick ht => ?_⟩
    · rw [ha', isHalted_ofView]
      exact halted v' w' hR' hhalt
    · rw [htk'] at ht
      obtain ⟨o, ho, rfl⟩ := List.mem_map.1 ht
      exact hfaultless o ho
  · simp only [Nat.min_eq_right (show os.length ≤ n by omega), hlast]
    rw [breakpoints, breakpoints, (hafter₂ hts').2, htk, List.countP_append,
      breakpoints_eq_of_observed hobs, List.countP_replicate]
    rfl
  · by_cases hle : k ≤ os.length
    · obtain ⟨u, hu⟩ := hts.exists_take k
      obtain ⟨u', hu', hRu⟩ := hpoints k hle u hu
      have hpk : point k ≤ os'.length := hlast ▸ hmono hle
      refine ⟨u, u', ?_, ?_, hRu⟩
      · have := hafter hu
        rwa [List.length_take, Nat.min_eq_left hle] at this
      · have := (hafter₂ hu').1
        rwa [List.length_take, Nat.min_eq_left hpk, ← Nat.min_eq_left hle] at this
    · -- the first machine idles
      refine ⟨v', w', ?_, ?_, hR'⟩
      · rw [show k = os.length + (k - os.length) by omega, after_add, hafter hts,
          (ofView_of_halted hhalt _).1]
      · simp only [Nat.min_eq_right (show os.length ≤ k by omega), hlast]
        exact (hafter₂ hts').1

end Machine
end Wordcode
