import Wordcode.Proofs.Integrity
import Wordcode.Proofs.Peephole.FixedPoints
import Wordcode.Proofs.Peephole.Runs

/-!
# Pairs of a push and a pop

A push and the pop after it put a word into a register as it is. What the pass leaves in their
place is a move, unless the word is in this register already, and a move cuts the word to the
mask. So the two do the same exactly if there is no move, or nothing to cut, or no register that
keeps the word. In a program that is no longer than the largest word this is always so. In a
longer one, the address of a label can be beyond the mask, and a push does not cut it.

* `View.through?`: instructions executed one after another, wherever they stand;
* `Peephole.apply_append_pair`: what the pass leaves in the place of a pair;
* `Peephole.replacement_sameButIp_iff`: when this does what the pair does;
* `Peephole.moved_address_is_cut`: a program in which it does not.
-/

namespace Wordcode

variable {Bus : Type}

open Instruction

/-! ## Instructions one after another -/

namespace View

section Through

variable [PortBus Bus] (config : Config) (resolution : Resolution)

/-- The view after instructions that are executed one after another, with labels at the given
    addresses. There is none if one of them faults or stops at a breakpoint. -/
def through? (v : View Bus) : List Instruction → Option (View Bus)
  | [] => some v
  | .note _ :: rest => v.through? rest
  | .code op operands :: rest =>
    match (Decoded.ofInstruction resolution config.mask (.code op operands)).execute config v with
    | (u, .executed) => u.through? rest
    | _ => none

end Through

/-- Two views differ at most in the address of the next instruction. -/
def SameButIp (v w : View Bus) : Prop := { v with core := { v.core with ip := w.core.ip } } = w

instance [DecidableEq Bus] (v w : View Bus) : Decidable (v.SameButIp w) :=
  inferInstanceAs (Decidable (_ = _))

variable [PortBus Bus] {config : Config} {resolution : Resolution} {v w : View Bus}
  {comments rest : List Instruction}

theorem through?_comments (hc : Comments comments) :
    v.through? config resolution (comments ++ rest) = v.through? config resolution rest := by
  induction comments with
  | nil => rfl
  | cons c comments ih =>
    obtain ⟨⟨text, rfl⟩, hrest⟩ := List.forall_mem_cons.1 hc
    exact ih hrest

theorem through?_code_eq_some_iff {op : Opcode} {operands : List Operand} :
    v.through? config resolution (.code op operands :: rest) = some w ↔
      ∃ u, (Decoded.ofInstruction resolution config.mask (.code op operands)).execute config v =
        (u, .executed) ∧ u.through? config resolution rest = some w := by
  rw [through?]
  split
  · next u hx => simp [hx]
  · next hx =>
    refine ⟨fun h => (nomatch h), ?_⟩
    rintro ⟨u, hu, -⟩
    exact absurd hu (hx u)

omit [PortBus Bus] in
/-- Putting a word into a register, cut to the mask or not, is the same exactly if there is
    nothing to cut, or the register loses what is put into it. -/
theorem put_sameButIp_iff {t word ip ip' : Nat} (ht : t < v.core.registers.size) :
    View.SameButIp { v with core := { v.core.put t (word &&& config.mask) with ip } }
        { v with core := { v.core.put t word with ip := ip' } } ↔
      t = 0 ∨ word ≤ config.mask := by
  constructor
  · intro h
    by_cases h0 : t = 0
    · exact .inl h0
    · have hregister := congrArg (fun v : View Bus => v.core.registers[t]?) h
      simp only [Core.registers_put_self _ h0 ht, Option.some.injEq] at hregister
      exact .inr (hregister ▸ Word.and_mask_le word _)
  · rintro (rfl | hle)
    · rfl
    · rw [SameButIp, Config.and_mask_of_le hle]

end View

namespace Peephole

variable {settings : Peephole} {config : Config} {resolution : Resolution} {v w : View Bus}
  {comments : List Instruction} {x y : Operand}

/-! ## What becomes of a pair -/

/-- What the pass leaves in the place of a pair. -/
def replacement (settings : Peephole) (x : Operand) (comments : List Instruction) (y : Operand) :
    List Instruction :=
  (if settings.comments then [] else comments) ++
    if x = y then [] else [settings.canonical (transfer y x)]

theorem comments_ite (hc : Comments comments) (settings : Peephole) :
    Comments (if settings.comments then [] else comments) := by
  split
  · exact fun _ hi => absurd hi List.not_mem_nil
  · exact hc

theorem foldl_push_comments (hc : Comments comments) (kept : List Instruction) :
    comments.foldl settings.push kept =
      (if settings.comments then [] else comments).reverse ++ kept := by
  induction comments generalizing kept with
  | nil => split <;> rfl
  | cons c comments ih =>
    obtain ⟨⟨text, rfl⟩, hrest⟩ := List.forall_mem_cons.1 hc
    rw [List.foldl_cons, ih hrest, push, drops]
    split <;> simp

/-- Wherever a pair stands, the pass leaves the same in its place. -/
theorem apply_append_pair (hs : settings.stackTraffic = true) (hc : Comments comments)
    (before : List Instruction) :
    settings.apply (before ++ pair x comments y) =
      settings.apply before ++ settings.replacement x comments y := by
  have hpush (kept : List Instruction) :
      settings.push kept (.code .psh [x]) = .code .psh [x] :: kept := push_code (.inr (by decide))
  have hc' : Comments (if settings.comments then [] else comments).reverse :=
    fun j hj => comments_ite hc settings j (List.mem_reverse.1 hj)
  rw [apply, pair, List.foldl_append, List.foldl_cons, List.foldl_append, hpush,
    foldl_push_comments hc, List.foldl_cons, List.foldl_nil, push, if_pos hs,
    pendingPush?_comments hc', replacement, apply]
  by_cases hxy : x = y <;> simp [hxy]

/-! ## What a pair does -/

variable [PortBus Bus]

/-- A pair puts what it pushes into the register it pops into. -/
theorem exists_of_through?_pair (hc : Comments comments)
    (h : v.through? config resolution (pair x comments y) = some w) :
    ∃ word t, (Decoded.ofInstruction resolution config.mask (.code .psh [x])).value v.core 1 =
        .ok word ∧ y = .register t ∧ t < v.core.registers.size ∧
      w = { v with core := { v.core.put t word with ip := v.core.ip + 2 } } := by
  obtain ⟨u, hpush, h⟩ := View.through?_code_eq_some_iff.1 h
  rw [View.through?_comments hc] at h
  obtain ⟨w', hpop, h⟩ := View.through?_code_eq_some_iff.1 h
  cases h
  obtain ⟨e, he, hx⟩ := Decoded.exists_effectOf_of_execute rfl hpush rfl
  obtain ⟨-, word, hword, rfl⟩ := Decoded.effectOf_psh_eq_ok_iff.1 he
  cases hx
  obtain ⟨t, rfl, hassign⟩ := Decoded.assign_of_execute_pop rfl hpop rfl
  -- after the push and the pop, the stack is as it was
  let u : View Bus := { v with core := { v.core with ip := v.core.ip + 1 } }
  replace hassign : u.assign t word = (w, .executed) := hassign
  have ht : t < u.core.registers.size := View.lt_of_assign hassign rfl
  have hw := congrArg Prod.fst ((View.assign_of_lt ht).symm.trans hassign)
  refine ⟨word, t, hword, rfl, ht, hw.symm.trans ?_⟩
  simp only [Core.put]
  split <;> rfl

/-- What is left in the place of a pair is executed without a fault. It cuts the pushed word, or
    leaves it where it was. -/
theorem through?_replacement {t word : Nat} (hc : Comments comments)
    (hword : (Decoded.ofInstruction resolution config.mask (.code .psh [x])).value v.core 1 =
      .ok word) (ht : t < v.core.registers.size) :
    v.through? config resolution (settings.replacement x comments (.register t)) =
      some (if x = .register t then v
        else
          { v with core := { v.core.put t (word &&& config.mask) with ip := v.core.ip + 1 } }) := by
  rw [replacement, View.through?_comments (comments_ite hc settings)]
  split
  · rfl
  · obtain ⟨op, operands, htransfer, hop, hx⟩ :=
      Decoded.exists_execute_transfer (v := v) (t := t) hword
    obtain ⟨op', operands', hcanonical, -, hx'⟩ :=
      @Decoded.execute_canonical Bus _ resolution config.mask settings _ hop operands
    have hassign := hx config
    rw [View.assign_of_lt ht] at hassign
    rw [htransfer, hcanonical, View.through?_code_eq_some_iff]
    exact ⟨_, hx' _ _ _ _ (Nat.zero_lt_of_lt ht) hassign rfl, rfl⟩

/-- What is left in the place of a pair does the same as the pair, wherever the program goes on,
    exactly if the two operands are one, or the word is lost, or the word is not cut. -/
theorem replacement_sameButIp_iff (settings : Peephole) {w' : View Bus} {word : Nat}
    (hc : Comments comments)
    (hword : (Decoded.ofInstruction resolution config.mask (.code .psh [x])).value v.core 1 =
      .ok word)
    (h : v.through? config resolution (pair x comments y) = some w)
    (h' : v.through? config resolution (settings.replacement x comments y) = some w') :
    w'.SameButIp w ↔ x = y ∨ y = .zero ∨ word ≤ config.mask := by
  obtain ⟨word', t, hword', rfl, ht, rfl⟩ := exists_of_through?_pair hc h
  cases hword.symm.trans hword'
  rw [through?_replacement hc hword ht, Option.some.injEq] at h'
  subst h'
  split
  · next hxt =>
    subst hxt
    rw [(Core.put_read hword).2]
    exact iff_of_true rfl (.inl rfl)
  · next hne =>
    rw [View.put_sameButIp_iff ht]
    simp [hne, Operand.zero]

/-! ## Pairs in a machine -/

omit [PortBus Bus] in
/-- In a program that is no longer than the largest word, nothing that is pushed is beyond it. -/
theorem value_le_mask {cells : List Cell} {m : Machine Bus} {core : Core} {word : Nat}
    (hm : m.Intact config cells) (hcore : core ∈ m.cores) (hlen : m.programLen ≤ config.mask)
    (hlabels : ∀ label address, resolution.addressOf label = some address →
      address ≤ m.programLen)
    (h : (Decoded.ofInstruction resolution config.mask (.code .psh [x])).value core 1 = .ok word) :
    word ≤ config.mask := by
  have hwithin := Core.Confined.within (v := ⟨core, m.ram, m.bus⟩) (hm.cores core hcore) hm.ramWords
  rw [Nat.max_eq_left hlen] at hwithin
  refine hwithin.value (fun n hn => ?_) h
  replace hn : Slot.decode resolution config.mask x = .value n := Option.some.inj hn
  cases x with
  | register j => cases hn
  | immediate k =>
    cases hn
    exact Word.and_mask_le k _
  | label l =>
    rw [Slot.decode] at hn
    split at hn
    · next ha =>
      cases hn
      exact Nat.le_trans (hlabels l _ ha) hlen
    · cases hn

/-- Where a core of a machine executes a pair without a fault, it executes what the pass leaves in
    its place as well. Whether this does the same is decided by the word that is pushed, and in a
    program that is no longer than the largest word it always does. -/
theorem exists_replacement {bus : Bus} {m : Machine Bus} (hm : Machine.create config bus = .ok m)
    (actions : List (Machine.Action Bus)) {core : Core} (hcore : core ∈ (m.acts actions).cores)
    (resolution : Resolution) (hs : settings.stackTraffic = true) (hc : Comments comments)
    (h : View.through? config resolution ⟨core, (m.acts actions).ram, (m.acts actions).bus⟩
      (pair x comments y) = some w) :
    ∃ new w' word,
      (∀ before, settings.apply (before ++ pair x comments y) = settings.apply before ++ new) ∧
      View.through? config resolution ⟨core, (m.acts actions).ram, (m.acts actions).bus⟩ new =
        some w' ∧
      (Decoded.ofInstruction resolution config.mask (.code .psh [x])).value core 1 = .ok word ∧
      (w'.SameButIp w ↔ x = y ∨ y = .zero ∨ word ≤ config.mask) ∧
      ((m.acts actions).programLen ≤ config.mask →
        (∀ label address, resolution.addressOf label = some address →
          address ≤ (m.acts actions).programLen) →
        w'.SameButIp w) := by
  obtain ⟨word, t, hword, rfl, ht, -⟩ := exists_of_through?_pair hc h
  have hsame := replacement_sameButIp_iff settings hc hword h (through?_replacement hc hword ht)
  refine ⟨_, _, word, apply_append_pair hs hc, through?_replacement hc hword ht, hword, hsame,
    fun hlen hlabels => ?_⟩
  have hintact := (Machine.intact_of_create hm actions).1
  exact hsame.2 (.inr (.inr (value_le_mask hintact hcore hlen hlabels hword)))

/-- A machine with words of one bit. -/
def tiny : Config := { registers := 2, ramWords := 8, wordBits := 1 }

/-- The label of the third word of a program. -/
def third : Label := .anonymous 0

/-- A program that pushes the address of its third word and pops it into a register. -/
def addressing : List Instruction :=
  [.code .nop [], .code .nop [], .note (.markLabel third)] ++
    pair (.label third) [.note (.comment "its own address")] (.register 1) ++ [.code .hlt []]

/-- The machine that is about to execute the pair of this program. -/
def atPair : Machine QueueBus := (Machine.blank tiny .empty).acts [.load addressing, .clock, .clock]

/-- A pair that moves a label is replaced, and where the address is wider than the word, the
    replacement does not put the same word into the register. -/
theorem exists_replacement_addressing :
    ∃ new w',
      (∀ before, standard.apply (before ++ pair (.label third) [] (.register 1)) =
        standard.apply before ++ new) ∧
      View.through? tiny ⟨[(third.id, 2)]⟩
        ⟨{ ip := 2, registers := #[0, 0] }, atPair.ram, atPair.bus⟩ new = some w' ∧
      ¬ w'.SameButIp ⟨{ ip := 4, registers := #[0, 2] }, atPair.ram, atPair.bus⟩ := by
  have hm : Machine.create tiny QueueBus.empty = .ok (Machine.blank tiny .empty) := by
    decide +kernel
  have hcore : { ip := 2, registers := #[0, 0] } ∈ atPair.cores := by decide +kernel
  have hs : standard.stackTraffic = true := rfl
  have hpair : View.through? tiny ⟨[(third.id, 2)]⟩
      ⟨{ ip := 2, registers := #[0, 0] }, atPair.ram, atPair.bus⟩
      (pair (.label third) [] (.register 1)) =
        some ⟨{ ip := 4, registers := #[0, 2] }, atPair.ram, atPair.bus⟩ := by decide +kernel
  obtain ⟨new, w', word, hnew, hw', hword, hsame, -⟩ :=
    exists_replacement hm _ hcore _ hs (fun _ hi => absurd hi List.not_mem_nil) hpair
  cases hword
  exact ⟨new, w', hnew, hw', fun h => absurd (hsame.1 h) (by decide)⟩

/-- The address of the third word is no word of one bit: the pair puts it into the register as it
    is, and the instruction in the place of the pair does not. -/
theorem moved_address_is_cut :
    let paired := (Machine.blank tiny QueueBus.empty).loaded addressing
    let moved := (Machine.blank tiny QueueBus.empty).loaded (standard.apply addressing)
    paired.HaltsWithin 5 ∧ (paired.after 4).cores = [{ ip := 4, registers := #[0, 2] }] ∧
      moved.HaltsWithin 4 ∧ (moved.after 3).cores = [{ ip := 3, registers := #[0, 0] }] := by
  decide +kernel

end Peephole
end Wordcode
