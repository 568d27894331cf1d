import Wordcode.Proofs.Lowering.Named
import Wordcode.Proofs.Pragmas

/-!
# Listings of lowered programs

A lowered program can be assembled from its listing (`Lowering.assembleText_listing`). This needs
an invariant of all passes, `Instruction.Listed`: an instruction names labels that its table gave
out, or labels without names that come after them, its numbers fit the widest word, and its text
is read as it was written.

* `LabelTable.Legible.written_eq_iff`: such labels are told apart by how they are written;
* `Source.exists_before`: assembled programs begin with their needs, and have the invariant;
* `Lowering.keeps_listed`, `Peephole.exists_apply_before`: the passes of lowering keep it;
* `Lowering.exists_listable`: lowered programs can be listed.
-/

namespace Wordcode

open Instruction

/-! ## The names of labels -/

namespace LabelTable

/-- A table of names that can be written, none of which is that of a label without a name. -/
structure Legible (table : LabelTable) : Prop extends Spelled table where
  ne : ∀ name l, table.lookup name = some l → ∀ id : Nat, name ≠ "__" ++ id.repr

variable {table : LabelTable} {l l' : Label}

theorem Legible.not_mimics (h : table.Legible) (hl : table.Knows l) : ¬l.Mimics l' := by
  rintro ⟨hname, -⟩
  rcases hl with ⟨name, hl⟩ | ⟨id, -, rfl⟩
  · rw [(mem_of_lookup hl).2, Option.some.injEq] at hname
    exact h.ne name l hl _ hname
  · cases hname

/-- Labels are told apart by how they are written. -/
theorem Legible.written_eq_iff (h : table.Legible) (hl : table.Knows l) (hl' : table.Knows l') :
    l.written = l'.written ↔ l.id = l'.id := by
  rw [h.numbered.written_eq_iff hl hl', or_iff_left]
  exact fun hmimics => hmimics.elim (h.not_mimics hl) (h.not_mimics hl')

end LabelTable

/-! ## The numbers in expansions -/

namespace Word

theorem halves_le (value lowBits : Nat) :
    (halves value lowBits).high ≤ value ∧ (halves value lowBits).low ≤ value := by
  refine ⟨?_, Nat.and_le_left⟩
  rw [halves]
  split
  · rw [Nat.shiftRight_eq_div_pow]
    exact Nat.div_le_self _ _
  · exact Nat.zero_le value

theorem le_of_mem_split {value bits count n : Nat} (h : n ∈ split value bits count) :
    n ≤ value := by
  fun_induction split value bits count with
  | case1 => exact absurd h List.not_mem_nil
  | case2 value => exact List.mem_singleton.1 h ▸ Nat.and_le_left
  | case3 value count _ _ parts ihHigh ihLow =>
    obtain ⟨hhigh, hlow⟩ := halves_le value (place bits (count / 2))
    rcases List.mem_append.1 h with h | h
    · exact Nat.le_trans (ihHigh h) hhigh
    · exact Nat.le_trans (ihLow h) hlow

end Word

namespace Expansion

variable {context : Context} {first t n : Nat} {op : Opcode} {given : List Operand}
  {x : Operand} {expansion : Expansion} {i : Instruction}

theorem imm_eq_copy_iff {t' : Nat} :
    .code .imm [.register t, .immediate n] = copy t' x ↔ t = t' ∧ .immediate n = x := by
  cases x <;> simp [copy]

theorem imm_mem_load {spare : List Nat} {index : Nat} {load : List Instruction}
    (h : divisor spare x = some (index, load))
    (hi : .code .imm [.register t, .immediate n] ∈ load) : .immediate n = x := by
  unfold divisor at h
  split at h
  · cases h
    cases hi
  · split at h
    · cases h
      exact (imm_eq_copy_iff.1 (List.mem_singleton.1 hi)).2
    · cases h

theorem number_of_multiply {d y : Operand} (h : multiply context first d x y = some expansion)
    (hi : .code .imm [.register t, .immediate n] ∈ expansion.body) :
    .immediate n ∈ [d, x, y] := by
  unfold multiply at h
  split at h
  · cases h
    simp [save, restore, announce, clear, mark, jump, compareZero, onto, combine, deliver,
      imm_eq_copy_iff] at hi
    rcases hi with ⟨-, rfl⟩ | ⟨-, rfl⟩ <;> simp
  · cases h

theorem number_of_divide {d y : Operand} (h : divide context first d x y = some expansion)
    (hi : .code .imm [.register t, .immediate n] ∈ expansion.body) :
    n = context.wordBits ∨ .immediate n ∈ [d, x, y] := by
  unfold divide at h
  split at h
  · obtain ⟨⟨index, load⟩, hd, h⟩ := Option.bind_eq_some_iff.1 h
    cases h
    simp [save, restore, announce, clear, mark, jump, compareZero, onto, combine, deliver,
      zeroTrap, imm_eq_copy_iff] at hi
    rcases hi with hi | ⟨-, rfl⟩ | ⟨-, rfl⟩
    · simp [imm_mem_load hd hi]
    · simp
    · simp
  · cases h

theorem number_of_modulo {d y : Operand} (h : modulo context first d x y = some expansion)
    (hi : .code .imm [.register t, .immediate n] ∈ expansion.body) :
    .immediate n ∈ [d, x, y] := by
  unfold modulo at h
  obtain ⟨⟨index, load⟩, hd, h⟩ := Option.bind_eq_some_iff.1 h
  cases h
  simp [save, restore, announce, mark, jump, compareZero, combine, deliver, zeroTrap,
    imm_eq_copy_iff] at hi
  rcases hi with hi | ⟨-, rfl⟩
  · simp [imm_mem_load hd hi]
  · simp

theorem number_of_shiftBy {shift : Opcode} {d y : Operand} (hs : shift ≠ .imm)
    (h : shiftBy shift context first d x y = some expansion)
    (hi : .code .imm [.register t, .immediate n] ∈ expansion.body) :
    .immediate n ∈ [d, x, y] := by
  unfold shiftBy at h
  split at h
  · cases h
    simp [save, restore, announce, mark, jump, compareZero, onto, deliver, hs.symm,
      imm_eq_copy_iff] at hi
    rcases hi with ⟨-, rfl⟩ | ⟨-, rfl⟩ <;> simp
  · cases h

/-- A register is set to the width of a word, or to a number that is given. -/
theorem number_of_imm_mem (h : expand? context first op given = some expansion)
    (hi : .code .imm [.register t, .immediate n] ∈ expansion.body) :
    n = context.wordBits ∨ .immediate n ∈ given := by
  unfold expand? at h
  split at h
  · exact .inr (number_of_multiply h hi)
  · exact number_of_divide h hi
  · exact .inr (number_of_modulo h hi)
  · exact .inr (number_of_shiftBy (by decide) h hi)
  · exact .inr (number_of_shiftBy (by decide) h hi)
  -- the other expansions set no register to a number
  · cases h
    simp [call, announce, mark, jump] at hi
  · cases h
    simp [comeBack] at hi
  · cases h
    simp [breakpoint] at hi
  · cases h
    simp [doubleWord] at hi
  · cases h
    simp [quadWord] at hi
  · cases h

/-- What data is expanded to is no greater than what it holds. -/
theorem exists_le_of_dd (h : expand? context first .dd given = some expansion)
    (hi : .code .dw [.immediate n] ∈ expansion.body) :
    ∃ value, .immediate value ∈ given ∧ n ≤ value := by
  obtain ⟨value, rest, rfl, rfl⟩ : ∃ value rest, given = .immediate value :: rest ∧
      expansion = doubleWord context value := by
    rcases given with _ | ⟨_ | value | _, rest⟩ <;> cases h
    exact ⟨value, rest, rfl, rfl⟩
  rw [doubleWord, List.mem_map] at hi
  obtain ⟨word, hword, he⟩ := hi
  cases he
  exact ⟨value, List.mem_cons_self, Word.le_of_mem_split hword⟩

theorem exists_le_of_dq (h : expand? context first .dq given = some expansion)
    (hi : .code .dd [.immediate n] ∈ expansion.body) :
    ∃ value, .immediate value ∈ given ∧ n ≤ value := by
  obtain ⟨value, rest, rfl, rfl⟩ : ∃ value rest, given = .immediate value :: rest ∧
      expansion = quadWord context value := by
    rcases given with _ | ⟨_ | value | _, rest⟩ <;> cases h
    exact ⟨value, rest, rfl, rfl⟩
  have hle := Word.halves_le value (Word.place context.wordBits 2)
  simp [quadWord] at hi
  rcases hi with rfl | rfl
  · exact ⟨value, List.mem_cons_self, hle.1⟩
  · exact ⟨value, List.mem_cons_self, hle.2⟩

/-- The numbers in an expansion are at most the width of a word, or at most a number given. -/
theorem number_of_expand (h : expand? context first op given = some expansion)
    (hi : i ∈ expansion.body) (hn : .immediate n ∈ i.operands) :
    n ≤ context.wordBits ∨ ∃ value, .immediate value ∈ given ∧ n ≤ value := by
  have hgiven (hn : .immediate n ∈ given) :
      n ≤ context.wordBits ∨ ∃ value, .immediate value ∈ given ∧ n ≤ value :=
    .inr ⟨n, hn, Nat.le_refl n⟩
  cases part_of_expand h i hi with
  | @copy t x hx =>
    rw [operands_copy] at hn
    rcases List.mem_cons.1 hn with hn | hn
    · cases hn
    · rw [← List.mem_singleton.1 hn] at hx
      exact hgiven hx
  | constant t m =>
    rcases List.mem_cons.1 hn with hn | hn
    · cases hn
    · cases List.mem_singleton.1 hn
      rcases number_of_imm_mem h hi with rfl | hm
      · exact .inl (Nat.le_refl _)
      · exact hgiven hm
  | compareZero j =>
    simp [Expansion.compareZero, operands] at hn
    exact .inl (hn ▸ Nat.zero_le _)
  | @deliver d j hs hd =>
    rcases List.mem_cons.1 hn with rfl | hn
    · exact hgiven (List.mem_of_mem_head? hd)
    · simp [Operand.zero] at hn
  | @go x hop hx =>
    rw [← List.mem_singleton.1 hn] at hx
    exact hgiven hx
  | word m hop =>
    cases List.mem_singleton.1 hn
    subst hop
    exact .inr (exists_le_of_dd h hi)
  | half m hop =>
    cases List.mem_singleton.1 hn
    subst hop
    exact .inr (exists_le_of_dq h hi)
  | _ =>
    simp [operands, Note.operands, Expansion.clear, Expansion.mark, Expansion.jump,
      Expansion.onto, Expansion.combine, Operand.zero] at hn

end Expansion

/-! ## What lowering keeps -/

/-- An instruction that can be listed below the needs of its program: its labels are known, its
    numbers fit the widest word, its text can be read, and it states no need itself. -/
structure Instruction.Listed (table : LabelTable) (i : Instruction) : Prop where
  labels : ∀ l : Label, .label l ∈ i.operands → table.Knows l
  numbers : ∀ n, .immediate n ∈ i.operands → n < Word.limit
  text : ∀ n, i = .note n → n.HasText
  isNeed : i.isNeed = false

variable {table : LabelTable}

theorem Instruction.Listed.legible {i : Instruction} (h : i.Listed table) (ht : table.Legible) :
    i.Legible :=
  ⟨fun l hl => ht.isWord_written (h.labels l hl), h.numbers, h.text⟩

theorem Instruction.Listed.lined {i : Instruction} (h : i.Listed table) : i.Lined table :=
  ⟨h.labels, fun n hn => (h.text n hn).onLine⟩

/-- A note without operands is listed if its text is. -/
theorem Instruction.listed_note {n : Note} (hn : n.operands = []) (ht : n.HasText) :
    (note n).Listed table := by
  have hoperands : (note n).operands = [] := hn
  refine ⟨by simp [hoperands], by simp [hoperands], fun n' h => ?_, ?_⟩
  · cases h
    exact ht
  · cases n with
    | maxReg | minRam => cases hn
    | _ => rfl

namespace Lowering

variable {context : Expansion.Context}

/-- The words of the warning about an instruction that is left out. -/
theorem isPhrase_warning (op : Opcode) :
    Statement.IsPhrase
      (["@warning", op.name, "is", "not", "supported", "by", "the", "target"].map String.toList)
      ('@' :: ("warning " ++ op.name ++ " is not supported by the target").toList) := by
  have hrest : Statement.IsPhrase
      (["is", "not", "supported", "by", "the", "target"].map String.toList)
      "is not supported by the target".toList :=
    ⟨by decide +kernel, by decide +kernel, by decide +kernel, 't', by decide +kernel, rfl⟩
  have hname := Statement.IsPhrase.word (isWord_name op)
  have hsign := Statement.IsPhrase.word
    (@Statement.isWord_of_all "@warning".toList (by decide) (by decide) (by decide))
  have hall := (hrest.append hname.words hname.comment hname.isUnbroken (.inl rfl)).append
    hsign.words hsign.comment hsign.isUnbroken (.inl rfl)
  simpa using hall

/-- The warning about an instruction that the target lacks has a text that is read back. -/
theorem hasText_warning (op : Opcode) :
    (Note.pragma ("warning " ++ op.name ++ " is not supported by the target")).HasText := by
  have hphrase := isPhrase_warning op
  have hhead : ("warning " ++ op.name ++ " is not supported by the target").toList.head? =
      some 'w' := by
    rw [String.toList_append, String.toList_append]
    rfl
  have hdirective : Statement.Directive
      ('@' :: ("warning " ++ op.name ++ " is not supported by the target").toList) "warning"
      [op.name, "is", "not", "supported", "by", "the", "target"] := by
    refine ⟨rfl, "warning", ?_, by decide +kernel⟩
    rw [hphrase.tokens_eq, List.map_map]
    simp only [Function.comp_def, String.ofList_toList, List.map_id']
    rfl
  refine Note.hasText_of_directive (onLine_warning op) (hphrase.content_eq ?_) ?_ hdirective
    (by decide)
  · rintro c ⟨⟩
    rfl
  · rw [hhead]
    rintro c ⟨⟩
    rfl

/-- Lowering keeps a program such that it can be listed. -/
theorem keeps_listed (ht : table.Legible) (hbits : context.wordBits < Word.limit) :
    Keeps context table.nextId (Listed table) := by
  have hlined : Keeps context table.nextId (Lined table) := keeps_lined ht.toSpelled
  have hcomment (op : Opcode) (operands : List Operand) (h : (code op operands).Listed table) :
      (note (.comment (code op operands).render)).Listed table :=
    listed_note rfl ((hlined.comment op operands h.lined).text _ rfl)
  refine ⟨hcomment, fun op operands h => ?_, fun first op given expansion hfirst h he i hi => ?_⟩
  · unfold residue
    split
    · exact fun _ hi => absurd hi List.not_mem_nil
    · exact List.forall_mem_cons.2 ⟨listed_note rfl (hasText_warning op),
        List.forall_mem_singleton.2 (hcomment op operands h)⟩
  · have hpart := Expansion.part_of_expand he i hi
    refine ⟨(hlined.expand first op given expansion hfirst h.lined he i hi).labels,
      fun n hn => ?_, ?_, ?_⟩
    · rcases Expansion.number_of_expand he hi hn with hle | ⟨value, hvalue, hle⟩
      · exact Nat.lt_of_le_of_lt hle hbits
      · exact Nat.lt_of_le_of_lt hle (h.numbers value hvalue)
    · intro n hn
      obtain ⟨_, _, rfl⟩ | ⟨l, rfl | rfl⟩ := hpart.code_or_note <;> cases hn
      · trivial
      · trivial
    · obtain ⟨_, _, rfl⟩ | ⟨l, rfl | rfl⟩ := hpart.code_or_note <;> rfl

end Lowering

namespace Peephole

variable {old new stream stream' body : List Instruction}

/-- What is stated about needs is never left out. -/
theorem Simplifies.isNeed (h : Simplifies old new) : ∀ i ∈ old, i.isNeed = false := by
  cases h with
  | @drop n hd =>
    rw [List.forall_mem_singleton]
    cases n with
    | maxReg | minRam => cases hd
    | _ => rfl
  | zero => exact List.forall_mem_singleton.2 rfl
  | @move comments _ _ hc | @cancel comments _ hc =>
    rw [List.forall_mem_cons, List.forall_mem_append, List.forall_mem_singleton]
    refine ⟨rfl, fun i hi => ?_, rfl⟩
    obtain ⟨text, rfl⟩ := hc i hi
    rfl

theorem Simplifies.listed (h : Simplifies old new) (ho : ∀ i ∈ old, i.Listed table) :
    ∀ i ∈ new, i.Listed table := by
  intro i hi
  rcases h.mem_new hi with hold | ⟨op, operands, rfl, -⟩
  · exact ho i hold
  · have hlined := h.lined (fun j hj => (ho j hj).lined) _ hi
    refine ⟨hlined.labels, fun n hn => ?_, fun n hn => (by cases hn), rfl⟩
    rcases h.exists_operand hi hn with hzero | ⟨j, hj, hn⟩
    · cases hzero
    · exact (ho j hj).numbers n hn

theorem Rewrites.listed (h : Rewrites stream stream') (hs : ∀ i ∈ stream, i.Listed table) :
    ∀ i ∈ stream', i.Listed table := by
  obtain ⟨before, after, h⟩ := h
  simp only [List.forall_mem_append] at hs ⊢
  exact ⟨hs.1, h.listed hs.2.1, hs.2.2⟩

/-- A stream is rewritten below what it states. -/
theorem Rewrites.exists_cons {i : Instruction} (h : Rewrites (i :: stream) stream')
    (hi : i.isNeed = true) : ∃ rest, stream' = i :: rest ∧ Rewrites stream rest := by
  generalize hs : i :: stream = whole at h
  obtain @⟨old, new, before, after, h⟩ := h
  rcases before with _ | ⟨j, before⟩
  -- what gives way is never empty, and does not begin with a need
  · rcases old with _ | ⟨j, old⟩
    · cases h
    · have hj := h.isNeed j List.mem_cons_self
      rw [← (List.cons.inj hs).1, hi] at hj
      cases hj
  · cases hs
    exact ⟨_, rfl, .intro before after h⟩

/-- The pass leaves what a stream states in front, and what can be listed below it. -/
theorem exists_apply_before (settings : Peephole) (needed : Needs)
    (hbody : ∀ i ∈ body, i.Listed table) :
    ∃ body', settings.apply (needed.before body) = needed.before body' ∧
      ∀ i ∈ body', i.Listed table := by
  refine settings.keeps_apply
    (P := fun stream => ∃ body', stream = needed.before body' ∧ ∀ i ∈ body', i.Listed table)
    (fun h ih => ?_) ⟨body, rfl, hbody⟩
  obtain ⟨body', rfl, hbody'⟩ := ih
  obtain ⟨_, rfl, htail⟩ := h.exists_cons rfl
  obtain ⟨rest, rfl, hrest⟩ := htail.exists_cons rfl
  exact ⟨rest, rfl, hrest.listed hbody'⟩

end Peephole

/-! ## Lowered programs -/

namespace Lowering

variable {config : Config} {settings : Peephole} {program : Program} {lowered : Lowered}

theorem required_lt_of_lower (h : lower config settings program = .ok lowered) :
    lowered.registersRequired < Word.limit := by
  obtain ⟨highest, -, -, hlt, -, rfl⟩ := lower_eq_ok_iff.1 h
  exact hlt

theorem declare_of_isNeed {i : Instruction} (h : i.isNeed = false) (highest : Nat) :
    declare highest i = i := by
  rcases i with _ | ⟨_ | _ | _ | _ | _ | _ | _ | _⟩ <;> first | rfl | cases h

theorem map_declare_before {needed : Needs} {body : List Instruction} (highest : Nat)
    (hbody : ∀ i ∈ body, i.isNeed = false) :
    (needed.before body).map (declare highest) =
      { needed with maxRegister := highest }.before body := by
  have hkept : body.map (declare highest) = body :=
    (List.map_congr_left fun i hi => declare_of_isNeed (hbody i hi) highest).trans
      (List.map_id' body)
  rw [Needs.before, List.map_cons, List.map_cons, hkept]
  rfl

/-- A program that can be listed is lowered to one that can be listed. -/
theorem exists_listable {needed : Needs} {body : List Instruction} (ht : program.labels.Legible)
    (hprogram : program.instructions = needed.before body)
    (hbody : ∀ i ∈ body, i.Listed program.labels) (hram : needed.minRam < Word.limit)
    (hc : Checked program.instructions)
    (hlt : ∀ id ∈ marks program.instructions, id < program.labels.nextId)
    (hbits : config.wordBits < Word.limit)
    (h : lower config settings program = .ok lowered) :
    ∃ needed' body', lowered.program.instructions = needed'.before body' ∧
      Listable needed' body' := by
  obtain ⟨highest, -, hr, hi, -⟩ := exists_of_lower h
  have hexpanded : ∃ body', (expanded config program).instructions = needed.before body' ∧
      ∀ i ∈ body', i.Listed program.labels := by
    have hkeeps : Keeps ⟨scratch program, config.wordBits⟩ program.labels.nextId
        (Listed program.labels) := keeps_listed ht hbits
    refine ⟨_, ?_, @Keeps.instructions config.maxTier _ _ _ hkeeps _ (Nat.le_refl _) _ hbody⟩
    rw [expanded, stream, hprogram]
    rfl
  obtain ⟨body₁, hbody₁, hlisted₁⟩ := hexpanded
  obtain ⟨body₂, hbody₂, hlisted₂⟩ := Peephole.exists_apply_before settings needed hlisted₁
  have hlowered : lowered.program.instructions =
      { needed with maxRegister := highest }.before body₂ := by
    rw [hi, hbody₁, hbody₂, map_declare_before highest fun i hi => (hlisted₂ i hi).isNeed]
  have hchecked := (checked_of_lower hc hlt h).1
  rw [hlowered] at hchecked
  refine ⟨_, body₂, hlowered, hchecked.toWired, fun i hi => (hlisted₂ i hi).legible ht,
    fun i hi => (hlisted₂ i hi).isNeed, ?_, ?_, hram, ?_⟩
  · obtain ⟨index, hindex, hle⟩ := hchecked.registers
    have he : index = highest := by
      rcases List.mem_cons.1 hindex with he | hindex
      · cases he
        rfl
      rcases List.mem_cons.1 hindex with he | hindex
      · cases he
      · cases (hlisted₂ _ hindex).isNeed
    intro i hi j hj
    exact he ▸ hle i (Needs.mem_before hi) j hj
  · have hlimit := required_lt_of_lower h
    rw [hr] at hlimit
    exact Nat.lt_of_succ_lt hlimit
  · rintro l l' ⟨i, hi, hl⟩ ⟨i', hi', hl'⟩
    exact ht.written_eq_iff ((hlisted₂ i hi).labels l hl) ((hlisted₂ i' hi').labels l' hl')

end Lowering

/-! ## Assembled programs -/

namespace Statement

variable {raw : List Char} {text : String}

/-- A pragma is read again if there is a word right after its sign. -/
theorem hasText_of_ofLine? (hn : '\n' ∉ raw) (h : ofLine? raw = .ok (some (.pragma text)))
    (hsign : ∀ rest, content raw = '@' :: rest →
      ∃ c, rest.head? = some c ∧ separates c = false) : (Note.pragma text).HasText := by
  refine ⟨isLine_of_says_pragma hn (ofLine?_eq_some_iff.1 h), (ofLine?_written_iff h).2 ⟨?_, rfl⟩⟩
  rintro ⟨blank, rest, hrest, hblank, -⟩
  obtain ⟨c, hc, hsep⟩ := hsign _ hrest
  cases hc
  rw [isBlank_of_separates hsep] at hblank
  cases hblank

end Statement

namespace Source

variable {raws : List String} {ss : List Statement} {s : Statement} {program : Program}

/-- Statements whose names and texts can be written again. -/
structure Listed (ss : List Statement) : Prop where
  isWord : ∀ name, .label name ∈ ss → Statement.IsWord name.toList
  ne : ∀ name, .label name ∈ ss → ∀ id : Nat, name ≠ "__" ++ id.repr
  uses : ∀ name, .macroUse name ∈ ss → Text.IsLine name.toList
  pragmas : ∀ text, .pragma text ∈ ss → (Note.pragma text).HasText

theorem Listed.spelled (h : Listed ss) : ∀ s ∈ ss, s.Spelled := by
  intro s hs
  cases s with
  | label name => exact h.isWord name hs
  | macroUse name => exact h.uses name hs
  | pragma text => exact (h.pragmas text hs).1
  | _ => trivial

theorem Listed.legible {d : Discovery} (h : Listed ss)
    (hd : Discovery.ofLines (ss.map SourceLine.ofStatement) = .ok d) :
    d.scope.labels.Legible :=
  ⟨spelled_of_ofLines h.spelled hd, fun name l hl =>
    h.ne name (((Discovery.tracks_of_ofLines hd).labels name).1 (by rw [hl]; rfl))⟩

theorem Origin.number_lt {scope : Scope} {lines : List SourceLine} {i : Instruction}
    (h : Origin scope lines i) (hb : scope.Bounded) {n : Nat} (hn : .immediate n ∈ i.operands) :
    n < Word.limit := by
  cases h with
  | mark => cases List.mem_singleton.1 hn
  | operation _ _ hi =>
    obtain ⟨op, operands, rfl, -, htokens⟩ := Scope.exists_of_instruction hi
    obtain ⟨token, htoken⟩ := htokens _ hn
    rcases Scope.operand_eq_ok_iff.1 htoken with ⟨_, _, -, -, ⟨⟩⟩ | ⟨_, -, ⟨⟩⟩ | ⟨_, -, -, hv, ⟨⟩⟩
    exact Scope.value_lt hb hv
  | _ => exact absurd hn List.not_mem_nil

/-- What is assembled from such statements can be listed. -/
theorem Origin.listed {scope : Scope} {i : Instruction}
    (h : Origin scope (ss.map SourceLine.ofStatement) i) (hss : Listed ss) (hb : scope.Bounded) :
    i.Listed scope.labels := by
  have hmem {line : SourceLine} (hl : line ∈ ss.map SourceLine.ofStatement) :
      line.statement ∈ ss := by
    obtain ⟨s, hs, rfl⟩ := List.mem_map.1 hl
    exact hs
  refine ⟨(h.lined hss.spelled).labels, fun n => h.number_lt hb, fun n hn => ?_, ?_⟩
  · cases h with
    | mark =>
      cases hn
      trivial
    | pragma hl hs =>
      cases hn
      exact hss.pragmas _ (hs ▸ hmem hl)
    | macroBegin hl hs =>
      cases hn
      exact hss.uses _ (hs ▸ hmem hl)
    | macroEnd =>
      cases hn
      trivial
    | operation _ _ hi =>
      obtain ⟨op, operands, rfl, -⟩ := Scope.exists_of_instruction hi
      cases hn
  · cases h with
    | operation _ _ hi =>
      obtain ⟨op, operands, rfl, -⟩ := Scope.exists_of_instruction hi
      rfl
    | _ => rfl

/-- No statement asks for more RAM than a word can tell. -/
theorem minRam_lt_of_asks {scope : Scope} {asked : Needs} (hb : scope.Bounded)
    (h : scope.asks s = .ok asked) : asked.minRam < Word.limit := by
  have hmap {α : Type} {f : α → Needs} {x : Except LineError α} (hx : x.map f = .ok asked) :
      ∃ a, x = .ok a ∧ f a = asked := by
    cases x with
    | error => cases hx
    | ok a => exact ⟨a, rfl, Except.ok.inj hx⟩
  have hzero : 0 < Word.limit := by decide
  cases s with
  | minRam token =>
    obtain ⟨words, hw, rfl⟩ := hmap h
    exact Scope.value_lt hb hw
  | operation mnemonic tokens =>
    obtain ⟨i, -, rfl⟩ := hmap h
    exact hzero
  | minReg token =>
    obtain ⟨index, -, rfl⟩ := hmap h
    exact hzero
  | _ =>
    cases h
    exact hzero

theorem minRam_lt_of_needs {scope : Scope} {lines : List SourceLine} {needed : Needs}
    (hb : scope.Bounded) (h : needs scope lines = .ok needed) : needed.minRam < Word.limit := by
  have hself := @meets_needs_iff scope lines needed needed h
  have hmeets : Needs.Meets ⟨needed.maxRegister, Word.limit - 1⟩ needed := by
    refine (meets_needs_iff h).2 fun line hl asked ha => ⟨?_, ?_⟩
    · exact (hself.1 ⟨Nat.le_refl _, Nat.le_refl _⟩ line hl asked ha).1
    · exact Nat.le_sub_one_of_lt (minRam_lt_of_asks hb ha)
  exact Nat.lt_of_le_sub_one (by decide) hmeets.2

/-- A program of such statements can be listed. -/
theorem exists_before (h : ofStatements ss = .ok program) (hss : Listed ss) :
    program.labels.Legible ∧ ∃ (needed : Needs) (body : List Instruction),
      program.instructions = needed.before body ∧ needed.minRam < Word.limit ∧
        ∀ i ∈ body, i.Listed program.labels := by
  obtain ⟨d, needed, body, hd, hn, rfl, hbody⟩ := exists_origins h
  have hb := (Discovery.records_of_ofLines hd).values
  exact ⟨hss.legible hd, needed, body, rfl, minRam_lt_of_needs hb hn,
    fun i hi => (hbody i hi).listed hss hb⟩

/-- The statements of a text can be written again if its labels are not called like labels
    without names, and its directives begin right after their sign. -/
theorem listed_of_reads {text : String} (h : Reads (lines text) ss)
    (hnames : ∀ raw ∈ lines text, ∀ name, Statement.on? raw = some (.label name) →
      ∀ id : Nat, name ≠ "__" ++ id.repr)
    (hsigns : ∀ raw ∈ lines text, ∀ rest, Statement.content raw.toList = '@' :: rest →
      ∃ c, rest.head? = some c ∧ Statement.separates c = false) : Listed ss := by
  have hspelled := spelled_of_reads h
  refine ⟨fun name hs => hspelled _ hs, fun name hs => ?_, fun name hs => hspelled _ hs,
    fun pragma hs => ?_⟩
  · obtain ⟨raw, hraw, hline⟩ := h.exists_of_mem hs
    exact hnames raw hraw name (Statement.on?_eq_some_iff.2 hline)
  · obtain ⟨raw, hraw, hline⟩ := h.exists_of_mem hs
    exact Statement.hasText_of_ofLine? (newline_not_mem_lines hraw) hline (hsigns raw hraw)

end Source

/-! ## Listings of lowered programs -/

namespace Lowering

/-- The listing of a lowered program is the program, as far as a machine is concerned. If the
    labels of a text are not called like labels without names, and its directives begin right
    after their sign, then what the text is lowered to can be assembled from its listing: what
    is written for it stays the same, except for remarks, and so does what is loaded of it. -/
theorem assembleText_listing {text : String} {program : Program} {config : Config}
    {settings : Peephole} {lowered : Lowered} (h : Source.assembleText text = .ok program)
    (hnames : ∀ raw ∈ Source.lines text, ∀ name, Statement.on? raw = some (.label name) →
      ∀ id : Nat, name ≠ "__" ++ id.repr)
    (hsigns : ∀ raw ∈ Source.lines text, ∀ rest, Statement.content raw.toList = '@' :: rest →
      ∃ c, rest.head? = some c ∧ Statement.separates c = false)
    (hbits : config.wordBits < Word.limit)
    (hl : lower config settings program = .ok lowered) :
    ∃ reread, Source.assembleText (lowered.listing config) = .ok reread ∧
      reread.instructions.map render =
        (lowered.program.instructions.filter isListed).map render ∧
      ∀ {Bus : Type} (m : Machine Bus),
        m.load reread.instructions = m.load lowered.program.instructions := by
  obtain ⟨ss, hreads, hss⟩ := Source.assemble_eq_ok_iff.1 h
  obtain ⟨hlabels, needed, body, hprogram, hram, hbody⟩ :=
    Source.exists_before hss (Source.listed_of_reads hreads hnames hsigns)
  obtain ⟨hchecked, hmarks⟩ := Source.checked_of_assemble h
  obtain ⟨needed', body', hlowered, hlistable⟩ := exists_listable hlabels hprogram hbody hram
    hchecked (fun id hid => List.mem_range.1 (hmarks ▸ hid)) hbits hl
  obtain ⟨title, htitle, hlisting⟩ := exists_title config lowered
  rw [hlisting, hlowered]
  exact hlistable.exists_assembleText htitle

/-- A text with a pragma and a label, in which a number is halved and shown until nothing is
    left of it. -/
def halvingAloud : String := "@aloud\n.halve\nDIV R1, R1, 2\nOUT 0, R1\nBNZ .halve"

/-- A program that divides, with a pragma, is assembled again from the listing of what it is lowered
    to, and loads as this does. -/
theorem assembleText_listing_halvingAloud :
    Source.assembleText halvingAloud = .ok (Source.assembled halvingAloud) ∧
      ∃ lowered reread,
        lower { maxTier := .core } .standard (Source.assembled halvingAloud) = .ok lowered ∧
        Source.assembleText (lowered.listing { maxTier := .core }) = .ok reread ∧
        reread.instructions.map render =
          (lowered.program.instructions.filter isListed).map render ∧
        ∀ {Bus : Type} (m : Machine Bus),
        m.load reread.instructions = m.load lowered.program.instructions := by
  have h : Source.assembleText halvingAloud = .ok (Source.assembled halvingAloud) :=
    eq_ok_of_isOk (by decide +kernel) _
  have hl := lower_eq_ok_lowering
    (show (lower { maxTier := .core } .standard (Source.assembled halvingAloud)).isOk = true by
      decide +kernel)
  have hname : ∀ raw ∈ Source.lines halvingAloud, ∀ name,
      Statement.on? raw = some (.label name) → ∀ id : Nat, name ≠ "__" ++ id.repr := by
    have hlabels : ∀ s ∈ (Source.lines halvingAloud).filterMap Statement.on?,
        s.label? = none ∨ s.label? = some "halve" := by
      decide +kernel
    intro raw hraw name hon id he
    rcases hlabels _ (List.mem_filterMap.2 ⟨raw, hraw, hon⟩) with hnone | hhalve
    · cases hnone
    · rw [he, Statement.label?, Option.some.injEq, ← String.toList_inj,
        String.toList_append] at hhalve
      cases hhalve
  have hsign : ∀ raw ∈ Source.lines halvingAloud, ∀ rest,
      Statement.content raw.toList = '@' :: rest →
      ∃ c, rest.head? = some c ∧ Statement.separates c = false := by
    have hcontents : ∀ text ∈ (Source.lines halvingAloud).map (Statement.content ·.toList),
        text.head? ≠ some '@' ∨ text.tail.head? = some 'a' := by
      decide +kernel
    intro raw hraw rest hrest
    rcases hcontents _ (List.mem_map.2 ⟨raw, hraw, rfl⟩) with hhead | hhead
    · rw [hrest] at hhead
      exact absurd rfl hhead
    · rw [hrest] at hhead
      exact ⟨'a', hhead, rfl⟩
  obtain ⟨reread, hreread⟩ := assembleText_listing h hname hsign (by decide) hl
  exact ⟨h, _, reread, hl, hreread⟩

end Lowering
end Wordcode
