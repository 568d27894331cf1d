import Wordcode.Proofs.Macros

/-!
# The program of a text

To which program a text is assembled, said of what its lines say, without the passes that find it.
The stream begins with the registers and the memory that the text asks for, in whatever line it
does so. After them, each line outside of macros has written its instructions, in the order of the
lines: a label is placed, a pragma is kept, an operation is an instruction, and a line that uses a
macro writes what the lines of the macro write, between two notes. Names stand for what the whole
text says of them, wherever they are used.

* `Source.StandsFor`, `Source.Means`: the numbers and operands that tokens stand for;
* `Source.Becomes`: what a line outside of macros writes;
* `Source.Translates`: the program that a text stands for;
* `Source.assemble_eq_ok_iff_translates`: a text is assembled to the program it stands for.
-/

namespace Wordcode

open Instruction

namespace Source

/-! ## What a text stands for -/

/-- The number that a token stands for: that of a numeral, or the one that has this name. -/
inductive StandsFor (ss : List Statement) : String → Nat → Prop
  | numeral {token : String} {value : Nat} : Text.literal? token.toList = some value →
      StandsFor ss token value
  | name {token definition : String} {value : Nat} : Text.literal? token.toList = none →
      Text.startsWithDigit token.toList = false → .valueMacro token definition ∈ ss →
      StandsFor ss definition value → StandsFor ss token value

/-- The operand that a token stands for. The identity of a label is its place among the labels of
    the text. -/
inductive Means (ss : List Statement) (token : String) : Operand → Prop
  | label {name : String} {id : Nat} : token = "." ++ name →
      (ss.filterMap Statement.label?)[id]? = some name → Means ss token (.label ⟨id, some name⟩)
  | register {index : Nat} : Scope.register? token.toList = some index →
      Means ss token (.register index)
  | immediate {value : Nat} : token.toList.head? ≠ some '.' →
      Scope.register? token.toList = none → StandsFor ss token value →
      Means ss token (.immediate value)

/-- What a line writes that uses no macro. -/
inductive Writes (ss : List Statement) : Statement → List Instruction → Prop
  | label {name : String} {id : Nat} : (ss.filterMap Statement.label?)[id]? = some name →
      Writes ss (.label name) [.note (.markLabel ⟨id, some name⟩)]
  | pragma (text : String) : Writes ss (.pragma text) [.note (.pragma text)]
  | operation {mnemonic : String} {tokens : List String} {op : Opcode} {operands : List Operand} :
      Opcode.ofMnemonic? mnemonic = some op → List.Forall₂ (Means ss) tokens operands →
      (code op operands).WellFormed → Writes ss (.operation mnemonic tokens) [.code op operands]
  | minRam (token : String) : Writes ss (.minRam token) []
  | minReg (token : String) : Writes ss (.minReg token) []

/-- What a line outside of macros writes. -/
inductive Becomes (ss : List Statement) : Statement → List Instruction → Prop
  | plain {s : Statement} {stream : List Instruction} : Writes ss s stream → Becomes ss s stream
  | macroUse {name : String} {streams : List (List Instruction)} : .macroBegin name ∈ ss →
      List.Forall₂ (Writes ss) (body name ss) streams →
      Becomes ss (.macroUse name)
        (.note (.macroBegin name) :: streams.flatten ++ [.note .macroEnd])

/-- The lines outside of macros, without those that give names to values. The first line may stand
    inside of one. -/
def written : (inside : Bool) → List Statement → List Statement
  | _, [] => []
  | _, .macroBegin _ :: ss => written true ss
  | _, .macroEnd :: ss => written false ss
  | inside, .valueMacro _ _ :: ss => written inside ss
  | inside, s :: ss => if inside then written inside ss else s :: written inside ss

/-- Needs that cover the registers that the operations of a text name, also in macros that are not
    used, and all that it requests. -/
structure Suffices (ss : List Statement) (n : Needs) : Prop where
  registers : ∀ mnemonic tokens, .operation mnemonic tokens ∈ ss → ∀ token ∈ tokens, ∀ index,
    Scope.register? token.toList = some index → index ≤ n.maxRegister
  minReg : ∀ token, .minReg token ∈ ss → ∀ index, StandsFor ss token index → index ≤ n.maxRegister
  minRam : ∀ token, .minRam token ∈ ss → ∀ words, StandsFor ss token words → words ≤ n.minRam

/-- The program that a text stands for. It begins with the least needs that suffice. -/
structure Translates (ss : List Statement) (program : Program) : Prop where
  labels : program.labels = (ss.filterMap Statement.label?).foldl LabelTable.define {}
  instructions : ∃ needed streams, (∀ n : Needs, n.Meets needed ↔ Suffices ss n) ∧
    List.Forall₂ (Becomes ss) (written false ss) streams ∧
    program.instructions = .note (.maxReg needed.maxRegister) ::
      .note (.minRam needed.minRam) :: streams.flatten

variable {ss : List Statement} {s : Statement}

theorem written_cons_of_isPlain (h : s.isPlain = true) (inside : Bool) :
    written inside (s :: ss) = if inside then written inside ss else s :: written inside ss := by
  rcases s with _ | _ | _ | _ | _ | _ | _ | _ | _ <;> first | rfl | cases h

/-- A line outside of macros uses a macro or defines a label, or may stand in a macro too. -/
theorem cases_of_mem_written {inside : Bool} (h : s ∈ written inside ss) :
    (∃ name, s = .macroUse name) ∨ (∃ name, s = .label name) ∨ s.isPlain = true := by
  induction ss generalizing inside with
  | nil => cases h
  | cons first ss ih =>
    rcases first with _ | _ | _ | _ | _ | _ | _ | _ | _
    case macroBegin | macroEnd | valueMacro => exact ih h
    all_goals
      cases inside
      · rcases List.mem_cons.1 h with rfl | h
        · simp [Statement.isPlain]
        · exact ih h
      · exact ih h

theorem becomes_iff_writes {stream : List Instruction} (h : ∀ name, s ≠ .macroUse name) :
    Becomes ss s stream ↔ Writes ss s stream := by
  refine ⟨fun hs => ?_, .plain⟩
  cases hs with
  | plain hs => exact hs
  | macroUse => exact absurd rfl (h _)

theorem Means.register_iff {token : String} {x : Operand} (h : Means ss token x) {index : Nat} :
    .register index = x ↔ Scope.register? token.toList = some index := by
  cases h with
  | label ht =>
    have hnone : Scope.register? token.toList = none := by
      rw [ht, String.toList_append]
      rfl
    simp [hnone]
  | register hr => simp [hr, eq_comm]
  | immediate _ hr => simp [hr]

/-- The registers that tokens name are those among their operands. -/
theorem register_mem_iff {tokens : List String} {operands : List Operand}
    (h : List.Forall₂ (Means ss) tokens operands) {index : Nat} :
    .register index ∈ operands ↔
      ∃ token ∈ tokens, Scope.register? token.toList = some index := by
  induction h with
  | nil => simp
  | cons hx _ ih => rw [List.mem_cons, hx.register_iff, ih, List.exists_mem_cons_iff]

end Source

/-! ## The numbers of tokens -/

theorem Statement.eq_of_value? {ss : List Statement} {s s' : Statement} {name : String}
    (h : (ss.filterMap value?).Nodup) (hs : s ∈ ss) (hs' : s' ∈ ss) (hn : s.value? = some name)
    (hn' : s'.value? = some name) : s = s' := by
  induction ss with
  | nil => cases hs
  | cons first ss ih => grind

namespace Source.StandsFor

variable {ss ss' : List Statement} {token : String} {value value' : Nat}

theorem mono (h : StandsFor ss token value) (hss : ss ⊆ ss') : StandsFor ss' token value := by
  induction h with
  | numeral hl => exact .numeral hl
  | name hl hd hmem _ ih => exact .name hl hd (hss hmem) ih

theorem numeric (h : StandsFor ss token value) : Numeric (ss.filterMap Statement.value?) token := by
  cases h with
  | numeral hl => exact .inl (by rw [hl]; rfl)
  | name _ hd hmem => exact .inr ⟨hd, List.mem_filterMap.2 ⟨_, hmem, rfl⟩⟩

/-- A token stands for one number only, if no two values have the same name. -/
theorem unique (hn : (ss.filterMap Statement.value?).Nodup) (h : StandsFor ss token value)
    (h' : StandsFor ss token value') : value = value' := by
  induction h with
  | numeral hl =>
    cases h' with
    | numeral hl' => exact Option.some.inj (hl.symm.trans hl')
    | name hl' => cases hl.symm.trans hl'
  | name hl _ hmem _ ih =>
    cases h' with
    | numeral hl' => cases hl.symm.trans hl'
    | name _ _ hmem' hv' =>
      cases Statement.eq_of_value? hn hmem hmem' rfl rfl
      exact ih hv'

end Source.StandsFor

/-! ## What the first pass has collected -/

namespace LabelTable

@[simp] theorem nextId_foldl_define (names : List String) :
    (names.foldl define {}).nextId = names.length := by
  induction names using List.reverseRecOn with
  | nil => rfl
  | append_singleton names name ih => simp [define, ih]

/-- Labels that are defined one after the other are numbered by their places. -/
theorem lookup_foldl_define_iff {names : List String} (h : names.Nodup) {name : String}
    {label : Label} :
    (names.foldl define {}).lookup name = some label ↔
      ∃ id : Nat, names[id]? = some name ∧ label = ⟨id, some name⟩ := by
  induction names using List.reverseRecOn with
  | nil => simp [lookup]
  | append_singleton names last ih =>
    obtain ⟨hnames, -, hlast⟩ := List.nodup_append'.1 h
    rw [List.disjoint_singleton] at hlast
    rw [List.foldl_append, List.foldl_cons, List.foldl_nil, lookup_define, nextId_foldl_define]
    split
    · next hn =>
      subst hn
      have hplace (id : Nat) : (names ++ [name])[id]? = some name ↔ id = names.length := by
        have := @List.mem_of_getElem? _ names id name
        grind
      simp only [hplace, exists_eq_left, Option.some.injEq, eq_comm]
    · next hn =>
      have hplace (id : Nat) : (names ++ [last])[id]? = some name ↔ names[id]? = some name := by
        grind
      simp only [ih hnames, hplace]

end LabelTable

namespace Discovery

open Source

variable {before ss : List Statement} {d d' : Discovery} {s : Statement}

/-- What is collected of these statements, in terms of what they stand for. -/
structure Collects (before : List Statement) (d : Discovery) : Prop where
  labels : d.scope.labels = (before.filterMap Statement.label?).foldl LabelTable.define {}
  values : ∀ name value, d.scope.values.lookup name = some value →
    ∃ token, .valueMacro name token ∈ before ∧ StandsFor before token value
  outside : ∀ rest, written false (before ++ rest) =
    d.outside.map SourceLine.statement ++ written d.pending.isSome rest

namespace Collects

theorem nil : Collects [] {} where
  labels := rfl
  values _ _ h := by cases h
  outside _ := rfl

/-- A value that is collected is a number that its token stands for. -/
theorem standsFor (h : Collects before d) {token : String} {value : Nat}
    (hv : d.scope.value token = .ok value) : StandsFor before token value := by
  rcases Scope.value_eq_ok_iff.1 hv with hl | ⟨hl, hd, hlookup⟩
  · exact .numeral hl
  · obtain ⟨definition, hmem, hs⟩ := h.values _ _ hlookup
    exact .name hl hd hmem hs

/-- One more statement is collected if the tables have what they had and what it adds. -/
theorem concat (h : Collects before d)
    (hlabels : d'.scope.labels =
      (s.label?.toList).foldl LabelTable.define d.scope.labels)
    (hvalues : ∀ name value, d'.scope.values.lookup name = some value →
      d.scope.values.lookup name = some value ∨
        ∃ token, s = .valueMacro name token ∧ d.scope.value token = .ok value)
    (houtside : ∀ rest, d.outside.map SourceLine.statement ++
        written d.pending.isSome (s :: rest) =
      d'.outside.map SourceLine.statement ++ written d'.pending.isSome rest) :
    Collects (before ++ [s]) d' where
  labels := by
    rw [hlabels, h.labels, List.filterMap_append, List.foldl_append]
    cases hs : s.label? <;> simp [hs]
  values name value hlookup := by
    have hmore : before ⊆ before ++ [s] := List.subset_append_left _ _
    rcases hvalues name value hlookup with hold | ⟨token, rfl, hv⟩
    · obtain ⟨token, hmem, hs⟩ := h.values name value hold
      exact ⟨token, hmore hmem, hs.mono hmore⟩
    · exact ⟨token, by simp, (h.standsFor hv).mono hmore⟩
  outside rest := by
    rw [List.append_assoc, List.singleton_append, h.outside, houtside]

/-- A line that is taken is collected with those before it. -/
theorem takes (h : Collects before d) (ht : d.Takes (.ofStatement s) d') :
    Collects (before ++ [s]) d' := by
  cases ht with
  | begin hs hp =>
    cases hs
    exact h.concat rfl (fun _ _ => .inl) fun rest => by simp [written]
  | finish hs hm =>
    cases hs
    exact h.concat rfl (fun _ _ => .inl) fun rest => by simp [written]
  | label hs hp =>
    cases hs
    exact h.concat rfl (fun _ _ => .inl) fun rest => by simp [written, hp]
  | @value name token value hs hp hv =>
    cases hs
    refine h.concat rfl (fun other value' hlookup => ?_) fun rest => by simp [written]
    rcases lookup_cons_cases hlookup with ⟨rfl, rfl⟩ | hlookup
    · exact .inr ⟨token, rfl, hv⟩
    · exact .inl hlookup
  | use hs hp =>
    cases hs
    exact h.concat rfl (fun _ _ => .inl) fun rest => by simp [written, hp]
  | inside hs hm =>
    replace hs : s.isPlain = true := hs
    have hnone := Statement.label?_eq_none_of_isPlain hs
    refine h.concat (by rw [hnone]; rfl) (fun _ _ => .inl) fun rest => ?_
    simp [written_cons_of_isPlain hs, hm]
  | outside hs hp =>
    replace hs : s.isPlain = true := hs
    have hnone := Statement.label?_eq_none_of_isPlain hs
    refine h.concat (by rw [hnone]; rfl) (fun _ _ => .inl) fun rest => ?_
    simp [written_cons_of_isPlain hs, hp]

end Collects

theorem collects_of_ofLines (hd : ofLines (ss.map SourceLine.ofStatement) = .ok d) :
    Collects ss d :=
  of_foldlM (P := Collects) (fun _ _ _ _ h ht => h.takes ht) .nil (ofLines_eq_ok_iff.1 hd).1

end Discovery

/-! ## What is looked up is what is meant -/

theorem forall₂_congr_of_mem {α β : Type} {r q : α → β → Prop} {xs : List α} {ys : List β}
    (h : ∀ x ∈ xs, ∀ y, r x y ↔ q x y) : List.Forall₂ r xs ys ↔ List.Forall₂ q xs ys := by
  induction xs generalizing ys with
  | nil => rw [List.forall₂_nil_left_iff, List.forall₂_nil_left_iff]
  | cons x xs ih =>
    rw [List.forall_mem_cons] at h
    simp only [List.forall₂_cons_left_iff, h.1, ih h.2]

namespace Source

theorem written_eq {ss : List Statement} {d : Discovery}
    (hd : Discovery.ofLines (ss.map SourceLine.ofStatement) = .ok d) :
    written false ss = d.outside.map SourceLine.statement := by
  have h := (Discovery.collects_of_ofLines hd).outside []
  rwa [written, List.append_nil, List.append_nil] at h

variable {ss : List Statement} {d : Discovery} {token mnemonic : String} {tokens : List String}

section

variable (hd : Discovery.ofLines (ss.map SourceLine.ofStatement) = .ok d) (hss : Coherent ss)

include hd hss

/-- The value of a token is the number it stands for. -/
theorem value_eq_ok_iff {value : Nat} :
    d.scope.value token = .ok value ↔ StandsFor ss token value := by
  have hcollects := Discovery.collects_of_ofLines hd
  constructor
  · exact hcollects.standsFor
  · intro h
    have htracks := Discovery.tracks_of_ofLines hd
    obtain ⟨value', hv⟩ := (Scope.exists_value_iff htracks.values).2 h.numeric
    rwa [h.unique hss.values (hcollects.standsFor hv)]

theorem lookup_labels_eq_some_iff {name : String} {label : Label} :
    d.scope.labels.lookup name = some label ↔
      ∃ id : Nat, (ss.filterMap Statement.label?)[id]? = some name ∧ label = ⟨id, some name⟩ := by
  rw [(Discovery.collects_of_ofLines hd).labels, LabelTable.lookup_foldl_define_iff hss.labels]

/-- The operand that a token is read as is the one it stands for. -/
theorem operand_eq_ok_iff {x : Operand} : d.scope.operand token = .ok x ↔ Means ss token x := by
  simp only [Scope.operand_eq_ok_iff, value_eq_ok_iff hd hss, lookup_labels_eq_some_iff hd hss]
  constructor
  · rintro (⟨name, _, rfl, ⟨id, hid, rfl⟩, rfl⟩ | ⟨index, hr, rfl⟩ | ⟨value, hdot, hr, hv, rfl⟩)
    · exact .label rfl hid
    · exact .register hr
    · exact .immediate hdot hr hv
  · intro h
    cases h with
    | label ht hid => exact .inl ⟨_, _, ht, ⟨_, hid, rfl⟩, rfl⟩
    | register hr => exact .inr (.inl ⟨_, hr, rfl⟩)
    | immediate hdot hr hv => exact .inr (.inr ⟨_, hdot, hr, hv, rfl⟩)

/-- An operation is read as the opcode and the operands that its tokens stand for. -/
theorem instruction_eq_ok_iff {i : Instruction} :
    d.scope.instruction mnemonic tokens = .ok i ↔
      ∃ op operands, Opcode.ofMnemonic? mnemonic = some op ∧
        List.Forall₂ (Means ss) tokens operands ∧ i = .code op operands ∧ i.WellFormed := by
  simp only [Scope.instruction_eq_ok_iff, operand_eq_ok_iff hd hss]

/-- What the third pass writes for a line that uses no macro. -/
theorem plain_eq_ok_iff {line : SourceLine} {stream : List Instruction}
    (hl : (∃ name, line.statement = .label name) ∨ line.statement.isPlain = true) :
    plain d.scope line = .ok stream ↔ Writes ss line.statement stream := by
  rw [plain, SourceLine.blame_eq_ok_iff]
  rcases hs : line.statement with name | _ | _ | _ | _ | token | token | text | ⟨mnemonic, tokens⟩
  case label =>
    constructor
    · intro h
      dsimp only at h
      split at h
      · next label hlabel =>
        obtain ⟨id, hid, rfl⟩ := (lookup_labels_eq_some_iff hd hss).1 hlabel
        cases h
        exact .label hid
      · cases h
    · rintro ⟨hid⟩
      simp only [(lookup_labels_eq_some_iff hd hss).2 ⟨_, hid, rfl⟩]
      rfl
  case operation =>
    simp only [bind_eq_ok_iff, instruction_eq_ok_iff hd hss]
    constructor
    · rintro ⟨_, ⟨op, operands, hop, htokens, rfl, hw⟩, h⟩
      cases h
      exact .operation hop htokens hw
    · rintro ⟨⟩
      exact ⟨_, ⟨_, _, ‹_›, ‹_›, rfl, ‹_›⟩, rfl⟩
  case pragma | minRam | minReg =>
    constructor
    · rintro ⟨⟩
      constructor
    · rintro ⟨⟩
      rfl
  -- the others are neither labels nor may they stand in a macro
  all_goals simp [hs, Statement.isPlain] at hl

/-- What the third pass writes for a line that uses a macro. -/
theorem emit_macroUse_eq_ok_iff {line : SourceLine} {name : String} {stream : List Instruction}
    (hl : line.statement = .macroUse name) :
    emit d.scope line = .ok stream ↔ Becomes ss (.macroUse name) stream := by
  have hdefined := @Discovery.isSome_lookup_macros_iff d ss name hd
  have hbody {lines : List SourceLine} (hlookup : d.scope.macros.lookup name = some lines)
      {streams : List (List Instruction)} :
      lines.mapM (plain d.scope) = .ok streams ↔
        List.Forall₂ (Writes ss) (body name ss) streams := by
    obtain ⟨after, hbegun⟩ := (Discovery.records_of_ofLines hd).macros name lines hlookup
    rw [hbegun.body_eq, mapM_eq_ok_iff, List.forall₂_map_left_iff]
    exact forall₂_congr_of_mem fun line hline _ =>
      plain_eq_ok_iff hd hss (.inr (hbegun.1 line hline))
  rw [emit, hl]
  dsimp only
  constructor
  · intro h
    split at h
    · next lines hlookup =>
      obtain ⟨streams, hstreams, h⟩ := bind_eq_ok_iff.1 h
      cases h
      exact .macroUse (hdefined.1 (by rw [hlookup]; rfl)) ((hbody hlookup).1 hstreams)
    · cases h
  · intro h
    cases h with
    | plain h => cases h
    | @macroUse _ streams hbegin hstreams =>
      obtain ⟨lines, hlookup⟩ := Option.isSome_iff_exists.1 (hdefined.2 hbegin)
      rw [hlookup]
      exact bind_eq_ok_iff.2 ⟨streams, (hbody hlookup).2 hstreams, rfl⟩

/-- What the third pass writes for a line. -/
theorem emit_eq_ok_iff {line : SourceLine} {stream : List Instruction} (hl : line ∈ d.outside) :
    emit d.scope line = .ok stream ↔ Becomes ss line.statement stream := by
  have hmem := List.mem_map_of_mem (f := SourceLine.statement) hl
  rw [← written_eq hd] at hmem
  rcases cases_of_mem_written hmem with ⟨name, hs⟩ | hs
  · rw [hs]
    exact emit_macroUse_eq_ok_iff hd hss hs
  · have huse (name : String) : line.statement ≠ .macroUse name := by
      rintro he
      simp [he, Statement.isPlain] at hs
    rw [emit_of_not_macroUse huse, plain_eq_ok_iff hd hss hs, becomes_iff_writes huse]

/-- What the third pass writes for all lines outside of macros. -/
theorem forall₂_emit_iff {streams : List (List Instruction)} :
    List.Forall₂ (fun line stream => emit d.scope line = .ok stream) d.outside streams ↔
      List.Forall₂ (Becomes ss) (written false ss) streams := by
  rw [written_eq hd, List.forall₂_map_left_iff]
  exact forall₂_congr_of_mem fun line hl _ => emit_eq_ok_iff hd hss hl

/-- What the second pass finds is needed. -/
theorem meets_needs_iff_suffices {needed n : Needs}
    (hn : needs d.scope (ss.map SourceLine.ofStatement) = .ok needed) :
    n.Meets needed ↔ Suffices ss n := by
  have hasks := exists_needs_iff.1 ⟨needed, hn⟩
  simp only [meets_needs_iff hn, List.forall_mem_map, SourceLine.statement_ofStatement]
  constructor
  · intro h
    refine ⟨fun mnemonic tokens hs token ht index hr => ?_, fun token hs index hv => ?_,
      fun token hs words hv => ?_⟩
    · obtain ⟨_, ha⟩ := hasks _ (List.mem_map_of_mem hs)
      obtain ⟨i, hi, rfl⟩ := map_eq_ok_iff.1 ha
      have hle := highestRegister?_le_iff.1 (h _ hs _ ha).1
      obtain ⟨op, operands, -, htokens, rfl, -⟩ := (instruction_eq_ok_iff hd hss).1 hi
      exact hle index ((register_mem_iff htokens).2 ⟨token, ht, hr⟩)
    · have := h _ hs ⟨index, 0⟩ (by rw [Scope.asks, (value_eq_ok_iff hd hss).2 hv]; rfl)
      exact this.1
    · have := h _ hs ⟨0, words⟩ (by rw [Scope.asks, (value_eq_ok_iff hd hss).2 hv]; rfl)
      exact this.2
  · intro h s hs asked ha
    rcases s with _ | _ | _ | _ | _ | token | token | _ | ⟨mnemonic, tokens⟩
    case minRam =>
      obtain ⟨words, hv, rfl⟩ := map_eq_ok_iff.1 ha
      exact ⟨Nat.zero_le _, h.minRam token hs words ((value_eq_ok_iff hd hss).1 hv)⟩
    case minReg =>
      obtain ⟨index, hv, rfl⟩ := map_eq_ok_iff.1 ha
      exact ⟨h.minReg token hs index ((value_eq_ok_iff hd hss).1 hv), Nat.zero_le _⟩
    case operation =>
      obtain ⟨i, hi, rfl⟩ := map_eq_ok_iff.1 ha
      obtain ⟨op, operands, -, htokens, rfl, -⟩ := (instruction_eq_ok_iff hd hss).1 hi
      refine ⟨highestRegister?_le_iff.2 fun index hindex => ?_, Nat.zero_le _⟩
      obtain ⟨token, ht, hr⟩ := (register_mem_iff htokens).1 hindex
      exact h.registers mnemonic tokens hs token ht index hr
    all_goals
      cases ha
      exact Needs.meets_empty n

end

/-! ## All passes -/

/-- The program of statements that fit together is the one that they stand for. -/
theorem ofStatements_eq_ok_iff_translates {program : Program} :
    ofStatements ss = .ok program ↔ Coherent ss ∧ Translates ss program := by
  constructor
  · intro h
    have hss := exists_ofStatements_iff.1 ⟨program, h⟩
    obtain ⟨d, needed, streams, hd, hn, hstreams, rfl⟩ := ofStatements_eq_ok_iff.1 h
    exact ⟨hss, (Discovery.collects_of_ofLines hd).labels, needed, streams,
      fun n => meets_needs_iff_suffices hd hss hn, (forall₂_emit_iff hd hss).1 hstreams, rfl⟩
  · rintro ⟨hss, hlabels, needed, streams, hneeded, hstreams, hinstructions⟩
    obtain ⟨_, h⟩ := exists_ofStatements_iff.2 hss
    obtain ⟨d, needed', _, hd, hn, -, -⟩ := ofStatements_eq_ok_iff.1 h
    refine ofStatements_eq_ok_iff.2
      ⟨d, needed, streams, hd, ?_, (forall₂_emit_iff hd hss).2 hstreams, ?_⟩
    · have : needed' = needed := Needs.eq_of_meets_iff fun n => by
        rw [meets_needs_iff_suffices hd hss hn, hneeded]
      rwa [← this]
    · rw [(Discovery.collects_of_ofLines hd).labels, ← hlabels, ← hinstructions]

/-- **To which program a text is assembled**: each line that is not blank says something, what the
    lines say fits together, and the program is what the text stands for. -/
theorem assemble_eq_ok_iff_translates {lines : List String} {program : Program} :
    assemble lines = .ok program ↔
      ∃ ss, List.Forall₂ Statement.Says (contents lines) ss ∧ Coherent ss ∧
        Translates ss program := by
  simp only [assemble_eq_ok_iff, reads_iff, ofStatements_eq_ok_iff_translates]

end Source
end Wordcode
