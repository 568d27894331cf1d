import Wordcode.Proofs.Grammar

/-!
# The language of assembly texts

Which texts are assembled, said without assembling them. Each line that is not blank must say
something (`Statement.Says`), and what the lines say must fit together (`Source.Coherent`):
macros begin and end in turn, names are defined once, and what is named is defined, a value
that is given to another name earlier in the text and everything else anywhere.

The first pass is followed line by line. What it has collected so far is known from the lines
so far (`Discovery.Tracks`), so what it asks of the next line can be said in terms of these
(`Source.Admits`); asked of every line, this is the order that the language prescribes
(`Source.forall_admits_iff`). The other two passes only look names up.

* `Discovery.exists_ofLines_iff`: when the first pass succeeds;
* `Source.exists_needs_iff`, `Source.exists_forall₂_emit_iff`: when the others succeed after it;
* `Source.exists_assemble_iff`: the texts that are assembled are those of the language.
-/

namespace Wordcode

/-! ## What lines say together -/

namespace Statement

/-- Whether a statement begins or ends a macro. -/
def isBound : Statement → Bool
  | .macroBegin _ | .macroEnd => true
  | _ => false

/-- Whether a statement defines a label or a value or uses a macro, and so stands outside of
    macros. -/
def isOuter : Statement → Bool
  | .label _ | .valueMacro _ _ | .macroUse _ => true
  | _ => false

/-- The name that a statement gives to a value. -/
def value? : Statement → Option String
  | .valueMacro name _ => some name
  | _ => none

/-- The beginning and the end of a macro. -/
def bounds (name : String) : List Statement := [.macroBegin name, .macroEnd]

end Statement

namespace Source

/-- After these statements a macro has begun that has not ended. -/
def Inside (before : List Statement) : Prop :=
  ∃ pre name mid, before = pre ++ .macroBegin name :: mid ∧ .macroEnd ∉ mid

/-- A token stands for a number: it is a numeral, or else one of these names, which no digit
    begins. -/
def Numeric (names : List String) (token : String) : Prop :=
  (Text.literal? token.toList).isSome = true ∨
    Text.startsWithDigit token.toList = false ∧ token ∈ names

/-- The kind of operand that a token stands for in a text. -/
inductive Denotes (ss : List Statement) (token : String) : OperandKind → Prop
  | label {name : String} : token = "." ++ name → .label name ∈ ss → Denotes ss token .label
  | register {index : Nat} : Scope.register? token.toList = some index →
      Denotes ss token .register
  | immediate : token.toList.head? ≠ some '.' → Scope.register? token.toList = none →
      Numeric (ss.filterMap Statement.value?) token → Denotes ss token .immediate

/-- What the lines of a text say fits together. -/
structure Coherent (ss : List Statement) : Prop where
  /-- Macros begin and end in turn, and no two have the same name. -/
  bounds : ∃ names : List String, names.Nodup ∧
    ss.filter Statement.isBound = names.flatMap Statement.bounds
  /-- Nothing is defined and no macro is used in a macro. -/
  bodies : ∀ before s after, ss = before ++ s :: after → Inside before → s.isOuter = false
  labels : (ss.filterMap Statement.label?).Nodup
  values : (ss.filterMap Statement.value?).Nodup
  /-- A value is a number, or has a name that was defined before. -/
  resolved : ∀ before name token after, ss = before ++ .valueMacro name token :: after →
    Numeric (before.filterMap Statement.value?) token
  /-- An operation is known, and its operands are of the kinds it accepts. -/
  operations : ∀ mnemonic tokens, .operation mnemonic tokens ∈ ss →
    ∃ op, Opcode.ofMnemonic? mnemonic = some op ∧
      List.Forall₂ (fun token kinds => ∃ kind, Denotes ss token kind ∧ kinds.allows kind = true)
        tokens op.slots
  /-- What is asked for is a number. -/
  requests : ∀ token, .minRam token ∈ ss ∨ .minReg token ∈ ss →
    Numeric (ss.filterMap Statement.value?) token
  /-- A macro that is used is defined. -/
  uses : ∀ name, .macroUse name ∈ ss → .macroBegin name ∈ ss

/-! ## The first pass, line by line -/

/-- What the first pass asks of a statement after those before it. -/
def Admits (before : List Statement) : Statement → Prop
  | .macroBegin name => ¬Inside before ∧ .macroBegin name ∉ before
  | .macroEnd => Inside before
  | .label name => ¬Inside before ∧ .label name ∉ before
  | .valueMacro name token => ¬Inside before ∧ name ∉ before.filterMap Statement.value? ∧
      Numeric (before.filterMap Statement.value?) token
  | .macroUse _ => ¬Inside before
  | _ => True

variable {before ss : List Statement} {s : Statement} {token name : String}

theorem inside_nil : ¬Inside [] := by
  rintro ⟨pre, name, mid, h, -⟩
  simp at h

/-- A macro is open after a statement that begins one, and after any other if it was before, but for
    the end. -/
theorem inside_concat_iff :
    Inside (before ++ [s]) ↔ (∃ name, s = .macroBegin name) ∨ s ≠ .macroEnd ∧ Inside before := by
  constructor
  · rintro ⟨pre, name, mid, h, hmid⟩
    rcases List.eq_nil_or_concat mid with rfl | ⟨mid, last, rfl⟩
    · exact .inl ⟨name, by simpa using (List.append_inj' h rfl).2⟩
    · rw [List.concat_eq_append, ← List.cons_append, ← List.append_assoc] at h
      obtain ⟨hbefore, hlast⟩ := List.append_inj' h rfl
      simp only [List.concat_eq_append, List.mem_append, List.mem_singleton, not_or] at hmid
      refine .inr ⟨?_, pre, name, mid, hbefore, hmid.1⟩
      rw [List.singleton_inj.1 hlast]
      exact Ne.symm hmid.2
  · rintro (⟨name, rfl⟩ | ⟨hs, pre, name, mid, rfl, hmid⟩)
    · exact ⟨before, name, [], rfl, List.not_mem_nil⟩
    · refine ⟨pre, name, mid ++ [s], by simp, ?_⟩
      simp [hmid, Ne.symm hs]

theorem value?_eq_none_of_isPlain (h : s.isPlain = true) : s.value? = none := by
  rcases s with _ | _ | _ | _ | _ | _ | _ | _ | _ <;> first | rfl | cases h

theorem admits_of_isPlain (h : s.isPlain = true) : Admits before s := by
  rcases s with _ | _ | _ | _ | _ | _ | _ | _ | _ <;> trivial

end Source

namespace Scope

open Source

/-- A token has a value if it stands for a number. -/
theorem exists_value_iff {scope : Scope} {names : List String} {token : String}
    (h : ∀ name, (scope.values.lookup name).isSome = true ↔ name ∈ names) :
    (∃ value, scope.value token = .ok value) ↔ Numeric names token := by
  simp only [value_eq_ok_iff, Numeric, ← h token, exists_or, exists_and_left,
    ← Option.isSome_iff_exists]
  cases Text.literal? token.toList <;> simp

end Scope

/-- What is found in a table is the entry in front of it or one behind that. -/
theorem lookup_cons_cases {α : Type} {name key : String} {value found : α}
    {entries : List (String × α)} (h : ((key, value) :: entries).lookup name = some found) :
    name = key ∧ value = found ∨ entries.lookup name = some found := by
  rw [List.lookup_cons] at h
  split at h
  · next hn => exact .inl ⟨beq_iff_eq.1 hn, Option.some.inj h⟩
  · exact .inr h

theorem isSome_lookup_cons_iff {α : Type} {name key : String} {value : α}
    {entries : List (String × α)} :
    (((key, value) :: entries).lookup name).isSome = true ↔
      (entries.lookup name).isSome = true ∨ name = key := by
  by_cases hn : name = key
  · simp [hn]
  · rw [List.lookup_cons, beq_eq_false_iff_ne.2 hn, or_iff_left hn]

namespace Discovery

open Source

variable {before : List Statement} {d d' : Discovery} {line : SourceLine} {lines : List SourceLine}

/-- What is collected of these statements. -/
structure Tracks (before : List Statement) (d : Discovery) : Prop where
  pending : d.pending.isSome = true ↔ Inside before
  labels : ∀ name, (d.scope.labels.lookup name).isSome = true ↔ .label name ∈ before
  values : ∀ name, (d.scope.values.lookup name).isSome = true ↔
    name ∈ before.filterMap Statement.value?
  macros : ∀ name, (d.scope.macros.lookup name).isSome = true ∨
    (∃ m, d.pending = some m ∧ m.name = name) ↔ .macroBegin name ∈ before
  uses : ∀ name, .macroUse name ∈ before → ∃ line ∈ d.outside, line.statement = .macroUse name

namespace Tracks

theorem nil : Tracks [] {} where
  pending := by simpa using inside_nil
  labels _ := by simp [LabelTable.lookup]
  values _ := by simp
  macros _ := by simp
  uses _ h := absurd h List.not_mem_nil

theorem pending_eq_none_iff (h : Tracks before d) : d.pending = none ↔ ¬Inside before := by
  rw [← h.pending, Option.not_isSome_iff_eq_none]

theorem lookup_values_eq_none_iff (h : Tracks before d) {name : String} :
    d.scope.values.lookup name = none ↔ name ∉ before.filterMap Statement.value? := by
  rw [← h.values, Option.not_isSome_iff_eq_none]

theorem lookup_labels_eq_none_iff (h : Tracks before d) {name : String} :
    d.scope.labels.lookup name = none ↔ .label name ∉ before := by
  rw [← h.labels, Option.not_isSome_iff_eq_none]

theorem lookup_macros_eq_none_iff (h : Tracks before d) (hp : d.pending = none) {name : String} :
    d.scope.macros.lookup name = none ↔ .macroBegin name ∉ before := by
  rw [← h.macros, hp, ← Option.not_isSome_iff_eq_none]
  simp

/-- The first pass takes a line exactly if it admits its statement. -/
theorem exists_takes_iff (h : Tracks before d) :
    (∃ d', d.Takes line d') ↔ Admits before line.statement := by
  constructor
  · rintro ⟨d', ht⟩
    cases ht with
    | begin hs hp hn =>
      rw [hs]
      exact ⟨h.pending_eq_none_iff.1 hp, (h.lookup_macros_eq_none_iff hp).1 hn⟩
    | finish hs hm =>
      rw [hs]
      exact h.pending.1 (by rw [hm]; rfl)
    | label hs hp hn =>
      rw [hs]
      exact ⟨h.pending_eq_none_iff.1 hp, h.lookup_labels_eq_none_iff.1 hn⟩
    | value hs hp hv hn =>
      rw [hs]
      exact ⟨h.pending_eq_none_iff.1 hp, h.lookup_values_eq_none_iff.1 hn,
        (Scope.exists_value_iff h.values).1 ⟨_, hv⟩⟩
    | use hs hp =>
      rw [hs]
      exact h.pending_eq_none_iff.1 hp
    | inside hs => exact admits_of_isPlain hs
    | outside hs => exact admits_of_isPlain hs
  · intro ha
    have hplain (hs : line.statement.isPlain = true) : ∃ d', d.Takes line d' := ⟨_, takes_keep hs⟩
    rcases hs : line.statement with name | ⟨name, token⟩ | name | _ | name | _ | _ | _ | _ <;>
      rw [hs] at ha hplain
    · exact ⟨_, .label hs (h.pending_eq_none_iff.2 ha.1) (h.lookup_labels_eq_none_iff.2 ha.2)⟩
    · obtain ⟨hi, hn, hnumeric⟩ := ha
      obtain ⟨value, hv⟩ := (Scope.exists_value_iff h.values).2 hnumeric
      exact ⟨_, .value hs (h.pending_eq_none_iff.2 hi) hv (h.lookup_values_eq_none_iff.2 hn)⟩
    · have hp := h.pending_eq_none_iff.2 ha.1
      exact ⟨_, .begin hs hp ((h.lookup_macros_eq_none_iff hp).2 ha.2)⟩
    · obtain ⟨m, hm⟩ := Option.isSome_iff_exists.1 (h.pending.2 ha)
      exact ⟨_, .finish hs hm⟩
    · exact ⟨_, .use hs (h.pending_eq_none_iff.2 ha)⟩
    all_goals exact hplain rfl

/-- One more statement is tracked if each table has what it had and what the statement adds. -/
theorem concat (h : Tracks before d) {s : Statement}
    (hpending : d'.pending.isSome = true ↔
      (∃ name, s = .macroBegin name) ∨ s ≠ .macroEnd ∧ d.pending.isSome = true)
    (hlabels : ∀ name, (d'.scope.labels.lookup name).isSome = true ↔
      (d.scope.labels.lookup name).isSome = true ∨ .label name = s)
    (hvalues : ∀ name, (d'.scope.values.lookup name).isSome = true ↔
      (d.scope.values.lookup name).isSome = true ∨ s.value? = some name)
    (hmacros : ∀ name, ((d'.scope.macros.lookup name).isSome = true ∨
        ∃ m, d'.pending = some m ∧ m.name = name) ↔
      ((d.scope.macros.lookup name).isSome = true ∨ ∃ m, d.pending = some m ∧ m.name = name) ∨
        .macroBegin name = s)
    (houtside : ∀ line ∈ d.outside, line ∈ d'.outside)
    (huses : ∀ name, .macroUse name = s → ∃ line ∈ d'.outside, line.statement = .macroUse name) :
    Tracks (before ++ [s]) d' where
  pending := by rw [hpending, h.pending, inside_concat_iff]
  labels name := by rw [hlabels, h.labels, List.mem_append, List.mem_singleton]
  values name := by
    rw [hvalues, h.values, List.filterMap_append, List.mem_append]
    cases hs : s.value? <;> simp [hs, eq_comm]
  macros name := by rw [hmacros, h.macros, List.mem_append, List.mem_singleton]
  uses name hu := by
    rw [List.mem_append, List.mem_singleton] at hu
    rcases hu with hu | hu
    · obtain ⟨line, hl, hs⟩ := h.uses name hu
      exact ⟨line, houtside line hl, hs⟩
    · exact huses name hu

/-- A statement that defines nothing and uses nothing changes no table. -/
theorem concat_of_isPlain (h : Tracks before d) {s : Statement} (hs : s.isPlain = true)
    (hscope : d'.scope = d.scope)
    (hpending : d'.pending.map OpenMacro.name = d.pending.map OpenMacro.name)
    (houtside : ∀ line ∈ d.outside, line ∈ d'.outside) : Tracks (before ++ [s]) d' := by
  have hne {s' : Statement} (hs' : s'.isPlain = false) : s' ≠ s := by
    rintro rfl
    exact absurd (hs.symm.trans hs') (by decide)
  have hsome : d'.pending.isSome = d.pending.isSome := by
    rw [← Option.isSome_map, hpending, Option.isSome_map]
  have hnames (name : String) : (∃ m, d'.pending = some m ∧ m.name = name) ↔
      ∃ m, d.pending = some m ∧ m.name = name := by
    rw [← Option.map_eq_some_iff, hpending, Option.map_eq_some_iff]
  refine h.concat ?_ (fun name => ?_) (fun name => ?_) (fun name => ?_) houtside fun name hu =>
    absurd hu (hne rfl)
  · rw [hsome, or_iff_right (fun ⟨name, he⟩ => hne rfl he.symm), and_iff_right (hne rfl).symm]
  · rw [hscope, or_iff_left (hne rfl)]
  · rw [hscope, value?_eq_none_of_isPlain hs, or_iff_left (by simp)]
  · rw [hscope, hnames, or_iff_left (hne rfl)]

/-- A line that is taken is tracked with those before it. -/
theorem takes (h : Tracks before d) (ht : d.Takes line d') :
    Tracks (before ++ [line.statement]) d' := by
  cases ht with
  | @begin name hs hp hn =>
    rw [hs]
    refine h.concat (by simp) (by simp) (by simp [Statement.value?]) (fun other => ?_)
      (fun _ hl => hl) (by simp)
    rw [hp, Statement.macroBegin.injEq]
    constructor
    · rintro (hm | ⟨m, hm, rfl⟩)
      · exact .inl (.inl hm)
      · exact .inr (Option.some.inj hm ▸ rfl)
    · rintro ((hm | ⟨m, hm, -⟩) | rfl)
      · exact .inl hm
      · cases hm
      · exact .inr ⟨_, rfl, rfl⟩
  | @finish m hs hm =>
    rw [hs]
    refine h.concat (by simp) (by simp) (by simp [Statement.value?]) (fun other => ?_)
      (fun _ hl => hl) (by simp)
    rw [hm, isSome_lookup_cons_iff]
    simp only [Option.some.injEq, reduceCtorEq, false_and, exists_false, or_false,
      exists_eq_left', eq_comm]
  | @label name hs hp hn =>
    rw [hs]
    refine h.concat (by simp) (fun other => ?_) (by simp [Statement.value?]) (by simp)
      (fun _ => List.mem_append_left _) (by simp)
    rw [LabelTable.lookup, LabelTable.lookup, Option.isSome_map, Option.isSome_map,
      LabelTable.define, isSome_lookup_cons_iff, Statement.label.injEq]
  | @value name token value hs hp hv hn =>
    rw [hs]
    refine h.concat (by simp) (by simp) (fun other => ?_) (by simp) (fun _ hl => hl) (by simp)
    rw [isSome_lookup_cons_iff, Statement.value?, Option.some.injEq, @eq_comm _ other]
  | use hs hp =>
    rw [hs]
    refine h.concat (by simp) (by simp) (by simp [Statement.value?]) (by simp)
      (fun _ => List.mem_append_left _) fun name hu => ?_
    exact ⟨line, by simp, hs.trans hu.symm⟩
  | inside hs hm => exact h.concat_of_isPlain hs rfl (by rw [hm]; rfl) fun _ hl => hl
  | outside hs hp => exact h.concat_of_isPlain hs rfl rfl fun _ => List.mem_append_left _

end Tracks

/-- The first pass gets over statements if it admits each of them after those before it. -/
theorem exists_foldlM_iff {ss : List Statement} (h : Tracks before d) :
    (∃ d', (ss.map SourceLine.ofStatement).foldlM add d = .ok d') ↔
      ∀ pre s post, ss = pre ++ s :: post → Admits (before ++ pre) s := by
  induction ss generalizing before d with
  | nil => simp [pure, Except.pure]
  | cons s ss ih =>
    have hstep := @Tracks.exists_takes_iff _ _ (SourceLine.ofStatement s) h
    simp only [List.map_cons, List.foldlM_cons, bind_eq_ok_iff, add_eq_ok_iff]
    constructor
    · rintro ⟨d', next, hn, hd'⟩ pre s' post he
      rcases List.cons_eq_append_iff.1 he with ⟨rfl, hsame⟩ | ⟨pre, rfl, rfl⟩
      · rw [List.cons.injEq] at hsame
        rw [hsame.1, List.append_nil]
        exact hstep.1 ⟨next, hn⟩
      · have := (ih (h.takes hn)).1 ⟨d', hd'⟩ pre s' post rfl
        rwa [List.append_assoc] at this
    · intro hadmits
      have hfirst := hadmits [] s ss rfl
      rw [List.append_nil] at hfirst
      obtain ⟨next, hn⟩ := hstep.2 hfirst
      obtain ⟨d', hd'⟩ := (ih (h.takes hn)).2 fun pre s' post he => by
        rw [List.append_assoc]
        exact hadmits (s :: pre) s' post (by rw [he, List.cons_append])
      exact ⟨d', next, hn, hd'⟩

/-- What holds of what is collected, and is kept with each line, holds after all lines. -/
theorem of_foldlM {P : List Statement → Discovery → Prop} {ss : List Statement}
    (hstep : ∀ before s d d', P before d → d.Takes (.ofStatement s) d' → P (before ++ [s]) d')
    (h : P before d) (hd : (ss.map SourceLine.ofStatement).foldlM add d = .ok d') :
    P (before ++ ss) d' := by
  induction ss generalizing before d with
  | nil => rwa [List.append_nil, ← Except.ok.inj hd]
  | cons s ss ih =>
    rw [List.map_cons, List.foldlM_cons, bind_eq_ok_iff] at hd
    obtain ⟨next, hn, hd⟩ := hd
    have := ih (hstep before s d next h (takes_of_add hn)) hd
    rwa [List.append_assoc] at this

theorem tracks_of_foldlM {ss : List Statement} (h : Tracks before d)
    (hd : (ss.map SourceLine.ofStatement).foldlM add d = .ok d') : Tracks (before ++ ss) d' :=
  of_foldlM (fun _ _ _ _ h ht => h.takes ht) h hd

/-- What the first pass has collected in the end is known from the statements. -/
theorem tracks_of_ofLines {ss : List Statement}
    (hd : ofLines (ss.map SourceLine.ofStatement) = .ok d) : Tracks ss d :=
  tracks_of_foldlM .nil (ofLines_eq_ok_iff.1 hd).1

/-- In the end, the macros that can be used are those that are begun. -/
theorem isSome_lookup_macros_iff {ss : List Statement} {name : String}
    (hd : ofLines (ss.map SourceLine.ofStatement) = .ok d) :
    (d.scope.macros.lookup name).isSome = true ↔ .macroBegin name ∈ ss := by
  rw [← (tracks_of_ofLines hd).macros, (ofLines_eq_ok_iff.1 hd).2]
  simp

/-- When the first pass succeeds. -/
theorem exists_ofLines_iff {ss : List Statement} :
    (∃ d, ofLines (ss.map SourceLine.ofStatement) = .ok d) ↔
      (∀ pre s post, ss = pre ++ s :: post → Admits pre s) ∧ ¬Inside ss := by
  have hrun := @exists_foldlM_iff [] {} ss .nil
  constructor
  · rintro ⟨d, hd⟩
    have htracks := tracks_of_ofLines hd
    obtain ⟨hfold, hp⟩ := ofLines_eq_ok_iff.1 hd
    exact ⟨hrun.1 ⟨d, hfold⟩, htracks.pending_eq_none_iff.1 hp⟩
  · rintro ⟨hadmits, hin⟩
    obtain ⟨d, hd⟩ := hrun.2 hadmits
    exact ⟨d, ofLines_eq_ok_iff.2 ⟨hd, (tracks_of_foldlM .nil hd).pending_eq_none_iff.2 hin⟩⟩

end Discovery

/-! ## The order of the lines -/

theorem forall_split_concat_iff {α : Type} {P : List α → α → Prop} {xs : List α} {x : α} :
    (∀ before y after, xs ++ [x] = before ++ y :: after → P before y) ↔
      (∀ before y after, xs = before ++ y :: after → P before y) ∧ P xs x := by
  constructor
  · intro h
    refine ⟨fun before y after he => h before y (after ++ [x]) (by simp [he]), h xs x [] rfl⟩
  · rintro ⟨h, hx⟩ before y after he
    rcases List.eq_nil_or_concat after with rfl | ⟨after, last, rfl⟩
    · obtain ⟨rfl, hlast⟩ := List.append_inj' he rfl
      rwa [← List.singleton_inj.1 hlast]
    · rw [List.concat_eq_append, ← List.cons_append, ← List.append_assoc] at he
      exact h before y after (List.append_inj' he rfl).1

theorem nodup_filterMap_concat_iff {α β : Type} {f : α → Option β} {xs : List α} {x : α} :
    ((xs ++ [x]).filterMap f).Nodup ↔
      (xs.filterMap f).Nodup ∧ ∀ b, f x = some b → b ∉ xs.filterMap f := by
  rw [List.filterMap_append, List.nodup_append']
  cases hx : f x <;> simp [hx, List.disjoint_singleton]

theorem Statement.label?_eq_some_iff {s : Statement} {name : String} :
    s.label? = some name ↔ s = .label name := by
  rcases s with _ | _ | _ | _ | _ | _ | _ | _ | _ <;> simp [label?]

namespace Source

/-- Macros begin and end in turn, no two with the same name; the last may not have ended. -/
def Alternates (ss : List Statement) : Prop :=
  (∃ names : List String, names.Nodup ∧
    ss.filter Statement.isBound = names.flatMap Statement.bounds) ∨
  ∃ (ended : List String) (name : String), (ended ++ [name]).Nodup ∧
    ss.filter Statement.isBound = ended.flatMap Statement.bounds ++ [.macroBegin name]

variable {ss : List Statement} {s : Statement} {name : String}

@[simp] theorem filter_isBound_concat :
    (ss ++ [s]).filter Statement.isBound =
      ss.filter Statement.isBound ++ if s.isBound = true then [s] else [] := by
  rw [List.filter_append, List.filter_singleton, Bool.cond_eq_ite]

theorem flatMap_bounds_concat (names : List String) (name : String) :
    (names ++ [name]).flatMap Statement.bounds =
      names.flatMap Statement.bounds ++ [.macroBegin name] ++ [.macroEnd] := by
  simp [Statement.bounds]

theorem inside_iff_filter :
    Inside ss ↔ ∃ front name, ss.filter Statement.isBound = front ++ [.macroBegin name] := by
  induction ss using List.reverseRecOn with
  | nil => simp [inside_nil]
  | append_singleton ss s ih =>
    rw [inside_concat_iff, ih, filter_isBound_concat]
    rcases s with _ | _ | _ | _ | _ | _ | _ | _ | _ <;> simp [Statement.isBound]

theorem mem_flatMap_bounds_iff {names : List String} :
    .macroBegin name ∈ names.flatMap Statement.bounds ↔ name ∈ names := by
  simp [Statement.bounds]

theorem macroBegin_mem_iff :
    .macroBegin name ∈ ss ↔ .macroBegin name ∈ ss.filter Statement.isBound := by
  simp [List.mem_filter, Statement.isBound]

theorem append_macroBegin_ne (front : List Statement) (names : List String) :
    front ++ [.macroBegin name] ≠ names.flatMap Statement.bounds := by
  rcases List.eq_nil_or_concat names with rfl | ⟨names, last, rfl⟩
  · simp
  · rw [List.concat_eq_append, flatMap_bounds_concat]
    intro h
    cases (List.append_inj' h rfl).2

/-- A macro begins where the one before has ended, under a new name. -/
theorem alternates_concat_macroBegin_iff :
    Alternates (ss ++ [.macroBegin name]) ↔
      Alternates ss ∧ ¬Inside ss ∧ .macroBegin name ∉ ss := by
  rw [Alternates, filter_isBound_concat, if_pos (by rfl), inside_iff_filter, macroBegin_mem_iff]
  constructor
  · rintro (⟨names, -, h⟩ | ⟨ended, name', hn, h⟩)
    · exact absurd h (append_macroBegin_ne _ _)
    · obtain ⟨hfilter, hname⟩ := List.append_inj' h rfl
      cases List.singleton_inj.1 hname
      have hparts := List.nodup_append'.1 hn
      refine ⟨.inl ⟨ended, hparts.1, hfilter⟩, ?_, ?_⟩
      · rintro ⟨front, name', hopen⟩
        exact append_macroBegin_ne front ended (hopen.symm.trans hfilter)
      · rw [hfilter, mem_flatMap_bounds_iff]
        simpa [List.disjoint_singleton] using hparts.2.2
  · rintro ⟨⟨names, hn, hfilter⟩ | ⟨ended, name', hn, hfilter⟩, hopen, hnew⟩
    · rw [hfilter, mem_flatMap_bounds_iff] at hnew
      refine .inr ⟨names, name, ?_, by rw [hfilter]⟩
      simp [List.nodup_append', hn, hnew]
    · exact absurd ⟨_, name', hfilter⟩ hopen

/-- A macro ends after it has begun. -/
theorem alternates_concat_macroEnd_iff :
    Alternates (ss ++ [.macroEnd]) ↔ Alternates ss ∧ Inside ss := by
  rw [Alternates, filter_isBound_concat, if_pos (by rfl), inside_iff_filter]
  constructor
  · rintro (⟨names, hn, h⟩ | ⟨ended, name, -, h⟩)
    · rcases List.eq_nil_or_concat names with rfl | ⟨ended, name, rfl⟩
      · simp at h
      · rw [List.concat_eq_append, flatMap_bounds_concat] at h
        rw [List.concat_eq_append] at hn
        have hfilter := (List.append_inj' h rfl).1
        exact ⟨.inr ⟨ended, name, hn, hfilter⟩, _, name, hfilter⟩
    · cases (List.append_inj' h rfl).2
  · rintro ⟨⟨names, -, hfilter⟩ | ⟨ended, name, hn, hfilter⟩, front, name', hopen⟩
    · exact absurd (hopen.symm.trans hfilter) (append_macroBegin_ne _ _)
    · exact .inl ⟨ended ++ [name], hn, by rw [flatMap_bounds_concat, hfilter]⟩

theorem alternates_concat_of_not_isBound (h : s.isBound = false) :
    Alternates (ss ++ [s]) ↔ Alternates ss := by
  rw [Alternates, filter_isBound_concat, h, if_neg (by decide), List.append_nil, Alternates]

/-- Macros are bounded in turn if they alternate and the last has ended. -/
theorem alternates_and_not_inside_iff :
    Alternates ss ∧ ¬Inside ss ↔
      ∃ names : List String, names.Nodup ∧
        ss.filter Statement.isBound = names.flatMap Statement.bounds := by
  rw [inside_iff_filter]
  constructor
  · rintro ⟨hnames | ⟨ended, name, -, hfilter⟩, hopen⟩
    · exact hnames
    · exact absurd ⟨_, name, hfilter⟩ hopen
  · rintro ⟨names, hn, hfilter⟩
    refine ⟨.inl ⟨names, hn, hfilter⟩, ?_⟩
    rintro ⟨front, name, hopen⟩
    exact append_macroBegin_ne front names (hopen.symm.trans hfilter)

/-- What the first pass asks of a statement, one condition at a time. -/
theorem admits_iff :
    Admits ss s ↔
      ((∀ name, s = .macroBegin name → ¬Inside ss ∧ .macroBegin name ∉ ss) ∧
        (s = .macroEnd → Inside ss)) ∧
      (Inside ss → s.isOuter = false) ∧
      (∀ name, s.label? = some name → name ∉ ss.filterMap Statement.label?) ∧
      (∀ name, s.value? = some name → name ∉ ss.filterMap Statement.value?) ∧
      ∀ name token, s = .valueMacro name token →
        Numeric (ss.filterMap Statement.value?) token := by
  rcases s with name | ⟨name, token⟩ | name | _ | name | _ | _ | _ | _
  case label =>
    simp [Admits, Statement.isOuter, Statement.label?_eq_some_iff, Statement.value?]
  case valueMacro => simp [Admits, Statement.isOuter, Statement.label?, Statement.value?]
  all_goals simp [Admits, Statement.isOuter, Statement.label?, Statement.value?]

theorem alternates_concat_iff :
    Alternates (ss ++ [s]) ↔ Alternates ss ∧
      (∀ name, s = .macroBegin name → ¬Inside ss ∧ .macroBegin name ∉ ss) ∧
      (s = .macroEnd → Inside ss) := by
  rcases s with _ | _ | name | _ | _ | _ | _ | _ | _
  case macroBegin => simp [alternates_concat_macroBegin_iff]
  case macroEnd => simp [alternates_concat_macroEnd_iff]
  all_goals rw [alternates_concat_of_not_isBound rfl, and_iff_left (by simp)]

/-- The first pass admits every statement if they come in the order of the language. -/
theorem forall_admits_iff :
    (∀ before s after, ss = before ++ s :: after → Admits before s) ↔
      Alternates ss ∧
      (∀ before s after, ss = before ++ s :: after → Inside before → s.isOuter = false) ∧
      (ss.filterMap Statement.label?).Nodup ∧ (ss.filterMap Statement.value?).Nodup ∧
      ∀ before s after, ss = before ++ s :: after → ∀ name token, s = .valueMacro name token →
        Numeric (before.filterMap Statement.value?) token := by
  induction ss using List.reverseRecOn with
  | nil => exact ⟨fun _ => ⟨.inl ⟨[], by simp⟩, by simp⟩, fun _ => by simp⟩
  | append_singleton ss s ih =>
    rw [forall_split_concat_iff, ih, admits_iff, alternates_concat_iff, forall_split_concat_iff,
      forall_split_concat_iff, nodup_filterMap_concat_iff, nodup_filterMap_concat_iff]
    tauto

end Source

/-! ## The second pass -/

theorem Signature.accepts_iff_forall₂ {slots : List KindSet} {operands : List Operand} :
    accepts slots operands = true ↔
      List.Forall₂ (fun x kinds => kinds.allows x.kind = true) operands slots := by
  induction slots generalizing operands with
  | nil => cases operands <;> simp [accepts]
  | cons kinds slots ih =>
    cases operands with
    | nil => simp [accepts]
    | cons x operands => rw [accepts, Bool.and_eq_true, ih, List.forall₂_cons]

/-- Lists that are related through a third are related member by member. -/
theorem exists_forall₂_and_forall₂_iff {α β γ : Type} {r : α → β → Prop} {q : β → γ → Prop}
    {xs : List α} {zs : List γ} :
    (∃ ys, List.Forall₂ r xs ys ∧ List.Forall₂ q ys zs) ↔
      List.Forall₂ (fun x z => ∃ y, r x y ∧ q y z) xs zs := by
  constructor
  · rintro ⟨ys, hxs, hzs⟩
    induction hxs generalizing zs with
    | nil =>
      cases hzs
      exact .nil
    | cons hx _ ih =>
      cases hzs with
      | cons hz hzs => exact .cons ⟨_, hx, hz⟩ (ih hzs)
  · intro h
    induction h with
    | nil => exact ⟨[], .nil, .nil⟩
    | cons hxz _ ih =>
      obtain ⟨y, hx, hz⟩ := hxz
      obtain ⟨ys, hxs, hzs⟩ := ih
      exact ⟨y :: ys, .cons hx hxs, .cons hz hzs⟩

namespace Scope

open Source

variable {scope : Scope} {token mnemonic : String} {tokens : List String} {i : Instruction}

/-- An operation is an instruction if it is known and its operands are of the kinds it accepts. -/
theorem exists_instruction_iff :
    (∃ i, scope.instruction mnemonic tokens = .ok i) ↔
      ∃ op, Opcode.ofMnemonic? mnemonic = some op ∧
        List.Forall₂ (fun token kinds => ∃ x, scope.operand token = .ok x ∧
          kinds.allows x.kind = true) tokens op.slots := by
  simp only [instruction_eq_ok_iff, ← exists_forall₂_and_forall₂_iff]
  constructor
  · rintro ⟨_, op, operands, hop, htokens, rfl, hw⟩
    exact ⟨op, hop, operands, htokens, Signature.accepts_iff_forall₂.1 hw⟩
  · rintro ⟨op, hop, operands, htokens, hw⟩
    exact ⟨_, op, operands, hop, htokens, rfl, Signature.accepts_iff_forall₂.2 hw⟩

/-- A token is an operand of the kind that it denotes. -/
theorem exists_operand_iff {ss : List Statement} {kind : OperandKind}
    (hlabels : ∀ name, (scope.labels.lookup name).isSome = true ↔ .label name ∈ ss)
    (hvalues : ∀ name, (scope.values.lookup name).isSome = true ↔
      name ∈ ss.filterMap Statement.value?) :
    (∃ x, scope.operand token = .ok x ∧ x.kind = kind) ↔ Denotes ss token kind := by
  simp only [operand_eq_ok_iff]
  constructor
  · rintro ⟨x, ⟨name, label, rfl, hl, rfl⟩ | ⟨index, hr, rfl⟩ | ⟨value, hdot, hr, hv, rfl⟩, rfl⟩
    · exact .label rfl ((hlabels name).1 (by rw [hl]; rfl))
    · exact .register hr
    · exact .immediate hdot hr ((exists_value_iff hvalues).1 ⟨value, hv⟩)
  · intro h
    cases h with
    | label ht hl =>
      obtain ⟨label, hl⟩ := Option.isSome_iff_exists.1 ((hlabels _).2 hl)
      exact ⟨_, .inl ⟨_, label, ht, hl, rfl⟩, rfl⟩
    | register hr => exact ⟨_, .inr (.inl ⟨_, hr, rfl⟩), rfl⟩
    | immediate hdot hr hn =>
      obtain ⟨value, hv⟩ := (exists_value_iff hvalues).2 hn
      exact ⟨_, .inr (.inr ⟨value, hdot, hr, hv, rfl⟩), rfl⟩

/-- What a statement asks for is known if its tokens have a meaning. -/
theorem exists_asks_iff {s : Statement} :
    (∃ asked, scope.asks s = .ok asked) ↔
      (∀ mnemonic tokens, s = .operation mnemonic tokens →
        ∃ i, scope.instruction mnemonic tokens = .ok i) ∧
      ∀ token, s = .minRam token ∨ s = .minReg token → ∃ value, scope.value token = .ok value := by
  have hmap {α : Type} {f : α → Needs} {x : Except LineError α} :
      (∃ asked, x.map f = .ok asked) ↔ ∃ a, x = .ok a := by
    cases x <;> simp [Except.map]
  rcases s with _ | _ | _ | _ | _ | _ | _ | _ | _
  all_goals simp [asks, hmap]

end Scope

namespace Source

variable {ss : List Statement} {scope : Scope} {line : SourceLine} {lines : List SourceLine}
  {d : Discovery}

/-- The second pass succeeds if it is known what each statement asks for. -/
theorem exists_needs_iff :
    (∃ needed, needs scope lines = .ok needed) ↔
      ∀ line ∈ lines, ∃ asked, scope.asks line.statement = .ok asked := by
  refine Iff.trans ?_ (@exists_mapM_eq_ok_iff _ _ _ (scope.asks ∘ SourceLine.statement) lines)
  simp only [needs_eq_ok_iff, mapM_eq_ok_iff, Function.comp_apply]
  constructor
  · rintro ⟨_, asked, hasked, -⟩
    exact ⟨asked, hasked⟩
  · rintro ⟨asked, hasked⟩
    exact ⟨_, asked, hasked, rfl⟩

/-- What the second pass asks of statements whose names are in the scope. -/
theorem forall_asks_iff (h : Discovery.Tracks ss d) :
    (∀ line ∈ ss.map SourceLine.ofStatement, ∃ asked, d.scope.asks line.statement = .ok asked) ↔
      (∀ mnemonic tokens, .operation mnemonic tokens ∈ ss →
        ∃ op, Opcode.ofMnemonic? mnemonic = some op ∧
          List.Forall₂ (fun token kinds => ∃ kind, Denotes ss token kind ∧
            kinds.allows kind = true) tokens op.slots) ∧
      ∀ token, .minRam token ∈ ss ∨ .minReg token ∈ ss →
        Numeric (ss.filterMap Statement.value?) token := by
  have hdenotes {token : String} {kinds : KindSet} :
      (∃ x, d.scope.operand token = .ok x ∧ kinds.allows x.kind = true) ↔
        ∃ kind, Denotes ss token kind ∧ kinds.allows kind = true := by
    simp only [← Scope.exists_operand_iff h.labels h.values]
    constructor
    · rintro ⟨x, hx, hk⟩
      exact ⟨x.kind, ⟨x, hx, rfl⟩, hk⟩
    · rintro ⟨_, ⟨x, hx, rfl⟩, hk⟩
      exact ⟨x, hx, hk⟩
  simp only [List.forall_mem_map, SourceLine.statement_ofStatement, Scope.exists_asks_iff,
    Scope.exists_instruction_iff, hdenotes, Scope.exists_value_iff h.values]
  constructor
  · intro hall
    exact ⟨fun mnemonic tokens hs => (hall _ hs).1 mnemonic tokens rfl, fun token hs =>
      hs.elim (fun hs => (hall _ hs).2 token (.inl rfl)) fun hs => (hall _ hs).2 token (.inr rfl)⟩
  · rintro ⟨hoperations, hrequests⟩ s hs
    refine ⟨fun mnemonic tokens he => hoperations mnemonic tokens (he ▸ hs), fun token he => ?_⟩
    rcases he with rfl | rfl
    · exact hrequests token (.inl hs)
    · exact hrequests token (.inr hs)

/-! ## The third pass -/

theorem exists_plain (hasks : ∃ asked, scope.asks line.statement = .ok asked)
    (hlabels : ∀ name, line.statement.label? = some name → scope.labels.lookup name ≠ none) :
    ∃ stream, plain scope line = .ok stream := by
  simp only [plain, SourceLine.blame_eq_ok_iff]
  split
  · next name hs =>
    obtain ⟨label, hl⟩ := Option.ne_none_iff_exists'.1 (hlabels name (by rw [hs]; rfl))
    exact ⟨_, by rw [hl]; rfl⟩
  · exact ⟨_, rfl⟩
  · next mnemonic tokens hs =>
    obtain ⟨i, hi⟩ := (Scope.exists_asks_iff.1 hasks).1 mnemonic tokens hs
    exact ⟨_, bind_eq_ok_iff.2 ⟨i, hi, rfl⟩⟩
  · exact ⟨_, rfl⟩

/-- After the second pass, a line has its instructions if the macro it uses is defined. -/
theorem exists_emit_iff (hd : d.Sound lines)
    (hasks : ∀ line ∈ lines, ∃ asked, d.scope.asks line.statement = .ok asked)
    (hl : line ∈ d.outside) :
    (∃ stream, emit d.scope line = .ok stream) ↔
      ∀ name, line.statement = .macroUse name → (d.scope.macros.lookup name).isSome = true := by
  rw [emit.eq_def]
  split
  · next name hs =>
    simp only [hs, Statement.macroUse.injEq, forall_eq']
    split
    · next body hbody =>
      obtain ⟨before, after, hmacros, -⟩ := List.lookup_eq_some_iff.1 hbody
      have hlines := hd.macros name body (by rw [hmacros]; simp)
      obtain ⟨streams, hstreams⟩ := exists_mapM_eq_ok_iff.2 fun line' hl' =>
        exists_plain (hasks line' (hlines line' hl').1) fun name' hname =>
          absurd ((hlines line' hl').2.symm.trans hname) (by simp)
      simp only [hbody, Option.isSome_some, iff_true]
      exact ⟨_, bind_eq_ok_iff.2 ⟨streams, hstreams, rfl⟩⟩
    · next hnone => simp [hnone, throw, throwThe, MonadExceptOf.throw]
  · next huse =>
    refine iff_of_true ?_ fun name hs => absurd hs (huse name)
    exact exists_plain (hasks line (hd.outside line hl)) (hd.defined line hl)

/-- After the second pass, the third succeeds if every macro that is used is defined. -/
theorem exists_forall₂_emit_iff (h : Discovery.ofLines (ss.map SourceLine.ofStatement) = .ok d)
    (hasks : ∀ line ∈ ss.map SourceLine.ofStatement,
      ∃ asked, d.scope.asks line.statement = .ok asked) :
    (∃ streams, List.Forall₂ (fun line stream => emit d.scope line = .ok stream)
      d.outside streams) ↔ ∀ name, .macroUse name ∈ ss → .macroBegin name ∈ ss := by
  have htracks := Discovery.tracks_of_ofLines h
  have hsound := Discovery.sound_of_ofLines h
  simp only [← mapM_eq_ok_iff, exists_mapM_eq_ok_iff, ← Discovery.isSome_lookup_macros_iff h]
  constructor
  · intro hemit name huse
    obtain ⟨line, hl, hs⟩ := htracks.uses name huse
    exact (exists_emit_iff hsound hasks hl).1 (hemit line hl) name hs
  · intro huses line hl
    rw [exists_emit_iff hsound hasks hl]
    intro name hs
    obtain ⟨s, hmem, rfl⟩ := List.mem_map.1 (hsound.outside line hl)
    exact huses name (hs ▸ hmem)

/-! ## All passes -/

/-- The statements of which there is a program are those that fit together. -/
theorem exists_ofStatements_iff :
    (∃ program, ofStatements ss = .ok program) ↔ Coherent ss := by
  simp only [ofStatements_eq_ok_iff]
  constructor
  · rintro ⟨_, d, needed, streams, hd, hn, hstreams, -⟩
    obtain ⟨hadmits, hinside⟩ := Discovery.exists_ofLines_iff.1 ⟨d, hd⟩
    obtain ⟨halternates, hbodies, hlabels, hvalues, hresolved⟩ := forall_admits_iff.1 hadmits
    have hasks := exists_needs_iff.1 ⟨needed, hn⟩
    obtain ⟨hoperations, hrequests⟩ := (forall_asks_iff (Discovery.tracks_of_ofLines hd)).1 hasks
    exact {
      bounds := alternates_and_not_inside_iff.1 ⟨halternates, hinside⟩
      bodies := hbodies
      labels := hlabels
      values := hvalues
      resolved := fun before name token after he => hresolved before _ after he name token rfl
      operations := hoperations
      requests := hrequests
      uses := (exists_forall₂_emit_iff hd hasks).1 ⟨streams, hstreams⟩ }
  · intro h
    obtain ⟨halternates, hinside⟩ := alternates_and_not_inside_iff.2 h.bounds
    have hadmits := forall_admits_iff.2 ⟨halternates, h.bodies, h.labels, h.values,
      fun before s after he name token hs => h.resolved before name token after (hs ▸ he)⟩
    obtain ⟨d, hd⟩ := Discovery.exists_ofLines_iff.2 ⟨hadmits, hinside⟩
    have hasks := (forall_asks_iff (Discovery.tracks_of_ofLines hd)).2 ⟨h.operations, h.requests⟩
    obtain ⟨needed, hn⟩ := exists_needs_iff.2 hasks
    obtain ⟨streams, hstreams⟩ := (exists_forall₂_emit_iff hd hasks).2 h.uses
    exact ⟨_, d, needed, streams, hd, hn, hstreams, rfl⟩

/-- **The texts that are assembled are those of the language**: each line that is not blank says
    something, and what the lines say fits together. -/
theorem exists_assemble_iff (lines : List String) :
    (∃ program, assemble lines = .ok program) ↔
      ∃ ss, List.Forall₂ Statement.Says (contents lines) ss ∧ Coherent ss := by
  simp only [assemble_eq_ok_iff, reads_iff, ← exists_ofStatements_iff]
  exact ⟨fun ⟨program, ss, hss, h⟩ => ⟨ss, hss, program, h⟩,
    fun ⟨ss, hss, program, h⟩ => ⟨program, ss, hss, h⟩⟩

end Source

end Wordcode
