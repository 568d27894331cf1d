import Wordcode.Proofs.Safety
import Wordcode.Source.Assembly

/-!
# Assembled streams

What is assembled from text is a checked stream. The first pass hands out a label for each
line that defines one, and keeps such lines out of macros; so the third pass, which
replays macros, nevertheless places every label once. The second pass reads all
operations of the text, those of macros that are never used among them, so that the
register index it states is no less than any in the stream.

* `Discovery.Takes`: what the first pass asks of a line, and what it does with it;
* `Discovery.Sound`: the invariant of the first pass;
* `Source.Origin`: where an instruction of the stream comes from;
* `Source.checked_of_assemble`: an assembled stream is checked, and it places exactly the
  labels of its table.
-/

namespace Wordcode

open Instruction

/-- The label that a statement defines. -/
def Statement.label? : Statement → Option String
  | .label name => some name
  | _ => none

/-- The identity of the label that a line places. -/
def Scope.placed? (scope : Scope) (line : SourceLine) : Option Nat :=
  (line.statement.label?.bind scope.labels.lookup).map Label.id

theorem SourceLine.blame_eq_ok_iff {α : Type} {line : SourceLine} {x : Except LineError α} {a : α} :
    line.blame x = .ok a ↔ x = .ok a := by
  cases x <;> simp [blame]

/-! ## The first pass -/

/-- Whether a statement neither defines nor uses a name of its own, so that it may stand in a
    macro. -/
def Statement.isPlain : Statement → Bool
  | .minRam _ | .minReg _ | .pragma _ | .operation _ _ => true
  | _ => false

theorem Statement.label?_eq_none_of_isPlain {s : Statement} (h : s.isPlain = true) :
    s.label? = none := by
  rcases s with _ | _ | _ | _ | _ | _ | _ | _ | _ <;> first | rfl | cases h

namespace LabelTable

/-- The table after a label of a new name was created. -/
def define (table : LabelTable) (name : String) : LabelTable :=
  { nextId := table.nextId + 1, named := (name, table.nextId) :: table.named }

/-- The new name has the next identity, and every other name the one it had. -/
theorem lookup_define (table : LabelTable) (last name : String) :
    (table.define last).lookup name =
      if name = last then some ⟨table.nextId, some name⟩ else table.lookup name := by
  by_cases hn : name = last
  · simp [lookup, define, hn]
  · rw [if_neg hn, lookup, define, List.lookup_cons, beq_eq_false_iff_ne.2 hn, lookup]

end LabelTable

namespace Discovery

variable {d d' : Discovery} {line : SourceLine} {lines : List SourceLine}

/-- What the first pass asks of a line, and what it does with it. -/
inductive Takes (d : Discovery) (line : SourceLine) : Discovery → Prop
  | begin {name : String} : line.statement = .macroBegin name → d.pending = none →
      d.scope.macros.lookup name = none → Takes d line { d with pending := some { name, line } }
  | finish {m : OpenMacro} : line.statement = .macroEnd → d.pending = some m →
      Takes d line { d with
        pending := none
        scope := { d.scope with macros := (m.name, m.body) :: d.scope.macros } }
  | label {name : String} : line.statement = .label name → d.pending = none →
      d.scope.labels.lookup name = none →
      Takes d line { d with
        scope := { d.scope with labels := d.scope.labels.define name }
        outside := d.outside ++ [line] }
  | value {name token : String} {value : Nat} : line.statement = .valueMacro name token →
      d.pending = none → d.scope.value token = .ok value → d.scope.values.lookup name = none →
      Takes d line { d with
        scope := { d.scope with values := (name, value) :: d.scope.values } }
  | use {name : String} : line.statement = .macroUse name → d.pending = none →
      Takes d line { d with outside := d.outside ++ [line] }
  | inside {m : OpenMacro} : line.statement.isPlain = true → d.pending = some m →
      Takes d line { d with pending := some { m with body := m.body ++ [line] } }
  | outside : line.statement.isPlain = true → d.pending = none →
      Takes d line { d with outside := d.outside ++ [line] }

theorem takes_keep (h : line.statement.isPlain = true) : d.Takes line (d.keep line) := by
  rw [keep]
  split
  · next m hm => exact .inside h hm
  · next hm => exact .outside h hm

theorem takes_begin {name : String} (hs : line.statement = .macroBegin name)
    (h : d.begin line name = .ok d') : d.Takes line d' := by
  rw [begin] at h
  split at h
  · cases h
  · next hp =>
    split at h
    · cases h
    · next hn =>
      cases h
      exact .begin hs (by simpa using hp) (Option.not_isSome_iff_eq_none.1 hn)

theorem takes_finish (hs : line.statement = .macroEnd) (h : d.finish = .ok d') :
    d.Takes line d' := by
  rw [finish] at h
  split at h
  · cases h
  · next m hm =>
    cases h
    exact .finish hs hm

theorem takes_defineLabel {name : String} (hs : line.statement = .label name)
    (h : d.defineLabel line name = .ok d') : d.Takes line d' := by
  rw [defineLabel] at h
  split at h
  · cases h
  · next hp =>
    rw [LabelTable.create] at h
    rcases hn : d.scope.labels.lookup name with _ | label
    · rw [hn] at h
      cases h
      exact .label hs (by simpa using hp) hn
    · rw [hn] at h
      cases h

/-- A value is defined outside of macros, if the name is new and the token has a value. -/
theorem takes_defineValue {name token : String} (hs : line.statement = .valueMacro name token)
    (h : d.defineValue name token = .ok d') : d.Takes line d' := by
  rw [defineValue] at h
  by_cases hp : d.pending.isSome = true
  · simp only [hp, if_true] at h
    cases h
  · simp only [hp] at h
    obtain ⟨value, hv, h⟩ := bind_eq_ok_iff.1 h
    by_cases hn : (d.scope.values.lookup name).isSome = true
    · simp only [hn, if_true] at h
      cases h
    · simp only [hn] at h
      cases h
      exact .value hs (by simpa using hp) hv (Option.not_isSome_iff_eq_none.1 hn)

/-- A line that the first pass gets over is one that it takes. -/
theorem takes_of_add (h : d.add line = .ok d') : d.Takes line d' := by
  rw [add, SourceLine.blame_eq_ok_iff] at h
  split at h
  · next name hs => exact takes_begin hs h
  · next hs => exact takes_finish hs h
  · next name hs => exact takes_defineLabel hs h
  · next name token hs => exact takes_defineValue hs h
  · next name hs =>
    split at h
    · cases h
    · next hp =>
      cases h
      have hnone : d.pending = none := by simpa using hp
      have hkeep : d.keep line = { d with outside := d.outside ++ [line] } := by rw [keep, hnone]
      rw [hkeep]
      exact .use hs hnone
  · next hb hf hl hv hu =>
    -- All that is left is kept as it is.
    cases h
    refine takes_keep ?_
    rcases hs : line.statement with name | ⟨name, token⟩ | name | _ | name | _ | _ | _ | _
    · exact absurd hs (hl name)
    · exact absurd hs (hv name token)
    · exact absurd hs (hb name)
    · exact absurd hs hf
    · exact absurd hs (hu name)
    all_goals rfl

/-- What holds of the scope of the lines up to some point. -/
structure Sound (lines : List SourceLine) (d : Discovery) : Prop where
  /-- The lines outside of macros place the labels of the table, each of them once. -/
  placed : d.outside.filterMap d.scope.placed? = List.range d.scope.labels.nextId
  defined : ∀ line ∈ d.outside, ∀ name, line.statement.label? = some name →
    d.scope.labels.lookup name ≠ none
  bounded : ∀ name label, d.scope.labels.lookup name = some label →
    label.id < d.scope.labels.nextId
  outside : ∀ line ∈ d.outside, line ∈ lines
  /-- Lines of macros place no labels. -/
  macros : ∀ name body, (name, body) ∈ d.scope.macros →
    ∀ line ∈ body, line ∈ lines ∧ line.statement.label? = none
  pending : ∀ m, d.pending = some m →
    ∀ line ∈ m.body, line ∈ lines ∧ line.statement.label? = none

namespace Sound

theorem nil (lines : List SourceLine) : Sound lines {} where
  placed := rfl
  defined _ h := absurd h List.not_mem_nil
  bounded _ _ h := by cases h
  outside _ h := absurd h List.not_mem_nil
  macros _ _ h := absurd h List.not_mem_nil
  pending _ h := by cases h

/-- A label that is defined is a new one, and all others stay as they are. -/
theorem label {name : String} (h : d.Sound lines) (hl : line ∈ lines)
    (hs : line.statement = .label name) (hnone : d.scope.labels.lookup name = none) :
    Sound lines { d with
      scope := { d.scope with labels := d.scope.labels.define name }
      outside := d.outside ++ [line] } := by
  have hlabel : line.statement.label? = some name := by rw [hs]; rfl
  -- The lines before have their labels in the table already, so none of them names the new one
  -- and what they place stays the same.
  have hother {line' : SourceLine} (hl' : line' ∈ d.outside) :
      { d.scope with labels := d.scope.labels.define name }.placed? line' =
        d.scope.placed? line' := by
    rw [Scope.placed?, Scope.placed?]
    cases hs' : line'.statement.label? with
    | none => rfl
    | some name' =>
      have hne : name' ≠ name := by
        rintro rfl
        exact h.defined line' hl' name' hs' hnone
      simp only [Option.bind_some, LabelTable.lookup_define, if_neg hne]
  have hnew : { d.scope with labels := d.scope.labels.define name }.placed? line =
      some d.scope.labels.nextId := by
    simp [Scope.placed?, hlabel, LabelTable.lookup_define]
  have hnext : (d.scope.labels.define name).nextId = d.scope.labels.nextId + 1 := rfl
  refine ⟨?_, ?_, ?_, ?_, h.macros, h.pending⟩
  · simp only [List.filterMap_append, List.filterMap_congr fun _ => hother, h.placed,
      List.filterMap_cons, hnew, List.filterMap_nil, hnext, List.range_succ]
  · intro line' hl' name' hs'
    rw [LabelTable.lookup_define]
    split
    · simp
    · next hne =>
      rcases List.mem_append.1 hl' with hl' | hl'
      · exact h.defined line' hl' name' hs'
      · cases List.mem_singleton.1 hl'
        exact absurd (Option.some.inj (hs'.symm.trans hlabel)) hne
  · intro name' label' h'
    rw [LabelTable.lookup_define] at h'
    split at h'
    · cases h'
      exact Nat.lt_succ_self _
    · exact Nat.lt_succ_of_lt (h.bounded name' label' h')
  · intro line' hl'
    rcases List.mem_append.1 hl' with hl' | hl'
    · exact h.outside line' hl'
    · exact List.mem_singleton.1 hl' ▸ hl

/-- A line outside of macros that defines no label places none. -/
theorem keep (h : d.Sound lines) (hl : line ∈ lines) (hs : line.statement.label? = none) :
    Sound lines { d with outside := d.outside ++ [line] } := by
  have hnew : d.scope.placed? line = none := by
    rw [Scope.placed?, hs]
    rfl
  refine ⟨?_, ?_, h.bounded, ?_, h.macros, h.pending⟩
  · simp only [List.filterMap_append, h.placed, List.filterMap_cons, hnew, List.filterMap_nil,
      List.append_nil]
  · intro line' hl' name' hs'
    rcases List.mem_append.1 hl' with hl' | hl'
    · exact h.defined line' hl' name' hs'
    · cases List.mem_singleton.1 hl'
      cases hs.symm.trans hs'
  · intro line' hl'
    rcases List.mem_append.1 hl' with hl' | hl'
    · exact h.outside line' hl'
    · exact List.mem_singleton.1 hl' ▸ hl

/-- The invariant holds after one more line. -/
theorem takes (h : d.Sound lines) (hl : line ∈ lines) (ht : d.Takes line d') :
    d'.Sound lines := by
  cases ht with
  | begin =>
    refine ⟨h.placed, h.defined, h.bounded, h.outside, h.macros, fun m hm => ?_⟩
    cases hm
    exact fun _ h => absurd h List.not_mem_nil
  | @finish m hs hm =>
    refine ⟨h.placed, h.defined, h.bounded, h.outside, fun name body hmem => ?_,
      fun _ hm => by cases hm⟩
    rcases List.mem_cons.1 hmem with hmem | hmem
    · cases hmem
      exact h.pending m hm
    · exact h.macros name body hmem
  | label hs hp hn => exact h.label hl hs hn
  | value => exact ⟨h.placed, h.defined, h.bounded, h.outside, h.macros, h.pending⟩
  | use hs => exact h.keep hl (by rw [hs]; rfl)
  | @inside m hs hm =>
    refine ⟨h.placed, h.defined, h.bounded, h.outside, h.macros, fun m' hm' line' hl' => ?_⟩
    cases hm'
    rcases List.mem_append.1 hl' with hl' | hl'
    · exact h.pending m hm line' hl'
    · cases List.mem_singleton.1 hl'
      exact ⟨hl, Statement.label?_eq_none_of_isPlain hs⟩
  | outside hs => exact h.keep hl (Statement.label?_eq_none_of_isPlain hs)

theorem foldlM {rest : List SourceLine} (h : d.Sound lines) (hl : ∀ line ∈ rest, line ∈ lines)
    (ha : rest.foldlM Discovery.add d = .ok d') : d'.Sound lines := by
  induction rest generalizing d with
  | nil =>
    cases ha
    exact h
  | cons line rest ih =>
    rw [List.forall_mem_cons] at hl
    obtain ⟨next, hn, ha⟩ := bind_eq_ok_iff.1 ha
    exact ih (h.takes hl.1 (takes_of_add hn)) hl.2 ha

end Sound

theorem sound_of_ofLines (h : ofLines lines = .ok d) : d.Sound lines := by
  obtain ⟨d', hd, h⟩ := bind_eq_ok_iff.1 h
  have hs := (Sound.nil lines).foldlM (fun _ hl => hl) hd
  split at h
  · cases h
  · cases h
    exact hs

end Discovery

/-! ## The second pass -/

namespace Scope

variable {scope : Scope}

/-- An operation in the text suits its opcode, and its operands are read from the text. -/
theorem exists_of_instruction {mnemonic : String} {tokens : List String} {i : Instruction}
    (h : scope.instruction mnemonic tokens = .ok i) :
    ∃ op operands, i = .code op operands ∧ i.WellFormed ∧
      ∀ x ∈ operands, ∃ token, scope.operand token = .ok x := by
  unfold instruction at h
  split at h
  · cases h
  · next op _ =>
    obtain ⟨operands, ho, h⟩ := bind_eq_ok_iff.1 h
    split at h
    · next i' hb =>
      cases h
      obtain ⟨rfl, hw⟩ := build_code_eq_ok_iff.1 hb
      refine ⟨op, operands, rfl, hw, fun x hx => ?_⟩
      obtain ⟨token, -, htoken⟩ := exists_of_mem_mapM ho hx
      exact ⟨token, htoken⟩
    · cases h

theorem exists_lookup_of_operand {token : String} {label : Label}
    (h : scope.operand token = .ok (.label label)) :
    ∃ name, scope.labels.lookup name = some label := by
  unfold operand at h
  split at h
  · split at h
    · next hl =>
      cases h
      exact ⟨_, hl⟩
    · cases h
  · split at h
    · cases h
    · cases hv : scope.value token <;> rw [hv] at h <;> cases h

end Scope

namespace Source

variable {scope : Scope} {lines : List SourceLine} {line : SourceLine} {needed needed' : Needs}

/-- The register index that is needed is no less than any that a line names. -/
def Covers (scope : Scope) (needed : Needs) (line : SourceLine) : Prop :=
  ∀ mnemonic tokens i, line.statement = .operation mnemonic tokens →
    scope.instruction mnemonic tokens = .ok i →
    ∀ j, .register j ∈ i.operands → j ≤ needed.maxRegister

/-- One more line is covered, and what is needed does not get less. -/
theorem covers_of_addNeeds (h : addNeeds scope needed line = .ok needed') :
    needed.maxRegister ≤ needed'.maxRegister ∧ Covers scope needed' line := by
  replace h := SourceLine.blame_eq_ok_iff.1 h
  split at h
  · next mnemonic tokens hs =>
    obtain ⟨i, hi, h⟩ := bind_eq_ok_iff.1 h
    cases h
    refine ⟨Nat.le_max_left _ _, fun mnemonic' tokens' i' hs' hi' j hj => ?_⟩
    rw [hs] at hs'
    cases hs'
    rw [hi] at hi'
    cases hi'
    exact Nat.le_trans (highestRegister?_le_iff.1 (Nat.le_refl _) j hj) (Nat.le_max_right _ _)
  · next token hs =>
    obtain ⟨index, -, h⟩ := bind_eq_ok_iff.1 h
    cases h
    refine ⟨Nat.le_max_left _ _, fun _ _ _ hs' => ?_⟩
    rw [hs] at hs'
    cases hs'
  · next token hs =>
    obtain ⟨words, -, h⟩ := bind_eq_ok_iff.1 h
    cases h
    refine ⟨Nat.le_refl _, fun _ _ _ hs' => ?_⟩
    rw [hs] at hs'
    cases hs'
  · next hop _ _ =>
    cases h
    exact ⟨Nat.le_refl _, fun _ _ _ hs' => absurd hs' (hop _ _)⟩

/-- What is needed covers every line of the text. -/
theorem covers_of_foldlM (h : lines.foldlM (addNeeds scope) needed = .ok needed') :
    needed.maxRegister ≤ needed'.maxRegister ∧ ∀ line ∈ lines, Covers scope needed' line := by
  induction lines generalizing needed with
  | nil =>
    cases h
    exact ⟨Nat.le_refl _, fun _ hl => absurd hl List.not_mem_nil⟩
  | cons line rest ih =>
    obtain ⟨next, hn, h⟩ := bind_eq_ok_iff.1 h
    obtain ⟨hle, hcovers⟩ := covers_of_addNeeds hn
    obtain ⟨hle', hrest⟩ := ih h
    refine ⟨Nat.le_trans hle hle', List.forall_mem_cons.2 ⟨?_, hrest⟩⟩
    intro mnemonic tokens i hs hi j hj
    exact Nat.le_trans (hcovers mnemonic tokens i hs hi j hj) hle'

/-! ## The third pass -/

/-- What the instructions of the stream are, and where they come from. -/
inductive Origin (scope : Scope) (lines : List SourceLine) : Instruction → Prop
  | mark {name : String} {label : Label} : scope.labels.lookup name = some label →
      Origin scope lines (.note (.markLabel label))
  | pragma {line : SourceLine} {text : String} : line ∈ lines → line.statement = .pragma text →
      Origin scope lines (.note (.pragma text))
  | macroBegin {line : SourceLine} {name : String} : line ∈ lines →
      line.statement = .macroUse name → Origin scope lines (.note (.macroBegin name))
  | macroEnd : Origin scope lines (.note .macroEnd)
  | operation {line : SourceLine} {mnemonic : String} {tokens : List String} {i : Instruction} :
      line ∈ lines → line.statement = .operation mnemonic tokens →
      scope.instruction mnemonic tokens = .ok i → Origin scope lines i

namespace Origin

variable {i : Instruction}

theorem wellFormed (h : Origin scope lines i) : i.WellFormed := by
  cases h with
  | operation _ _ hi =>
    obtain ⟨_, _, -, hw, -⟩ := Scope.exists_of_instruction hi
    exact hw
  | _ => rfl

/-- The labels of an instruction are in the table. -/
theorem exists_lookup (h : Origin scope lines i) {label : Label} (hl : .label label ∈ i.operands) :
    ∃ name, scope.labels.lookup name = some label := by
  cases h with
  | mark hlabel =>
    cases List.mem_singleton.1 hl
    exact ⟨_, hlabel⟩
  | operation _ _ hi =>
    obtain ⟨op, operands, rfl, -, htokens⟩ := Scope.exists_of_instruction hi
    obtain ⟨token, htoken⟩ := htokens _ hl
    exact Scope.exists_lookup_of_operand htoken
  | _ => exact absurd hl List.not_mem_nil

theorem register_le (h : Origin scope lines i) (hc : ∀ line ∈ lines, Covers scope needed line)
    {j : Nat} (hj : .register j ∈ i.operands) : j ≤ needed.maxRegister := by
  cases h with
  | mark => cases List.mem_singleton.1 hj
  | operation hl hs hi => exact hc _ hl _ _ i hs hi j hj
  | _ => exact absurd hj List.not_mem_nil

end Origin

/-- A line that uses no macro places the label that it defines and nothing else. -/
theorem plain_spec {stream : List Instruction} (hl : line ∈ lines)
    (h : plain scope line = .ok stream) :
    marks stream = (scope.placed? line).toList ∧ ∀ i ∈ stream, Origin scope lines i := by
  replace h := SourceLine.blame_eq_ok_iff.1 h
  unfold Scope.placed?
  split at h
  · next name hs =>
    split at h
    · next label hlabel =>
      cases h
      rw [hs]
      refine ⟨?_, List.forall_mem_singleton.2 (.mark hlabel)⟩
      simp [Statement.label?, hlabel]
    · cases h
  · next text hs =>
    cases h
    rw [hs]
    exact ⟨rfl, List.forall_mem_singleton.2 (.pragma hl hs)⟩
  · next mnemonic tokens hs =>
    obtain ⟨i, hi, h⟩ := bind_eq_ok_iff.1 h
    cases h
    obtain ⟨op, operands, rfl, -⟩ := Scope.exists_of_instruction hi
    rw [hs]
    exact ⟨rfl, List.forall_mem_singleton.2 (.operation hl hs hi)⟩
  · next hlabel _ _ =>
    cases h
    refine ⟨?_, fun _ hi => absurd hi List.not_mem_nil⟩
    cases hs : line.statement with
    | label name => exact absurd hs (hlabel name)
    | _ => rfl

/-- A list of streams places what its members place. -/
theorem marks_flatten_of_mapM {f : SourceLine → Except SourceError (List Instruction)}
    {placed : SourceLine → Option Nat} {lines : List SourceLine} {streams : List (List Instruction)}
    (h : lines.mapM f = .ok streams)
    (hf : ∀ line ∈ lines, ∀ stream, f line = .ok stream → marks stream = (placed line).toList) :
    marks streams.flatten = lines.filterMap placed := by
  rw [mapM_eq_ok_iff] at h
  induction h with
  | nil => rfl
  | @cons line stream lines streams hl _ ih =>
    rw [List.forall_mem_cons] at hf
    rw [List.flatten_cons, marks_append, hf.1 stream hl, ih hf.2, List.filterMap_cons]
    cases placed line <;> rfl

/-- A line places the label that it defines and nothing else, also if it uses a macro. -/
theorem emit_spec {d : Discovery} {stream : List Instruction} (hd : d.Sound lines)
    (hl : line ∈ lines) (h : emit d.scope line = .ok stream) :
    marks stream = (d.scope.placed? line).toList ∧ ∀ i ∈ stream, Origin d.scope lines i := by
  unfold emit at h
  split at h
  · next name hs =>
    split at h
    · next body hbody =>
      obtain ⟨streams, hm, h⟩ := bind_eq_ok_iff.1 h
      cases h
      obtain ⟨before, after, hmacros, -⟩ := List.lookup_eq_some_iff.1 hbody
      have hlines := hd.macros name body (by rw [hmacros]; simp)
      -- A macro is expanded wherever it is named. Its lines place nothing, so that this does not
      -- place a label twice.
      have hnone (line' : SourceLine) (hl' : line' ∈ body) : d.scope.placed? line' = none := by
        rw [Scope.placed?, (hlines line' hl').2]
        rfl
      have hmarks := marks_flatten_of_mapM hm fun line' hl' stream' h' =>
        (plain_spec (hlines line' hl').1 h').1
      rw [List.filterMap_congr hnone] at hmarks
      constructor
      · rw [List.cons_append, marks_cons, marks_append, hmarks, Scope.placed?, hs]
        simp [mark?, marks, Statement.label?]
      · rw [List.cons_append, List.forall_mem_cons, List.forall_mem_append,
          List.forall_mem_singleton]
        refine ⟨.macroBegin hl hs, fun i hi => ?_, .macroEnd⟩
        obtain ⟨stream', hstream, hi⟩ := List.mem_flatten.1 hi
        obtain ⟨line', hl', h'⟩ := exists_of_mem_mapM hm hstream
        exact (plain_spec (hlines line' hl').1 h').2 i hi
    · cases h
  · exact plain_spec hl h

/-- An assembled stream is checked, and the labels that it places are those of its table. -/
theorem checked_of_assemble {text : List String} {program : Program}
    (h : assemble text = .ok program) :
    Checked program.instructions ∧
      marks program.instructions = List.range program.labels.nextId := by
  obtain ⟨lines, -, h⟩ := bind_eq_ok_iff.1 h
  obtain ⟨d, hd, h⟩ := bind_eq_ok_iff.1 h
  obtain ⟨needed, hn, h⟩ := bind_eq_ok_iff.1 h
  obtain ⟨instructions, hs, h⟩ := bind_eq_ok_iff.1 h
  obtain ⟨streams, hm, hs⟩ := bind_eq_ok_iff.1 hs
  cases h
  cases hs
  have hsound := Discovery.sound_of_ofLines hd
  have hcovers := (covers_of_foldlM hn).2
  have hmarks : marks streams.flatten = List.range d.scope.labels.nextId := by
    rw [← hsound.placed]
    exact marks_flatten_of_mapM hm fun line hl _ h' =>
      (emit_spec hsound (hsound.outside line hl) h').1
  have horigin (i : Instruction) (hi : i ∈ streams.flatten) : Origin d.scope lines i := by
    obtain ⟨stream, hstream, hi⟩ := List.mem_flatten.1 hi
    obtain ⟨line, hl, h'⟩ := exists_of_mem_mapM hm hstream
    exact (emit_spec hsound (hsound.outside line hl) h').2 i hi
  -- The two notes in front are about registers and memory: they place and name no label.
  refine ⟨⟨⟨?_, ?_, ?_⟩, needed.maxRegister, List.mem_cons_self, ?_⟩, hmarks⟩
  · simp only [List.forall_mem_cons]
    exact ⟨rfl, rfl, fun i hi => (horigin i hi).wellFormed⟩
  · exact hmarks ▸ List.nodup_range
  · simp only [List.forall_mem_cons]
    refine ⟨by simp [Instruction.operands, Note.operands],
      by simp [Instruction.operands, Note.operands], fun i hi label hl => ?_⟩
    obtain ⟨name, hname⟩ := (horigin i hi).exists_lookup hl
    exact hmarks ▸ List.mem_range.2 (hsound.bounded name label hname)
  · simp only [List.forall_mem_cons]
    exact ⟨by simp [Instruction.operands, Note.operands],
      by simp [Instruction.operands, Note.operands],
      fun i hi j hj => (horigin i hi).register_le hcovers hj⟩

end Source
end Wordcode
