import Wordcode.Proofs.Assembly
import Wordcode.Proofs.Text

/-!
# Assembly by statements

What is assembled from a text is decided by the statements on its lines: the numbers of the
lines and their texts, with blanks and comments, only show in errors. So a program can be
assembled from a list of statements alone (`Source.ofStatements`).

* `Source.Reads`: the statements of the lines of a text;
* `Source.assemble_eq_ok_iff`: a text is assembled by its statements;
* `Discovery.add_eq_ok_iff`: the first pass gets over the lines that it takes.
-/

namespace Wordcode

/-! ## The statements of a text -/

namespace Source

/-- The lines of a text have these statements, blank lines having none. -/
inductive Reads : List String → List Statement → Prop
  | nil : Reads [] []
  | blank {raw : String} {raws : List String} {ss : List Statement} :
      Statement.ofLine? raw.toList = .ok none → Reads raws ss → Reads (raw :: raws) ss
  | line {raw : String} {raws : List String} {s : Statement} {ss : List Statement} :
      Statement.ofLine? raw.toList = .ok (some s) → Reads raws ss → Reads (raw :: raws) (s :: ss)

namespace Reads

variable {raws raws' : List String} {ss ss' : List Statement}

theorem append (h : Reads raws ss) (h' : Reads raws' ss') : Reads (raws ++ raws') (ss ++ ss') := by
  induction h with
  | nil => exact h'
  | blank hraw _ ih => exact .blank hraw ih
  | line hraw _ ih => exact .line hraw ih

/-- The statements of a text are those of its lines. -/
theorem readFrom_iff {number : Nat} :
    (∃ lines, SourceLine.readFrom number raws = .ok lines ∧ lines.map SourceLine.statement = ss) ↔
      Reads raws ss := by
  constructor
  · rintro ⟨lines, h, rfl⟩
    induction raws generalizing number lines with
    | nil =>
      cases h
      exact .nil
    | cons raw raws ih =>
      rw [SourceLine.readFrom] at h
      rcases hraw : Statement.ofLine? raw.toList with cause | _ | s
      · simp only [hraw] at h
        cases h
      · simp only [hraw] at h
        exact .blank hraw (ih lines h)
      · simp only [hraw] at h
        obtain ⟨rest, hrest, h⟩ := bind_eq_ok_iff.1 h
        cases h
        exact .line hraw (ih rest hrest)
  · intro h
    induction h generalizing number with
    | nil => exact ⟨[], rfl, rfl⟩
    | blank hraw _ ih =>
      obtain ⟨lines, hl, hs⟩ := @ih (number + 1)
      refine ⟨lines, ?_, hs⟩
      simp only [SourceLine.readFrom, hraw]
      exact hl
    | @line raw raws s _ hraw _ ih =>
      obtain ⟨lines, hl, hs⟩ := @ih (number + 1)
      refine ⟨⟨number, String.ofList (Text.trim raw.toList), s⟩ :: lines, ?_, by
        rw [List.map_cons, hs]⟩
      simp only [SourceLine.readFrom, hraw]
      exact bind_eq_ok_iff.2 ⟨lines, hl, rfl⟩

end Reads
end Source

/-! ## What the first pass does with a line -/

namespace Discovery

variable {d d' : Discovery} {line : SourceLine}

theorem add_of_isPlain (h : line.statement.isPlain = true) : d.add line = .ok (d.keep line) := by
  rw [add, SourceLine.blame_eq_ok_iff]
  split
  case h_6 => rfl
  all_goals
    next hs =>
    rw [hs] at h
    cases h

theorem add_of_takes (h : d.Takes line d') : d.add line = .ok d' := by
  cases h with
  | begin hs hp hn => simp [add, SourceLine.blame_eq_ok_iff, hs, begin, hp, hn]
  | finish hs hm => simp [add, SourceLine.blame_eq_ok_iff, hs, finish, hm]
  | label hs hp hn =>
    simp [add, SourceLine.blame_eq_ok_iff, hs, defineLabel, hp, LabelTable.create, hn,
      LabelTable.define]
  | value hs hp hv hn =>
    simp only [add, SourceLine.blame_eq_ok_iff, hs, defineValue, hp, hv, hn]
    rfl
  | use hs hp => simp [add, SourceLine.blame_eq_ok_iff, hs, hp, keep]
  | inside hs hm => rw [add_of_isPlain hs, keep, hm]
  | outside hs hp => rw [add_of_isPlain hs, keep, hp]

theorem add_eq_ok_iff : d.add line = .ok d' ↔ d.Takes line d' := ⟨takes_of_add, add_of_takes⟩

end Discovery

/-! ## Lines without number and text -/

namespace SourceLine

/-- A line of which only the statement matters. -/
def ofStatement (s : Statement) : SourceLine := ⟨0, "", s⟩

/-- A line without its number and its text. -/
def bare (line : SourceLine) : SourceLine := ofStatement line.statement

@[simp] theorem statement_ofStatement (s : Statement) : (ofStatement s).statement = s := rfl

@[simp] theorem statement_bare (line : SourceLine) : line.bare.statement = line.statement := rfl

theorem map_bare (lines : List SourceLine) :
    lines.map bare = (lines.map statement).map ofStatement := by
  rw [List.map_map]
  rfl

end SourceLine

theorem lookup_map_snd {α β : Type} (f : α → β) (entries : List (String × α)) (name : String) :
    (entries.map fun entry => (entry.1, f entry.2)).lookup name = (entries.lookup name).map f := by
  induction entries with
  | nil => rfl
  | cons entry entries ih =>
    rw [List.map_cons, List.lookup_cons, List.lookup_cons, ih]
    cases name == entry.1 <;> rfl

namespace Scope

/-- A scope of bare lines. -/
def bare (scope : Scope) : Scope :=
  { scope with macros := scope.macros.map fun m => (m.1, m.2.map SourceLine.bare) }

theorem lookup_macros_bare (scope : Scope) (name : String) :
    scope.bare.macros.lookup name = (scope.macros.lookup name).map (List.map SourceLine.bare) :=
  lookup_map_snd _ _ _

end Scope

/-- A macro of bare lines that has begun. -/
def OpenMacro.bare (m : OpenMacro) : OpenMacro := ⟨m.name, m.line.bare, m.body.map SourceLine.bare⟩

namespace Discovery

/-- A scope of bare lines, as far as it is collected. -/
def bare (d : Discovery) : Discovery where
  scope := d.scope.bare
  pending := d.pending.map OpenMacro.bare
  outside := d.outside.map SourceLine.bare

variable {d d' e : Discovery} {line : SourceLine} {lines : List SourceLine}

theorem bare_outside (scope : Scope) :
    ({ d with scope, outside := d.outside ++ [line] } : Discovery).bare =
      { d.bare with scope := scope.bare, outside := d.bare.outside ++ [line.bare] } := by
  simp [bare]

/-- A line is taken without its number and its text as well. -/
theorem takes_bare (h : d.Takes line d') : d.bare.Takes line.bare d'.bare := by
  have hpending {m : Option OpenMacro} (hp : d.pending = m) :
      d.bare.pending = m.map OpenMacro.bare := by rw [bare, hp]
  cases h with
  | begin hs hp hn =>
    exact .begin hs (hpending hp) (by rw [bare, Scope.lookup_macros_bare, hn]; rfl)
  | finish hs hm => exact @Takes.finish _ line.bare _ hs (hpending hm)
  | label hs hp hn =>
    rw [bare_outside]
    exact @Takes.label _ line.bare _ hs (hpending hp) hn
  | value hs hp hv hn => exact @Takes.value _ line.bare _ _ _ hs (hpending hp) hv hn
  | use hs hp =>
    rw [bare_outside]
    exact .use hs (hpending hp)
  | @inside m hs hm =>
    have hbody : ({ m with body := m.body ++ [line] } : OpenMacro).bare =
        { m.bare with body := m.bare.body ++ [line.bare] } := by simp [OpenMacro.bare]
    have := @Takes.inside d.bare line.bare _ hs (hpending hm)
    rwa [← hbody] at this
  | outside hs hp =>
    rw [bare_outside]
    exact .outside hs (hpending hp)

/-- What is asked of a line depends on its statement alone. -/
theorem exists_takes_of_bare (h : d.bare.Takes line.bare e) : ∃ d', d.Takes line d' := by
  have hnone (hp : d.bare.pending = none) : d.pending = none := Option.map_eq_none_iff.1 hp
  cases h with
  | begin hs hp hn =>
    rw [bare, Scope.lookup_macros_bare, Option.map_eq_none_iff] at hn
    exact ⟨_, .begin hs (hnone hp) hn⟩
  | finish hs hm =>
    obtain ⟨m, hm, -⟩ := Option.map_eq_some_iff.1 hm
    exact ⟨_, .finish hs hm⟩
  | label hs hp hn => exact ⟨_, .label hs (hnone hp) hn⟩
  | value hs hp hv hn => exact ⟨_, .value hs (hnone hp) hv hn⟩
  | use hs hp => exact ⟨_, .use hs (hnone hp)⟩
  | inside hs hm =>
    obtain ⟨m, hm, -⟩ := Option.map_eq_some_iff.1 hm
    exact ⟨_, .inside hs hm⟩
  | outside hs hp => exact ⟨_, .outside hs (hnone hp)⟩

theorem add_bare_iff :
    d.bare.add line.bare = .ok e ↔ ∃ d', d.add line = .ok d' ∧ d'.bare = e := by
  constructor
  · intro h
    obtain ⟨d', hd'⟩ := exists_takes_of_bare (takes_of_add h)
    refine ⟨d', add_of_takes hd', ?_⟩
    rw [add_of_takes (takes_bare hd')] at h
    exact Except.ok.inj h
  · rintro ⟨d', h, rfl⟩
    exact add_of_takes (takes_bare (takes_of_add h))

/-- The first pass collects the same from lines without their numbers and texts. -/
theorem foldlM_add_bare_iff :
    (lines.map SourceLine.bare).foldlM add d.bare = .ok e ↔
      ∃ d', lines.foldlM add d = .ok d' ∧ d'.bare = e := by
  induction lines generalizing d with
  | nil =>
    constructor
    · intro h
      exact ⟨d, rfl, Except.ok.inj h⟩
    · rintro ⟨d', h, rfl⟩
      rw [← Except.ok.inj h]
      rfl
  | cons line lines ih =>
    simp only [List.map_cons, List.foldlM_cons, bind_eq_ok_iff, add_bare_iff]
    constructor
    · rintro ⟨_, ⟨next, hn, rfl⟩, h⟩
      obtain ⟨d', hd', he⟩ := ih.1 h
      exact ⟨d', ⟨next, hn, hd'⟩, he⟩
    · rintro ⟨d', ⟨next, hn, hd'⟩, he⟩
      exact ⟨next.bare, ⟨next, hn, rfl⟩, ih.2 ⟨d', hd', he⟩⟩

theorem ofLines_eq_ok_iff :
    ofLines lines = .ok d ↔ lines.foldlM add {} = .ok d ∧ d.pending = none := by
  rw [ofLines, bind_eq_ok_iff]
  constructor
  · rintro ⟨d', hd', h⟩
    split at h
    · cases h
    · next hp =>
      cases h
      exact ⟨hd', hp⟩
  · rintro ⟨hd, hp⟩
    refine ⟨d, hd, ?_⟩
    rw [hp]
    rfl

theorem ofLines_bare_iff :
    ofLines (lines.map SourceLine.bare) = .ok e ↔ ∃ d, ofLines lines = .ok d ∧ d.bare = e := by
  have hempty : ({} : Discovery) = bare {} := rfl
  simp only [ofLines_eq_ok_iff]
  rw [hempty, foldlM_add_bare_iff]
  constructor
  · rintro ⟨⟨d, hd, rfl⟩, hp⟩
    exact ⟨d, ⟨hd, Option.map_eq_none_iff.1 hp⟩, rfl⟩
  · rintro ⟨d, ⟨hd, hp⟩, rfl⟩
    exact ⟨⟨d, hd, rfl⟩, Option.map_eq_none_iff.2 hp⟩

end Discovery

/-! ## What tokens stand for -/

namespace Scope

variable {scope : Scope} {token mnemonic : String} {tokens : List String} {i : Instruction}
  {value : Nat}

/-- What a token stands for as an operand. -/
theorem operand_eq_ok_iff {x : Operand} :
    scope.operand token = .ok x ↔
      (∃ name label, token = "." ++ name ∧ scope.labels.lookup name = some label ∧
        x = .label label) ∨
      (∃ index, register? token.toList = some index ∧ x = .register index) ∨
      ∃ value, token.toList.head? ≠ some '.' ∧ register? token.toList = none ∧
        scope.value token = .ok value ∧ x = .immediate value := by
  have hdot {name : String} : token = "." ++ name ↔ token.toList = '.' :: name.toList := by
    rw [← String.toList_inj, String.toList_append]
    rfl
  rw [operand.eq_def]
  split
  · next cs ht =>
    have hname {name : String} : token = "." ++ name ↔ name = String.ofList cs := by
      rw [hdot, ht, List.cons.injEq, ← String.toList_inj, String.toList_ofList]
      simp [eq_comm]
    have hregister : register? ('.' :: cs) = none := rfl
    simp only [hname, ht, hregister, exists_and_left, exists_eq_left]
    rcases scope.labels.lookup (String.ofList cs) with _ | label <;> simp [eq_comm]
  · next hne =>
    have hname {name : String} : token ≠ "." ++ name := fun h => hne _ (hdot.1 h)
    have hhead : token.toList.head? ≠ some '.' := fun h =>
      (List.head?_eq_some_iff.1 h).elim fun cs hcs => hne cs hcs
    rcases register? token.toList with _ | index
    · rcases scope.value token with _ | value <;> simp [Except.map, hname, hhead, eq_comm]
    · simp [hname, eq_comm]

/-- What a token stands for as a number. -/
theorem value_eq_ok_iff :
    scope.value token = .ok value ↔
      Text.literal? token.toList = some value ∨
      Text.literal? token.toList = none ∧ Text.startsWithDigit token.toList = false ∧
        scope.values.lookup token = some value := by
  rw [Scope.value]
  cases Text.literal? token.toList with
  | some number => simp
  | none =>
    cases Text.startsWithDigit token.toList
    · cases scope.values.lookup token <;> simp
    · simp

theorem value_of_literal? (h : Text.literal? token.toList = some value) :
    scope.value token = .ok value :=
  value_eq_ok_iff.2 (.inl h)

/-- A number is the value of its numeral. -/
theorem value_repr (h : value < Word.limit) : scope.value value.repr = .ok value :=
  value_of_literal? (by rw [Nat.toList_repr, Text.literal?_toDigits h])

theorem operand_repr (h : value < Word.limit) :
    scope.operand value.repr = .ok (.immediate value) := by
  obtain ⟨c, cs, hcs⟩ := List.exists_cons_of_ne_nil (@Nat.toDigits_ne_nil value 10)
  have hc : c.isDigit = true := Text.isDigit_of_mem_toDigits (n := value) (hcs ▸ List.mem_cons_self)
  have hlist : value.repr.toList = c :: cs := by rw [Nat.toList_repr, hcs]
  refine operand_eq_ok_iff.2 (.inr (.inr ⟨value, ?_, ?_, value_repr h, rfl⟩))
  · rw [hlist, List.head?_cons]
    rintro ⟨⟩
    cases hc
  · rw [hlist, register?, if_neg]
    rintro (rfl | rfl | rfl) <;> cases hc

/-- What an operation in the text is. -/
theorem instruction_eq_ok_iff :
    scope.instruction mnemonic tokens = .ok i ↔
      ∃ op operands, Opcode.ofMnemonic? mnemonic = some op ∧
        List.Forall₂ (fun token x => scope.operand token = .ok x) tokens operands ∧
        i = .code op operands ∧ i.WellFormed := by
  rw [instruction]
  rcases Opcode.ofMnemonic? mnemonic with _ | op
  · simp [throw, throwThe, MonadExceptOf.throw]
  · simp only [bind_eq_ok_iff, mapM_eq_ok_iff, Option.some.injEq, exists_and_left, exists_eq_left']
    refine exists_congr fun operands => and_congr_right fun _ => ?_
    rw [← Instruction.build_code_eq_ok_iff]
    rcases Instruction.build (.code op) operands with _ | j
    · simp [throw, throwThe, MonadExceptOf.throw]
    · simp [pure, Except.pure]

end Scope

/-! ## What statements ask for -/

namespace Needs

/-- What is needed to meet two needs. -/
def join (a b : Needs) : Needs :=
  ⟨max a.maxRegister b.maxRegister, max a.minRam b.minRam⟩

/-- Needs that meet others. -/
def Meets (n asked : Needs) : Prop :=
  asked.maxRegister ≤ n.maxRegister ∧ asked.minRam ≤ n.minRam

variable {a b n start : Needs} {asked : List Needs}

theorem meets_empty (n : Needs) : n.Meets {} := ⟨Nat.zero_le _, Nat.zero_le _⟩

theorem eq_of_meets_iff (h : ∀ n : Needs, n.Meets a ↔ n.Meets b) : a = b := by
  have hab := (h b).2 ⟨Nat.le_refl _, Nat.le_refl _⟩
  have hba := (h a).1 ⟨Nat.le_refl _, Nat.le_refl _⟩
  rcases a with ⟨_, _⟩
  rcases b with ⟨_, _⟩
  rw [mk.injEq]
  exact ⟨Nat.le_antisymm hab.1 hba.1, Nat.le_antisymm hab.2 hba.2⟩

theorem meets_join_iff : n.Meets (a.join b) ↔ n.Meets a ∧ n.Meets b := by
  simp only [Meets, join, Nat.max_le]
  tauto

theorem meets_foldl_join_iff :
    n.Meets (asked.foldl join start) ↔ n.Meets start ∧ ∀ a ∈ asked, n.Meets a := by
  induction asked generalizing start with
  | nil => simp
  | cons a asked ih => rw [List.foldl_cons, ih, meets_join_iff, List.forall_mem_cons, and_assoc]

end Needs

/-- What a statement asks of a machine. -/
def Scope.asks (scope : Scope) : Statement → Except LineError Needs
  | .operation mnemonic tokens =>
    (scope.instruction mnemonic tokens).map fun i => { maxRegister := i.highestRegister?.getD 0 }
  | .minReg token => (scope.value token).map fun index => { maxRegister := index }
  | .minRam token => (scope.value token).map fun words => { minRam := words }
  | _ => .ok {}

namespace Source

variable {scope : Scope} {line : SourceLine} {lines : List SourceLine} {needed needed' n : Needs}
  {instructions : List Instruction}

theorem addNeeds_bare_iff :
    addNeeds scope.bare needed line.bare = .ok needed' ↔
      addNeeds scope needed line = .ok needed' := by
  rw [addNeeds, addNeeds, SourceLine.blame_eq_ok_iff, SourceLine.blame_eq_ok_iff]
  rfl

theorem needs_bare_iff :
    needs scope.bare (lines.map SourceLine.bare) = .ok needed' ↔
      needs scope lines = .ok needed' := by
  rw [needs, needs]
  generalize ({} : Needs) = needed
  induction lines generalizing needed with
  | nil => rfl
  | cons line lines ih =>
    simp only [List.map_cons, List.foldlM_cons, bind_eq_ok_iff, addNeeds_bare_iff, ih]

theorem plain_bare_iff :
    plain scope.bare line.bare = .ok instructions ↔ plain scope line = .ok instructions := by
  rw [plain, plain, SourceLine.blame_eq_ok_iff, SourceLine.blame_eq_ok_iff]
  rfl

theorem mapM_bare_iff {f g : SourceLine → Except SourceError (List Instruction)}
    {streams : List (List Instruction)}
    (h : ∀ line stream, f line.bare = .ok stream ↔ g line = .ok stream) :
    (lines.map SourceLine.bare).mapM f = .ok streams ↔ lines.mapM g = .ok streams := by
  rw [mapM_eq_ok_iff, mapM_eq_ok_iff, List.forall₂_map_left_iff]
  simp only [h]

theorem emit_bare_iff :
    emit scope.bare line.bare = .ok instructions ↔ emit scope line = .ok instructions := by
  rw [emit, emit, SourceLine.statement_bare]
  split
  · next name _ =>
    rw [Scope.lookup_macros_bare]
    rcases scope.macros.lookup name with _ | body
    · constructor <;> (intro h; cases h)
    · simp only [Option.map_some, bind_eq_ok_iff, mapM_bare_iff fun _ _ => plain_bare_iff]
  · exact plain_bare_iff

theorem stream_bare_iff {d : Discovery} :
    stream d.bare needed = .ok instructions ↔ stream d needed = .ok instructions := by
  rw [stream, stream, bind_eq_ok_iff, bind_eq_ok_iff]
  refine exists_congr fun streams => and_congr_left fun _ => ?_
  exact mapM_bare_iff fun _ _ => emit_bare_iff

/-- A line adds what its statement asks for. -/
theorem addNeeds_eq (scope : Scope) (needed : Needs) (line : SourceLine) :
    addNeeds scope needed line = line.blame ((scope.asks line.statement).map needed.join) := by
  rw [addNeeds]
  congr 1
  split
  · next mnemonic tokens hs =>
    rw [hs, Scope.asks]
    rcases scope.instruction mnemonic tokens with _ | i
    · rfl
    · simp [Except.map, bind, Except.bind, pure, Except.pure, Needs.join]
  · next token hs =>
    rw [hs, Scope.asks]
    rcases scope.value token with _ | index
    · rfl
    · simp [Except.map, bind, Except.bind, pure, Except.pure, Needs.join]
  · next token hs =>
    rw [hs, Scope.asks]
    rcases scope.value token with _ | words
    · rfl
    · simp [Except.map, bind, Except.bind, pure, Except.pure, Needs.join]
  · next ho hreg hram =>
    rw [Scope.asks.eq_4 _ _ ho hreg hram]
    simp [Except.map, pure, Except.pure, Needs.join]

theorem addNeeds_eq_ok_iff :
    addNeeds scope needed line = .ok needed' ↔
      ∃ asked, scope.asks line.statement = .ok asked ∧ needed.join asked = needed' := by
  rw [addNeeds_eq, SourceLine.blame_eq_ok_iff]
  cases scope.asks line.statement <;> simp [Except.map]

/-- What is needed is the most that any statement asks for. -/
theorem needs_eq_ok_iff :
    needs scope lines = .ok needed ↔
      ∃ asked, List.Forall₂ (fun line a => scope.asks line.statement = .ok a) lines asked ∧
        asked.foldl Needs.join {} = needed := by
  rw [needs]
  generalize ({} : Needs) = start
  induction lines generalizing start with
  | nil =>
    simp only [List.foldlM_nil, List.forall₂_nil_left_iff, exists_eq_left, List.foldl_nil]
    exact Except.ok.injEq start needed ▸ Iff.rfl
  | cons line lines ih =>
    simp only [List.foldlM_cons, bind_eq_ok_iff, addNeeds_eq_ok_iff, ih]
    constructor
    · rintro ⟨_, ⟨a, ha, rfl⟩, asked, hasked, rfl⟩
      exact ⟨a :: asked, .cons ha hasked, rfl⟩
    · rintro ⟨_, hall, rfl⟩
      obtain ⟨a, asked, ha, hasked, rfl⟩ := List.forall₂_cons_left_iff.1 hall
      exact ⟨_, ⟨a, ha, rfl⟩, asked, hasked, rfl⟩

/-- What is needed is the least that meets what each line asks for. -/
theorem meets_needs_iff (h : needs scope lines = .ok needed) :
    n.Meets needed ↔
      ∀ line ∈ lines, ∀ asked, scope.asks line.statement = .ok asked → n.Meets asked := by
  obtain ⟨asked, hasked, rfl⟩ := needs_eq_ok_iff.1 h
  rw [Needs.meets_foldl_join_iff, and_iff_right (Needs.meets_empty n)]
  clear h
  induction hasked with
  | nil => simp
  | cons ha _ ih => simp [ih, ha]

/-! ## Programs of statements -/

/-- The program of lines that are not blank. -/
def assembleLines (lines : List SourceLine) : Except SourceError Program := do
  let d ← Discovery.ofLines lines
  let needs ← needs d.scope lines
  return ⟨← stream d needs, d.scope.labels⟩

/-- The program of a list of statements. -/
def ofStatements (ss : List Statement) : Except SourceError Program :=
  assembleLines (ss.map SourceLine.ofStatement)

theorem assembleLines_bare_iff {program : Program} :
    assembleLines (lines.map SourceLine.bare) = .ok program ↔
      assembleLines lines = .ok program := by
  simp only [assembleLines, bind_eq_ok_iff, Discovery.ofLines_bare_iff]
  constructor
  · rintro ⟨_, ⟨d, hd, rfl⟩, needed, hn, instructions, hs, h⟩
    exact ⟨d, hd, needed, needs_bare_iff.1 hn, instructions, stream_bare_iff.1 hs, h⟩
  · rintro ⟨d, hd, needed, hn, instructions, hs, h⟩
    exact ⟨d.bare, ⟨d, hd, rfl⟩, needed, needs_bare_iff.2 hn, instructions, stream_bare_iff.2 hs, h⟩

/-- A text is assembled by its statements. -/
theorem assemble_eq_ok_iff {raws : List String} {program : Program} :
    assemble raws = .ok program ↔ ∃ ss, Reads raws ss ∧ ofStatements ss = .ok program := by
  have hread : assemble raws = SourceLine.read raws >>= assembleLines := rfl
  rw [hread, bind_eq_ok_iff]
  constructor
  · rintro ⟨lines, hl, h⟩
    refine ⟨lines.map SourceLine.statement, Reads.readFrom_iff.1 ⟨lines, hl, rfl⟩, ?_⟩
    rw [ofStatements, ← SourceLine.map_bare]
    exact assembleLines_bare_iff.2 h
  · rintro ⟨ss, hss, h⟩
    obtain ⟨lines, hl, rfl⟩ := Reads.readFrom_iff.2 hss
    rw [ofStatements, ← SourceLine.map_bare] at h
    exact ⟨lines, hl, assembleLines_bare_iff.1 h⟩

/-- What it takes to have the program of a list of statements. -/
theorem ofStatements_eq_ok_iff {ss : List Statement} {program : Program} :
    ofStatements ss = .ok program ↔
      ∃ d needed streams,
        Discovery.ofLines (ss.map SourceLine.ofStatement) = .ok d ∧
        needs d.scope (ss.map SourceLine.ofStatement) = .ok needed ∧
        List.Forall₂ (fun line stream => emit d.scope line = .ok stream) d.outside streams ∧
        program = ⟨.note (.maxReg needed.maxRegister) :: .note (.minRam needed.minRam) ::
          streams.flatten, d.scope.labels⟩ := by
  simp only [ofStatements, assembleLines, stream, bind_eq_ok_iff, mapM_eq_ok_iff]
  constructor
  · rintro ⟨d, hd, needed, hn, instructions, ⟨streams, hs, hi⟩, h⟩
    cases hi
    cases h
    exact ⟨d, needed, streams, hd, hn, hs, rfl⟩
  · rintro ⟨d, needed, streams, hd, hn, hs, rfl⟩
    exact ⟨d, hd, needed, hn, _, ⟨streams, hs, rfl⟩, rfl⟩

end Source
end Wordcode
