import Wordcode.Proofs.Language
import Wordcode.Proofs.Substitution

/-!
# Macros are abbreviations

A text says the same without its macros. `Source.unabbreviated` takes them out of the lines
themselves: a name of a value becomes the numeral of the value, the lines that give names to
values go, and a line that uses a macro becomes the lines of the macro. The macros remain where
they are defined, where they have no effect but for what they ask of the machine.

The proof is about statements. `Source.expansion` says what becomes of one statement, and the
first pass over what the statements so far have become has collected what it had before, with
the names of values gone (`Discovery.expanded`). The second pass sees some statements again,
and finds the same most of what they ask for; the third sees each line of a macro where it had
looked it up.

* `Source.unabbreviated`: a text without macros;
* `Source.reads_unabbreviated`: its statements;
* `Discovery.foldlM_expansion`: the first pass over them;
* `Source.assemble_unabbreviated`: its program is the same, without the bounds of macros.
-/

namespace Wordcode

/-! ## Texts without macros -/

namespace Statement

/-- The statement on a line, if there is one. -/
def on? (raw : String) : Option Statement :=
  match ofLine? raw.toList with
  | .ok s => s
  | .error _ => none

end Statement

namespace Scope

/-- A token, or the numeral of its value if it is the name of one. -/
def numeral (scope : Scope) (token : String) : String :=
  if (Text.literal? token.toList).isSome || Text.startsWithDigit token.toList then token
  else ((scope.values.lookup token).map Nat.repr).getD token

/-- The same for a token that is an operand, and so may be a label or a register as well. -/
def spelled (scope : Scope) (token : String) : String :=
  if token.toList.head? = some '.' ∨ (register? token.toList).isSome then token
  else scope.numeral token

/-- A line with numerals in place of the names of values. -/
def respelled (scope : Scope) (raw : String) : String :=
  match Statement.on? raw with
  | some (.operation _ _) => Statement.replaceArguments scope.spelled raw
  | some (.minRam _) | some (.minReg _) => Statement.replaceArguments scope.numeral raw
  | _ => raw

end Scope

namespace Source

/-- The names that the lines of a text define. -/
def scopeOf (lines : List String) : Scope :=
  match SourceLine.read lines >>= Discovery.ofLines with
  | .ok d => d.scope
  | .error _ => {}

/-- The lines of a macro: those from the line that begins it to the next that ends one. -/
def bodyLines (name : String) (lines : List String) : List String :=
  ((lines.dropWhile (Statement.on? · ≠ some (.macroBegin name))).drop 1).takeWhile
    (Statement.on? · ≠ some .macroEnd)

/-- What becomes of one of the lines of a text. -/
def expandedLine (scope : Scope) (lines : List String) (raw : String) : List String :=
  match Statement.on? raw with
  | some (.valueMacro _ _) => []
  | some (.macroUse name) => (bodyLines name lines).map scope.respelled
  | _ => [scope.respelled raw]

/-- The lines of a text without macros. -/
def unabbreviated (lines : List String) : List String :=
  lines.flatMap (expandedLine (scopeOf lines) lines)

end Source

/-! ## Statements without macros -/

/-- A statement with numerals in place of the names of values. -/
def Scope.respell (scope : Scope) : Statement → Statement
  | .operation mnemonic tokens => .operation mnemonic (tokens.map scope.spelled)
  | .minRam token => .minRam (scope.numeral token)
  | .minReg token => .minReg (scope.numeral token)
  | s => s

namespace Source

/-- The statements of a macro. -/
def body (name : String) (ss : List Statement) : List Statement :=
  ((ss.dropWhile (· ≠ .macroBegin name)).drop 1).takeWhile (· ≠ .macroEnd)

/-- What becomes of a statement of a text without its macros. -/
def expansion (scope : Scope) (ss : List Statement) : Statement → List Statement
  | .valueMacro _ _ => []
  | .macroUse name => (body name ss).map scope.respell
  | s => [scope.respell s]

end Source

namespace Statement

variable {raw : String} {s : Statement}

theorem on?_eq_some_iff : on? raw = some s ↔ ofLine? raw.toList = .ok (some s) := by
  rw [on?]
  split <;> simp_all

theorem on?_of_blank (h : ofLine? raw.toList = .ok none) : on? raw = none := by rw [on?, h]

end Statement

namespace Scope

variable {scope : Scope} {token raw : String} {s : Statement}

theorem numeral_cases (scope : Scope) (token : String) :
    scope.numeral token = token ∨ ∃ n : Nat, scope.numeral token = n.repr := by
  rw [numeral]
  split
  · exact .inl rfl
  · cases scope.values.lookup token with
    | none => exact .inl rfl
    | some value => exact .inr ⟨value, rfl⟩

theorem spelled_cases (scope : Scope) (token : String) :
    scope.spelled token = token ∨ ∃ n : Nat, scope.spelled token = n.repr := by
  rw [spelled]
  split
  · exact .inl rfl
  · exact numeral_cases scope token

/-- What a line says with numerals in place of names. -/
theorem ofLine?_respelled (h : Statement.ofLine? raw.toList = .ok (some s)) :
    Statement.ofLine? (scope.respelled raw).toList = .ok (some (scope.respell s)) := by
  rw [respelled, Statement.on?_eq_some_iff.2 h]
  rcases s with _ | _ | _ | _ | _ | _ | _ | _ | _
  case operation =>
    rw [Statement.ofLine?_eq_some_iff] at h ⊢
    exact Statement.says_replaceArguments_operation (spelled_cases scope) h
  case minRam =>
    rw [Statement.ofLine?_eq_some_iff] at h ⊢
    rcases h with _ | _ | _ | _ | _ | h
    exact .minRam (h.replaceArguments (numeral_cases scope))
  case minReg =>
    rw [Statement.ofLine?_eq_some_iff] at h ⊢
    rcases h with _ | _ | _ | _ | _ | _ | h
    exact .minReg (h.replaceArguments (numeral_cases scope))
  all_goals exact h

theorem respelled_of_blank (h : Statement.ofLine? raw.toList = .ok none) :
    scope.respelled raw = raw := by
  rw [respelled, Statement.on?_of_blank h]

end Scope

namespace Source

variable {scope : Scope} {raws : List String} {ss : List Statement} {s : Statement}

namespace Reads

theorem respelled (h : Reads raws ss) (scope : Scope) :
    Reads (raws.map scope.respelled) (ss.map scope.respell) := by
  induction h with
  | nil => exact .nil
  | @blank raw _ _ hraw _ ih =>
    refine .blank ?_ ih
    rw [Scope.respelled_of_blank hraw]
    exact hraw
  | line hraw _ ih => exact .line (Scope.ofLine?_respelled hraw) ih

theorem after (h : Reads raws ss) (s : Statement) :
    Reads ((raws.dropWhile (Statement.on? · ≠ some s)).drop 1) ((ss.dropWhile (· ≠ s)).drop 1) := by
  induction h with
  | nil => exact .nil
  | blank hraw _ ih =>
    rw [List.dropWhile_cons_of_pos (by simp [Statement.on?_of_blank hraw])]
    exact ih
  | @line raw raws s' ss hraw hrest ih =>
    have hon := Statement.on?_eq_some_iff.2 hraw
    by_cases hs : s' = s
    · rw [List.dropWhile_cons_of_neg (by simp [hon, hs]), List.dropWhile_cons_of_neg (by simp [hs])]
      exact hrest
    · rw [List.dropWhile_cons_of_pos (by simp [hon, hs]), List.dropWhile_cons_of_pos (by simp [hs])]
      exact ih

theorem upTo (h : Reads raws ss) (s : Statement) :
    Reads (raws.takeWhile (Statement.on? · ≠ some s)) (ss.takeWhile (· ≠ s)) := by
  induction h with
  | nil => exact .nil
  | blank hraw _ ih =>
    rw [List.takeWhile_cons_of_pos (by simp [Statement.on?_of_blank hraw])]
    exact .blank hraw ih
  | @line raw raws s' ss hraw _ ih =>
    have hon := Statement.on?_eq_some_iff.2 hraw
    by_cases hs : s' = s
    · rw [List.takeWhile_cons_of_neg (by simp [hon, hs]), List.takeWhile_cons_of_neg (by simp [hs])]
      exact .nil
    · rw [List.takeWhile_cons_of_pos (by simp [hon, hs]), List.takeWhile_cons_of_pos (by simp [hs])]
      exact .line hraw ih

theorem bodyLines (h : Reads raws ss) (name : String) :
    Reads (bodyLines name raws) (body name ss) :=
  (h.after _).upTo _

/-- The statements of what becomes of one line. -/
theorem expandedLine (h : Reads raws ss) (scope : Scope) {raw : String}
    (hraw : Statement.ofLine? raw.toList = .ok (some s)) :
    Reads (expandedLine scope raws raw) (expansion scope ss s) := by
  rw [Source.expandedLine, Statement.on?_eq_some_iff.2 hraw]
  have hone : Reads [scope.respelled raw] [scope.respell s] :=
    .line (Scope.ofLine?_respelled hraw) .nil
  rcases s with _ | _ | _ | _ | name | _ | _ | _ | _
  case valueMacro => exact .nil
  case macroUse => exact (h.bodyLines name).respelled scope
  all_goals exact hone

theorem flatMap_expandedLine (h : Reads raws ss) (scope : Scope) {all : List String}
    {every : List Statement} (hall : Reads all every) :
    Reads (raws.flatMap (Source.expandedLine scope all)) (ss.flatMap (expansion scope every)) := by
  induction h with
  | nil => exact .nil
  | @blank raw _ _ hraw _ ih =>
    have hline : Source.expandedLine scope all raw = [raw] := by
      rw [Source.expandedLine, Statement.on?_of_blank hraw]
      exact congrArg (fun line => [line]) (Scope.respelled_of_blank hraw)
    rw [List.flatMap_cons, hline]
    exact .blank hraw ih
  | line hraw _ ih =>
    rw [List.flatMap_cons, List.flatMap_cons]
    exact (hall.expandedLine scope hraw).append ih

end Reads

/-- The statements of a text without its macros. -/
theorem reads_unabbreviated (h : Reads raws ss) :
    Reads (unabbreviated raws) (ss.flatMap (expansion (scopeOf raws) ss)) :=
  h.flatMap_expandedLine _ h

end Source

/-! ## What is said stays the same -/

namespace Scope

/-- Every value of a scope fits the widest word. -/
def Bounded (scope : Scope) : Prop :=
  ∀ name value, scope.values.lookup name = some value → value < Word.limit

variable {scope scope' : Scope} {token mnemonic : String} {tokens : List String} {value : Nat}

theorem value_lt (h : scope.Bounded) (hv : scope.value token = .ok value) :
    value < Word.limit := by
  rcases value_eq_ok_iff.1 hv with hl | ⟨-, -, hlookup⟩
  · exact Text.literal?_lt hl
  · exact h token value hlookup

/-- A token that has a value is a numeral of it, or the numeral of the value is put in its place. -/
theorem numeral_eq (hv : scope.value token = .ok value) :
    Text.literal? token.toList = some value ∧ scope.numeral token = token ∨
      scope.numeral token = value.repr := by
  rw [numeral]
  rcases value_eq_ok_iff.1 hv with hl | ⟨hl, hdigit, hlookup⟩
  · simp [hl]
  · simp [hl, hdigit, hlookup]

/-- A token with a numeral in its place has the same value in every scope. -/
theorem value_numeral (h : scope.Bounded) (hv : scope.value token = .ok value) :
    scope'.value (scope.numeral token) = .ok value := by
  rcases numeral_eq hv with ⟨hl, he⟩ | he
  · rw [he, value_of_literal? hl]
  · rw [he, value_repr (value_lt h hv)]

/-- A token with a numeral in its place is the same operand wherever the labels are. -/
theorem operand_spelled (h : scope.Bounded) (hlabels : scope'.labels = scope.labels) {x : Operand}
    (hx : scope.operand token = .ok x) : scope'.operand (scope.spelled token) = .ok x := by
  rw [spelled]
  rcases operand_eq_ok_iff.1 hx with ⟨name, label, rfl, hl, rfl⟩ | ⟨index, hr, rfl⟩ |
    ⟨value, hdot, hr, hv, rfl⟩
  · rw [if_pos (.inl (by simp))]
    exact operand_eq_ok_iff.2 (.inl ⟨name, label, rfl, hlabels ▸ hl, rfl⟩)
  · rw [if_pos (.inr (by rw [hr]; rfl))]
    exact operand_eq_ok_iff.2 (.inr (.inl ⟨index, hr, rfl⟩))
  · rw [if_neg (by simp [hdot, hr])]
    rcases numeral_eq hv with ⟨hl, he⟩ | he
    · rw [he]
      exact operand_eq_ok_iff.2 (.inr (.inr ⟨value, hdot, hr, value_of_literal? hl, rfl⟩))
    · rw [he, operand_repr (value_lt h hv)]

theorem instruction_spelled (h : scope.Bounded) (hlabels : scope'.labels = scope.labels)
    {i : Instruction} (hi : scope.instruction mnemonic tokens = .ok i) :
    scope'.instruction mnemonic (tokens.map scope.spelled) = .ok i := by
  obtain ⟨op, operands, hop, htokens, he⟩ := instruction_eq_ok_iff.1 hi
  refine instruction_eq_ok_iff.2 ⟨op, operands, hop, ?_, he⟩
  rw [List.forall₂_map_left_iff]
  exact htokens.imp fun _ _ hx => operand_spelled h hlabels hx

theorem asks_respell (h : scope.Bounded) (hlabels : scope'.labels = scope.labels) {s : Statement}
    {asked : Needs} (ha : scope.asks s = .ok asked) :
    scope'.asks (scope.respell s) = .ok asked := by
  rcases s with _ | _ | _ | _ | _ | token | token | _ | ⟨mnemonic, tokens⟩
  case operation =>
    obtain ⟨i, hi, rfl⟩ := map_eq_ok_iff.1 ha
    exact map_eq_ok_iff.2 ⟨i, instruction_spelled h hlabels hi, rfl⟩
  case minRam =>
    obtain ⟨words, hw, rfl⟩ := map_eq_ok_iff.1 ha
    exact map_eq_ok_iff.2 ⟨words, value_numeral h hw, rfl⟩
  case minReg =>
    obtain ⟨index, hi, rfl⟩ := map_eq_ok_iff.1 ha
    exact map_eq_ok_iff.2 ⟨index, value_numeral h hi, rfl⟩
  all_goals exact ha

end Scope

theorem Source.plain_respell {scope scope' : Scope} (h : scope.Bounded)
    (hlabels : scope'.labels = scope.labels) {line : SourceLine} {stream : List Instruction}
    (hs : plain scope line = .ok stream) :
    plain scope' (.ofStatement (scope.respell line.statement)) = .ok stream := by
  rw [plain, SourceLine.blame_eq_ok_iff] at hs ⊢
  rcases hl : line.statement with _ | _ | _ | _ | _ | _ | _ | _ | ⟨mnemonic, tokens⟩ <;>
    rw [hl] at hs
  case operation =>
    obtain ⟨i, hi, hstream⟩ := bind_eq_ok_iff.1 hs
    exact bind_eq_ok_iff.2 ⟨i, Scope.instruction_spelled h hlabels hi, hstream⟩
  case label =>
    simp only [SourceLine.statement_ofStatement, Scope.respell, hlabels]
    exact hs
  all_goals exact hs

/-! ## What the first pass collects -/

namespace Discovery

open Source

variable {before ss : List Statement} {d d' : Discovery} {line : SourceLine}

/-- A macro that was begun in a text holds these lines, none of which is out of place. -/
def Begun (before : List Statement) (name : String) (body : List SourceLine)
    (after : List Statement) : Prop :=
  (∀ line ∈ body, line.statement.isPlain = true) ∧
    ∃ front, before = front ++ .macroBegin name :: (body.map SourceLine.statement ++ after) ∧
      .macroBegin name ∉ front

/-- Where the macros of a scope come from, and what its values are like. -/
structure Records (before : List Statement) (d : Discovery) : Prop where
  values : d.scope.Bounded
  macros : ∀ name body, d.scope.macros.lookup name = some body →
    ∃ after, Begun before name body (.macroEnd :: after)
  pending : ∀ m, d.pending = some m → Begun before m.name m.body []

namespace Records

theorem nil : Records [] {} where
  values _ _ h := by cases h
  macros _ _ h := by cases h
  pending _ h := by cases h

theorem begun_concat {name : String} {body : List SourceLine} {after : List Statement}
    (h : Begun before name body after) (s : Statement) :
    Begun (before ++ [s]) name body (after ++ [s]) := by
  obtain ⟨hplain, front, rfl, hfront⟩ := h
  exact ⟨hplain, front, by simp, hfront⟩

theorem macros_concat (h : Records before d) (s : Statement) {name : String}
    {body : List SourceLine} (hm : d.scope.macros.lookup name = some body) :
    ∃ after, Begun (before ++ [s]) name body (.macroEnd :: after) := by
  obtain ⟨after, hbegun⟩ := h.macros name body hm
  exact ⟨after ++ [s], begun_concat hbegun s⟩

/-- Where macros come from stays known with one more line. -/
theorem takes (h : Records before d) (htracks : Tracks before d) (ht : d.Takes line d') :
    Records (before ++ [line.statement]) d' := by
  cases ht with
  | @begin name hs hp hn =>
    refine ⟨h.values, fun _ _ => h.macros_concat _, ?_⟩
    rintro m ⟨⟩
    refine ⟨fun _ hl => absurd hl List.not_mem_nil, before, by simp [hs], ?_⟩
    exact (htracks.lookup_macros_eq_none_iff hp).1 hn
  | @finish m hs hm =>
    refine ⟨h.values, fun name body hlookup => ?_, fun m hm => by cases hm⟩
    rcases lookup_cons_cases hlookup with ⟨rfl, rfl⟩ | hlookup
    · have := begun_concat (h.pending m hm) line.statement
      rw [hs] at this ⊢
      exact ⟨[], this⟩
    · exact h.macros_concat _ hlookup
  | label hs hp =>
    exact ⟨h.values, fun _ _ => h.macros_concat _, fun m hm => by cases hp.symm.trans hm⟩
  | @value name token value hs hp hv =>
    refine ⟨fun other value' hlookup => ?_, fun _ _ => h.macros_concat _,
      fun m hm => by cases hp.symm.trans hm⟩
    rcases lookup_cons_cases hlookup with ⟨-, rfl⟩ | hlookup
    · exact Scope.value_lt h.values hv
    · exact h.values other value' hlookup
  | use hs hp =>
    exact ⟨h.values, fun _ _ => h.macros_concat _, fun m hm => by cases hp.symm.trans hm⟩
  | outside hs hp =>
    exact ⟨h.values, fun _ _ => h.macros_concat _, fun m hm => by cases hp.symm.trans hm⟩
  | @inside m hs hm =>
    refine ⟨h.values, fun _ _ => h.macros_concat _, ?_⟩
    rintro m' ⟨⟩
    obtain ⟨hplain, front, rfl, hfront⟩ := h.pending m hm
    refine ⟨?_, front, by simp, hfront⟩
    simpa [or_imp, forall_and, hs] using hplain

end Records

theorem records_of_ofLines (hd : ofLines (ss.map SourceLine.ofStatement) = .ok d) :
    Records ss d :=
  (of_foldlM (P := fun before d => Tracks before d ∧ Records before d)
    (fun _ _ _ _ h ht => ⟨h.1.takes ht, h.2.takes h.1 ht⟩) ⟨.nil, .nil⟩
    (ofLines_eq_ok_iff.1 hd).1).2

/-- The lines of a macro are found in the text. -/
theorem Begun.body_eq {name : String} {body : List SourceLine} {after : List Statement}
    (h : Begun ss name body (.macroEnd :: after)) :
    Source.body name ss = body.map SourceLine.statement := by
  obtain ⟨hplain, front, rfl, hfront⟩ := h
  have hskip : ∀ s ∈ front, decide (s ≠ .macroBegin name) = true := by
    intro s hs
    rw [decide_eq_true_eq]
    rintro rfl
    exact hfront hs
  have hkeep : ∀ s ∈ body.map SourceLine.statement, decide (s ≠ .macroEnd) = true := by
    rw [List.forall_mem_map]
    intro line hl
    rw [decide_eq_true_eq]
    intro he
    have := hplain line hl
    rw [he] at this
    cases this
  rw [Source.body, List.dropWhile_append_of_pos hskip, List.dropWhile_cons_of_neg (by simp),
    List.drop_one, List.tail_cons, List.takeWhile_append_of_pos hkeep,
    List.takeWhile_cons_of_neg (by simp), List.append_nil]

/-- What a text calls the lines of a macro are lines that may stand in a macro. -/
theorem isPlain_of_mem_body (hd : ofLines (ss.map SourceLine.ofStatement) = .ok d)
    {name : String} {s : Statement} (hs : s ∈ Source.body name ss) : s.isPlain = true := by
  have hdefined := (tracks_of_ofLines hd).macros name
  rw [(ofLines_eq_ok_iff.1 hd).2] at hdefined
  cases hlookup : d.scope.macros.lookup name with
  | some body =>
    obtain ⟨after, hbegun⟩ := (records_of_ofLines hd).macros name body hlookup
    rw [hbegun.body_eq] at hs
    obtain ⟨line, hl, rfl⟩ := List.mem_map.1 hs
    exact hbegun.1 line hl
  | none =>
    -- no line begins such a macro
    rw [hlookup] at hdefined
    have hskip : ∀ s ∈ ss, decide (s ≠ .macroBegin name) = true := by
      intro s hs
      rw [decide_eq_true_eq]
      rintro rfl
      simpa using hdefined.2 hs
    rw [Source.body, ← List.append_nil ss, List.dropWhile_append_of_pos hskip] at hs
    cases hs

/-! ## The first pass without macros -/

/-- A line with numerals in place of the names of values. -/
def respellLine (scope : Scope) (line : SourceLine) : SourceLine :=
  .ofStatement (scope.respell line.statement)

/-- The lines that become of a line. -/
def expandLine (scope : Scope) (ss : List Statement) (line : SourceLine) : List SourceLine :=
  (expansion scope ss line.statement).map SourceLine.ofStatement

/-- What is collected from statements without macros. -/
def expanded (d : Discovery) (scope : Scope) (ss : List Statement) : Discovery where
  scope := {
    labels := d.scope.labels
    macros := d.scope.macros.map fun m => (m.1, m.2.map (respellLine scope)) }
  pending := d.pending.map fun m => ⟨m.name, m.line, m.body.map (respellLine scope)⟩
  outside := d.outside.flatMap (expandLine scope ss)

theorem labels_expanded (d : Discovery) (scope : Scope) (ss : List Statement) :
    (d.expanded scope ss).scope.labels = d.scope.labels := rfl

variable {scope : Scope} {s : Statement}

theorem isPlain_respell : (scope.respell s).isPlain = s.isPlain := by
  rcases s with _ | _ | _ | _ | _ | _ | _ | _ | _ <;> rfl

theorem expansion_of_isPlain (h : s.isPlain = true) : expansion scope ss s = [scope.respell s] := by
  rcases s with _ | _ | _ | _ | _ | _ | _ | _ | _ <;> first | rfl | cases h

/-- Plain lines outside of macros are kept one after the other. -/
theorem foldlM_add_of_isPlain {lines : List SourceLine} (hp : d.pending = none)
    (h : ∀ line ∈ lines, line.statement.isPlain = true) :
    lines.foldlM add d = .ok { d with outside := d.outside ++ lines } := by
  induction lines generalizing d with
  | nil => simp [pure, Except.pure]
  | cons line lines ih =>
    rw [List.forall_mem_cons] at h
    rw [List.foldlM_cons, bind_eq_ok_iff]
    refine ⟨_, add_of_takes (.outside h.1 hp), ?_⟩
    rw [ih (d := { d with outside := d.outside ++ [line] }) hp h.2]
    simp

/-- What becomes of a line is taken as the line is. -/
theorem foldlM_expandLine (hbody : ∀ name, ∀ s ∈ Source.body name ss, s.isPlain = true)
    (h : d.Takes (.ofStatement s) d') :
    (expandLine scope ss (.ofStatement s)).foldlM add (d.expanded scope ss) =
      .ok (d'.expanded scope ss) := by
  have hone {x : SourceLine} {e e' : Discovery} (h : e.Takes x e') :
      [x].foldlM add e = .ok e' := by
    rw [List.foldlM_cons, add_of_takes h]
    rfl
  have hpending {m : Option OpenMacro} (hp : d.pending = m) : (d.expanded scope ss).pending =
      m.map fun m => ⟨m.name, m.line, m.body.map (respellLine scope)⟩ := by
    rw [expanded, hp]
  have houtside (scope' : Scope) : ({ d with
        scope := scope', outside := d.outside ++ [.ofStatement s] } : Discovery).expanded scope ss =
      { ({ d with scope := scope' } : Discovery).expanded scope ss with
        outside := (d.expanded scope ss).outside ++ expandLine scope ss (.ofStatement s) } := by
    simp [expanded]
  rw [expandLine, SourceLine.statement_ofStatement]
  cases h with
  | @begin name hs hp hn =>
    cases hs
    refine hone (.begin rfl (hpending hp) ?_)
    rw [expanded]
    exact (lookup_map_snd _ _ _).trans (by rw [hn]; rfl)
  | @finish m hs hm =>
    cases hs
    exact hone (@Takes.finish _ (.ofStatement .macroEnd) _ rfl (hpending hm))
  | @label name hs hp hn =>
    cases hs
    rw [houtside]
    exact hone (.label rfl (hpending hp) hn)
  | value hs hp =>
    cases hs
    rfl
  | @use name hs hp =>
    cases hs
    rw [houtside d.scope]
    refine foldlM_add_of_isPlain (hpending hp) ?_
    rw [expansion, List.map_map, List.forall_mem_map]
    exact fun s hs => isPlain_respell.trans (hbody name s hs)
  | @inside m hs hm =>
    rw [SourceLine.statement_ofStatement] at hs
    rw [expansion_of_isPlain hs]
    have hbody : ({ d with pending := some { m with body := m.body ++ [.ofStatement s] } } :
        Discovery).expanded scope ss = { d.expanded scope ss with
          pending := some ⟨m.name, m.line, m.body.map (respellLine scope) ++
            [.ofStatement (scope.respell s)]⟩ } := by
      simp [expanded, respellLine]
    rw [hbody]
    exact hone (@Takes.inside _ (.ofStatement (scope.respell s)) _ (isPlain_respell.trans hs)
      (hpending hm))
  | outside hs hp =>
    rw [houtside d.scope]
    refine foldlM_add_of_isPlain (hpending hp) ?_
    rw [SourceLine.statement_ofStatement] at hs
    rw [expansion_of_isPlain hs]
    exact List.forall_mem_singleton.2 (isPlain_respell.trans hs)

/-- What becomes of a text is taken as the text is. -/
theorem foldlM_expansion (hbody : ∀ name, ∀ s ∈ Source.body name ss, s.isPlain = true)
    {rest : List Statement} (h : (rest.map SourceLine.ofStatement).foldlM add d = .ok d') :
    ((rest.flatMap (expansion scope ss)).map SourceLine.ofStatement).foldlM add
      (d.expanded scope ss) = .ok (d'.expanded scope ss) := by
  induction rest generalizing d with
  | nil =>
    rw [← Except.ok.inj h]
    rfl
  | cons s rest ih =>
    rw [List.map_cons, List.foldlM_cons, bind_eq_ok_iff] at h
    obtain ⟨next, hn, h⟩ := h
    rw [List.flatMap_cons, List.map_append, List.foldlM_append, bind_eq_ok_iff]
    exact ⟨_, foldlM_expandLine hbody (takes_of_add hn), ih h⟩

/-- The first pass over a text without its macros. -/
theorem ofLines_expansion (h : ofLines (ss.map SourceLine.ofStatement) = .ok d) :
    ofLines ((ss.flatMap (expansion scope ss)).map SourceLine.ofStatement) =
      .ok (d.expanded scope ss) := by
  obtain ⟨hfold, hp⟩ := ofLines_eq_ok_iff.1 h
  have hempty : ({} : Discovery) = expanded {} scope ss := rfl
  refine ofLines_eq_ok_iff.2 ⟨?_, by rw [expanded, hp]; rfl⟩
  rw [hempty]
  exact foldlM_expansion (fun _ _ => isPlain_of_mem_body h) hfold

end Discovery

/-! ## The other passes without macros -/

namespace Source

variable {ss : List Statement} {d : Discovery} {scope : Scope} {needed : Needs} {s : Statement}

theorem mem_of_mem_body {name : String} (h : s ∈ body name ss) : s ∈ ss :=
  (List.dropWhile_suffix _).subset (List.mem_of_mem_drop ((List.takeWhile_prefix _).subset h))

/-- What becomes of a text is made of statements of the text. -/
theorem exists_of_mem_flatMap_expansion (h : s ∈ ss.flatMap (expansion scope ss)) :
    ∃ s' ∈ ss, s = scope.respell s' := by
  obtain ⟨s', hs', h⟩ := List.mem_flatMap.1 h
  rcases s' with _ | _ | _ | _ | _ | _ | _ | _ | _
  case valueMacro => cases h
  case macroUse =>
    obtain ⟨s'', hs'', rfl⟩ := List.mem_map.1 h
    exact ⟨s'', mem_of_mem_body hs'', rfl⟩
  all_goals exact ⟨_, hs', List.mem_singleton.1 h⟩

/-- The second pass over a text without its macros. -/
theorem needs_expansion (h : Discovery.ofLines (ss.map SourceLine.ofStatement) = .ok d)
    (hn : needs d.scope (ss.map SourceLine.ofStatement) = .ok needed) :
    needs (d.expanded d.scope ss).scope
      ((ss.flatMap (expansion d.scope ss)).map SourceLine.ofStatement) = .ok needed := by
  have hbounded := (Discovery.records_of_ofLines h).values
  have hasks := exists_needs_iff.1 ⟨needed, hn⟩
  simp only [List.forall_mem_map, SourceLine.statement_ofStatement] at hasks
  have hrespell {s : Statement} {asked : Needs} (ha : d.scope.asks s = .ok asked) :
      (d.expanded d.scope ss).scope.asks (d.scope.respell s) = .ok asked :=
    Scope.asks_respell hbounded (Discovery.labels_expanded d d.scope ss) ha
  obtain ⟨needed', hn'⟩ := (@exists_needs_iff (d.expanded d.scope ss).scope
      ((ss.flatMap (expansion d.scope ss)).map SourceLine.ofStatement)).2 (by
    rw [List.forall_mem_map]
    intro s hs
    obtain ⟨s', hs', rfl⟩ := exists_of_mem_flatMap_expansion hs
    obtain ⟨asked, ha⟩ := hasks s' hs'
    exact ⟨asked, hrespell ha⟩)
  rw [hn', Except.ok.injEq]
  refine Needs.eq_of_meets_iff fun n => ?_
  rw [meets_needs_iff hn', meets_needs_iff hn, List.forall_mem_map, List.forall_mem_map]
  constructor
  · intro hall s hs asked ha
    by_cases hgone : (∃ name token, s = .valueMacro name token) ∨ ∃ name, s = .macroUse name
    · -- these ask for nothing
      have hempty : asked = {} := by
        rcases hgone with ⟨name, token, rfl⟩ | ⟨name, rfl⟩ <;> exact (Except.ok.inj ha).symm
      rw [hempty]
      exact Needs.meets_empty n
    · have hone : expansion d.scope ss s = [d.scope.respell s] := by
        rcases s with _ | _ | _ | _ | _ | _ | _ | _ | _ <;> first | rfl | simp at hgone
      refine hall (d.scope.respell s) ?_ asked (hrespell ha)
      exact List.mem_flatMap.2 ⟨s, hs, by simp [hone]⟩
  · intro hall s hs asked ha
    obtain ⟨s', hs', rfl⟩ := exists_of_mem_flatMap_expansion hs
    obtain ⟨asked', ha'⟩ := hasks s' hs'
    rw [SourceLine.statement_ofStatement, hrespell ha'] at ha
    exact hall s' hs' asked (ha' ▸ ha)

end Source

/-- Whether an instruction is a note that begins or ends a macro. -/
def Instruction.isMacroBound : Instruction → Bool
  | .note (.macroBegin _) | .note .macroEnd => true
  | _ => false

namespace Source

variable {ss : List Statement} {d : Discovery} {scope : Scope} {line : SourceLine}
  {stream : List Instruction}

/-- A line that uses no macro has no bounds of macros among its instructions. -/
theorem filter_of_plain (h : plain scope line = .ok stream) :
    stream.filter (!·.isMacroBound) = stream := by
  rw [plain, SourceLine.blame_eq_ok_iff] at h
  split at h
  · split at h
    · cases h
      rfl
    · cases h
  · cases h
    rfl
  · obtain ⟨i, hi, h⟩ := bind_eq_ok_iff.1 h
    cases h
    obtain ⟨op, operands, -, -, rfl, -⟩ := Scope.instruction_eq_ok_iff.1 hi
    rfl
  · cases h
    rfl

theorem emit_of_not_macroUse (h : ∀ name, line.statement ≠ .macroUse name) :
    emit scope line = plain scope line := by
  rw [emit]
  split
  · next name hs => exact absurd hs (h name)
  · rfl

theorem filter_flatten_of_plain {lines : List SourceLine} {streams : List (List Instruction)}
    (h : List.Forall₂ (fun line stream => plain scope line = .ok stream) lines streams) :
    streams.flatten.filter (!·.isMacroBound) = streams.flatten := by
  induction h with
  | nil => rfl
  | cons hl _ ih => rw [List.flatten_cons, List.filter_append, filter_of_plain hl, ih]

theorem emit_respellLine (h : Discovery.ofLines (ss.map SourceLine.ofStatement) = .ok d)
    (hline : ∀ name, line.statement ≠ .macroUse name) (hs : plain d.scope line = .ok stream) :
    emit (d.expanded d.scope ss).scope (Discovery.respellLine d.scope line) = .ok stream := by
  rw [emit_of_not_macroUse]
  · exact plain_respell (Discovery.records_of_ofLines h).values
      (Discovery.labels_expanded d d.scope ss) hs
  · intro name hname
    rw [Discovery.respellLine, SourceLine.statement_ofStatement] at hname
    rcases hstatement : line.statement with _ | _ | _ | _ | _ | _ | _ | _ | _ <;>
      rw [hstatement] at hname hline <;> cases hname
    exact hline _ rfl

/-- What becomes of a line that uses a macro has the instructions between the bounds. -/
theorem emit_expansion_macroUse (h : Discovery.ofLines (ss.map SourceLine.ofStatement) = .ok d)
    {name : String} (hname : line.statement = .macroUse name)
    (hs : emit d.scope line = .ok stream) :
    ∃ streams, List.Forall₂
        (fun line stream => emit (d.expanded d.scope ss).scope line = .ok stream)
        (Discovery.expandLine d.scope ss line) streams ∧
      streams.flatten = stream.filter (!·.isMacroBound) := by
  rw [emit, hname] at hs
  dsimp only at hs
  split at hs
  · next body hbody =>
    obtain ⟨streams, hstreams, hs⟩ := bind_eq_ok_iff.1 hs
    cases hs
    rw [mapM_eq_ok_iff] at hstreams
    obtain ⟨after, hbegun⟩ := (Discovery.records_of_ofLines h).macros name body hbody
    have hexpand : Discovery.expandLine d.scope ss line =
        body.map (Discovery.respellLine d.scope) := by
      rw [Discovery.expandLine, hname, expansion, hbegun.body_eq, List.map_map, List.map_map]
      rfl
    have hbounds : (Instruction.note (.macroBegin name) :: streams.flatten ++
        [Instruction.note .macroEnd]).filter (!·.isMacroBound) = streams.flatten := by
      rw [List.cons_append, List.filter_cons_of_neg (by simp [Instruction.isMacroBound]),
        List.filter_append, filter_flatten_of_plain hstreams]
      exact List.append_nil _
    refine ⟨streams, ?_, hbounds.symm⟩
    rw [hexpand, List.forall₂_map_left_iff]
    refine ((List.forall₂_and_left _ _).2 ⟨hbegun.1, hstreams⟩).imp fun line _ hl => ?_
    refine emit_respellLine h (fun name hname => ?_) hl.2
    rw [hname] at hl
    cases hl.1
  · cases hs

/-- What becomes of a line has the instructions of the line, without the bounds of macros. -/
theorem emit_expansion (h : Discovery.ofLines (ss.map SourceLine.ofStatement) = .ok d)
    (hs : emit d.scope line = .ok stream) :
    ∃ streams, List.Forall₂
        (fun line stream => emit (d.expanded d.scope ss).scope line = .ok stream)
        (Discovery.expandLine d.scope ss line) streams ∧
      streams.flatten = stream.filter (!·.isMacroBound) := by
  by_cases huse : ∃ name, line.statement = .macroUse name
  · obtain ⟨name, hname⟩ := huse
    exact emit_expansion_macroUse h hname hs
  · have hline (name : String) (hname : line.statement = .macroUse name) : False :=
      huse ⟨name, hname⟩
    rw [emit_of_not_macroUse hline] at hs
    rw [filter_of_plain hs]
    by_cases hvalue : ∃ name token, line.statement = .valueMacro name token
    · obtain ⟨name, token, hvalue⟩ := hvalue
      rw [plain, SourceLine.blame_eq_ok_iff, hvalue] at hs
      cases hs
      exact ⟨[], by rw [Discovery.expandLine, hvalue]; exact .nil, rfl⟩
    · have hexpand : Discovery.expandLine d.scope ss line =
          [Discovery.respellLine d.scope line] := by
        rw [Discovery.expandLine, Discovery.respellLine]
        rcases hstatement : line.statement with _ | _ | _ | _ | _ | _ | _ | _ | _ <;>
          first | rfl | simp [hstatement] at huse hvalue
      rw [hexpand]
      exact ⟨[stream], .cons (emit_respellLine h hline hs) .nil, by simp⟩

/-- The values that a text names are those that the first pass collects. -/
theorem scopeOf_bare {lines : List String} (hreads : Reads lines ss)
    (hd : Discovery.ofLines (ss.map SourceLine.ofStatement) = .ok d) :
    (scopeOf lines).bare = d.scope := by
  obtain ⟨read, hread, rfl⟩ := (@Reads.readFrom_iff lines ss 1).2 hreads
  rw [← SourceLine.map_bare, Discovery.ofLines_bare_iff] at hd
  obtain ⟨d, hd, rfl⟩ := hd
  have hscope : SourceLine.read lines >>= Discovery.ofLines = .ok d :=
    bind_eq_ok_iff.2 ⟨read, hread, hd⟩
  rw [scopeOf, hscope]
  rfl

theorem expansion_bare (scope : Scope) (ss : List Statement) :
    expansion scope.bare ss = expansion scope ss := rfl

/-- The third pass over a text without its macros. -/
theorem exists_streams_expansion {streams : List (List Instruction)}
    (h : Discovery.ofLines (ss.map SourceLine.ofStatement) = .ok d) {outside : List SourceLine}
    (hs : List.Forall₂ (fun line stream => emit d.scope line = .ok stream) outside streams) :
    ∃ streams', List.Forall₂
        (fun line stream => emit (d.expanded d.scope ss).scope line = .ok stream)
        (outside.flatMap (Discovery.expandLine d.scope ss)) streams' ∧
      streams'.flatten = streams.flatten.filter (!·.isMacroBound) := by
  induction hs with
  | nil => exact ⟨[], .nil, rfl⟩
  | cons hl _ ih =>
    obtain ⟨first, hfirst, hflatten⟩ := emit_expansion h hl
    obtain ⟨rest, hrest, hflatten'⟩ := ih
    refine ⟨first ++ rest, List.rel_append hfirst hrest, ?_⟩
    rw [List.flatten_append, hflatten, hflatten', List.flatten_cons, List.filter_append]

/-- **Macros are abbreviations**: a text that is assembled is assembled without its macros too,
    to the same instructions, except that nothing tells where a macro was, and the same labels. -/
theorem assemble_unabbreviated {lines : List String} {program : Program}
    (h : assemble lines = .ok program) :
    ∃ plain, assemble (unabbreviated lines) = .ok plain ∧
      plain.instructions = program.instructions.filter (!·.isMacroBound) ∧
      plain.labels = program.labels := by
  obtain ⟨ss, hreads, h⟩ := assemble_eq_ok_iff.1 h
  obtain ⟨d, needed, streams, hd, hn, hstreams, rfl⟩ := ofStatements_eq_ok_iff.1 h
  have hexpanded := reads_unabbreviated hreads
  rw [← expansion_bare, scopeOf_bare hreads hd] at hexpanded
  obtain ⟨streams', hstreams', hflatten⟩ := exists_streams_expansion hd hstreams
  refine ⟨_, assemble_eq_ok_iff.2 ⟨_, hexpanded, ofStatements_eq_ok_iff.2 ⟨_, needed, streams',
    Discovery.ofLines_expansion hd, needs_expansion hd hn, hstreams', rfl⟩⟩, ?_, rfl⟩
  simp [hflatten, Instruction.isMacroBound]

/-- A text in which a macro and a value are used before they are defined. -/
def counting : List String :=
  ["IMM R1, SIZE // the first", "@macro step", "@macro SIZE 0x20", "@macro HALF SIZE",
    "@macro begin step", "ADD R1 , R1,HALF", "@minram SIZE", "@macro end", ".end", "BRA .end"]

theorem assemble_unabbreviated_counting :
    unabbreviated counting =
        ["IMM R1, 32 // the first", "ADD R1 , R1,32", "@minram 32", "@macro begin step",
          "ADD R1 , R1,32", "@minram 32", "@macro end", ".end", "BRA .end"] ∧
      ∃ program plain, assemble counting = .ok program ∧
        assemble (unabbreviated counting) = .ok plain ∧
        plain.instructions = program.instructions.filter (!·.isMacroBound) ∧
        plain.labels = program.labels := by
  have h : assemble counting = .ok ((assemble counting).toOption.getD {}) :=
    eq_ok_of_isOk (by decide +kernel) _
  obtain ⟨plain, hplain⟩ := assemble_unabbreviated h
  exact ⟨by decide +kernel, _, plain, h, hplain⟩

end Source
end Wordcode
