import Wordcode.Proofs.Listing
import Wordcode.Proofs.Lowering.Checked
import Wordcode.Proofs.Macros

/-!
# How labels are written

Labels are told apart by their identity, but written by their name. A label without a name is
written by one that is made up of its identity, and nothing keeps a text from giving that name to
another label. This is all that can go wrong: the labels of a lowered program either are in the
table of the program or have no name and an identity that comes after those of the table
(`LabelTable.Knows`), which all passes keep (`Instruction.Lined`).

* `LabelTable.Numbered.written_eq_iff`: when two labels are written alike;
* `Source.lined_of_ofStatements`: assembled programs have the invariant;
* `Lowering.keeps_lined`, `Peephole.Rewrites.lined`: the passes of lowering keep it;
* `Lowering.nodup_defined_iff`: when the listing of a lowered program defines no label twice.
-/

namespace Wordcode

open Instruction

/-! ## The names of labels -/

theorem Text.repr_injective : Function.Injective Nat.repr := by
  intro m n h
  have hdigits : Nat.toDigits 10 m = Nat.toDigits 10 n := by
    rw [← Nat.toList_repr, ← Nat.toList_repr, h]
  calc m = Nat.ofDigitChars 10 (Nat.toDigits 10 m) 0 := Nat.ofDigitChars_ten_toDigits.symm
    _ = Nat.ofDigitChars 10 (Nat.toDigits 10 n) 0 := by rw [hdigits]
    _ = n := Nat.ofDigitChars_ten_toDigits

namespace Label

/-- A label has the name by which another one is written that has none. -/
def Mimics (l l' : Label) : Prop := l.name = some ("__" ++ l'.id.repr) ∧ l'.name = none

instance (l l' : Label) : Decidable (l.Mimics l') := inferInstanceAs (Decidable (_ ∧ _))

theorem render_eq_iff {l l' : Label} : l.render = l'.render ↔ l.written = l'.written := by
  rw [render_eq, render_eq, String.append_right_inj]

end Label

namespace LabelTable

/-- A table of names that can be written. -/
structure Spelled (table : LabelTable) : Prop where
  numbered : table.Numbered
  isWord : ∀ name l, table.lookup name = some l → Statement.IsWord name.toList

/-- A label is in a table, or has no name and an identity that the table did not give out. -/
def Knows (table : LabelTable) (l : Label) : Prop :=
  (∃ name, table.lookup name = some l) ∨ ∃ id, table.nextId ≤ id ∧ l = .anonymous id

variable {table : LabelTable} {l l' : Label}

theorem written_of_lookup {name : String} (h : table.lookup name = some l) : l.written = name := by
  rw [Label.written, (mem_of_lookup h).2]

theorem written_anonymous (id : Nat) : (Label.anonymous id).written = "__" ++ id.repr := rfl

theorem Spelled.isWord_written (h : table.Spelled) (hl : table.Knows l) :
    Statement.IsWord l.written.toList := by
  rcases hl with ⟨name, hl⟩ | ⟨id, -, rfl⟩
  · rw [written_of_lookup hl]
    exact h.isWord name l hl
  · have hcons : ("__" ++ id.repr).toList = '_' :: '_' :: id.repr.toList := by
      rw [String.toList_append]
      rfl
    rw [written_anonymous, hcons]
    exact ((Statement.isWord_repr id).cons (by decide) (by decide)).cons (by decide) (by decide)

/-- A label is written as another one exactly if it is the same, or one of them has no name and
    the other has the name by which it is written. -/
theorem Numbered.written_eq_iff (h : table.Numbered) (hl : table.Knows l) (hl' : table.Knows l') :
    l.written = l'.written ↔ l.id = l'.id ∨ l.Mimics l' ∨ l'.Mimics l := by
  rcases hl with ⟨name, hl⟩ | ⟨id, hid, rfl⟩ <;> rcases hl' with ⟨name', hl'⟩ | ⟨id', hid', rfl⟩
  · simp [written_of_lookup hl, written_of_lookup hl', h.id_eq_iff hl hl', Label.Mimics,
      (mem_of_lookup hl).2, (mem_of_lookup hl').2]
  -- of a label with a name and one without, the second has the greater identity
  · have hlt := Nat.lt_of_lt_of_le (h.id_lt hl) hid'
    rw [written_of_lookup hl, written_anonymous]
    simp [Label.Mimics, Label.anonymous, (mem_of_lookup hl).2, Nat.ne_of_lt hlt]
  · have hlt := Nat.lt_of_lt_of_le (h.id_lt hl') hid
    rw [written_of_lookup hl', written_anonymous]
    simp [Label.Mimics, Label.anonymous, (mem_of_lookup hl').2, Nat.ne_of_gt hlt, eq_comm]
  · rw [written_anonymous, written_anonymous, String.append_right_inj]
    simp [Label.Mimics, Label.anonymous, Text.repr_injective.eq_iff]

/-- Labels that are the same have the same name. -/
theorem Numbered.eq_of_id_eq (h : table.Numbered) (hl : table.Knows l) (hl' : table.Knows l')
    (hid : l.id = l'.id) : l = l' := by
  rcases hl with ⟨name, hl⟩ | ⟨id, hle, rfl⟩ <;> rcases hl' with ⟨name', hl'⟩ | ⟨id', hle', rfl⟩
  · rw [(h.id_eq_iff hl hl').1 hid] at hl
    exact Option.some.inj (hl.symm.trans hl')
  · exact absurd hid (Nat.ne_of_lt (Nat.lt_of_lt_of_le (h.id_lt hl) hle'))
  · exact absurd hid (Nat.ne_of_gt (Nat.lt_of_lt_of_le (h.id_lt hl') hle))
  · exact congrArg Label.anonymous hid

end LabelTable

/-! ## What lowering keeps -/

/-- An instruction whose labels are known and whose text stands on one line. -/
structure Instruction.Lined (table : LabelTable) (i : Instruction) : Prop where
  labels : ∀ l : Label, .label l ∈ i.operands → table.Knows l
  text : ∀ n, i = .note n → n.OnLine

variable {table : LabelTable}

/-- A note without labels is on one line if its text is. -/
theorem Instruction.lined_note {n : Note} (hn : ∀ l : Label, .label l ∉ n.operands)
    (ht : n.OnLine) : (note n).Lined table := by
  refine ⟨fun l hl => absurd hl (hn l), fun n' h => ?_⟩
  cases h
  exact ht

/-- The notes in an expansion are about labels. -/
theorem Expansion.Part.code_or_note {op : Opcode} {given : List Operand} {first count : Nat}
    {i : Instruction} (h : Part op given first count i) :
    (∃ op operands, i = .code op operands) ∨
      ∃ l, i = .note (.createLabel l) ∨ i = .note (.markLabel l) := by
  cases h with
  | @copy t x hx => cases x <;> exact .inl ⟨_, _, rfl⟩
  | announce => exact .inr ⟨_, .inl rfl⟩
  | mark => exact .inr ⟨_, .inr rfl⟩
  | _ => exact .inl ⟨_, _, rfl⟩

namespace Lowering

/-- A property that expansions keep, and that comments and warnings have, if their labels are
    numbered from `start` on. -/
structure Keeps (context : Expansion.Context) (start : Nat) (P : Instruction → Prop) : Prop where
  comment : ∀ op operands, P (.code op operands) →
    P (.note (.comment (Instruction.code op operands).render))
  residue : ∀ op operands, P (.code op operands) → ∀ i ∈ residue op operands, P i
  expand : ∀ first op operands expansion, start ≤ first → P (.code op operands) →
    Expansion.expand? context first op operands = some expansion → ∀ i ∈ expansion.body, P i

namespace Keeps

variable {target : Tier} {context : Expansion.Context} {start : Nat} {P : Instruction → Prop}

theorem sequence {lowerOne : Nat → Instruction → List Instruction × Nat}
    (hle : ∀ first i, first ≤ (lowerOne first i).2)
    (h : ∀ first i, start ≤ first → P i → ∀ j ∈ (lowerOne first i).1, P j) {first : Nat}
    (hfirst : start ≤ first) {stream : List Instruction} (hs : ∀ i ∈ stream, P i) :
    ∀ j ∈ (Lowering.sequence lowerOne first stream).1, P j := by
  induction stream generalizing first with
  | nil => exact fun _ hj => absurd hj List.not_mem_nil
  | cons i rest ih =>
    rw [List.forall_mem_cons] at hs
    exact List.forall_mem_append.2
      ⟨h first i hfirst hs.1, ih (Nat.le_trans hfirst (hle first i)) hs.2⟩

/-- By induction on how often an instruction can be expanded. -/
theorem instructionAt (h : Keeps context start P) (depth : Nat) {first : Nat} {i : Instruction}
    (hfirst : start ≤ first) (hi : P i) :
    ∀ j ∈ (Lowering.instructionAt target context depth first i).1, P j := by
  induction depth generalizing first i with
  | zero =>
    cases i with
    | note n => exact List.forall_mem_singleton.2 hi
    | code op operands =>
      unfold Lowering.instructionAt
      split
      · exact List.forall_mem_singleton.2 hi
      · exact h.residue op operands hi
  | succ depth ih =>
    cases hf : fits target i with
    | true =>
      rw [instructionAt_of_fits hf]
      exact List.forall_mem_singleton.2 hi
    | false =>
      cases i with
      | note n => cases hf
      | code op operands =>
        cases he : Expansion.expand? context first op operands with
        | none =>
          rw [instructionAt_of_none hf he]
          exact h.residue op operands hi
        | some expansion =>
          rw [instructionAt_succ hf he]
          refine List.forall_mem_cons.2 ⟨h.comment op operands hi, ?_⟩
          exact sequence (fun first i => (introduces_instructionAt depth first i).le)
            (fun _ _ => ih) (Nat.le_trans hfirst (Nat.le_add_right _ _))
            (h.expand first op operands expansion hfirst hi he)

theorem instructions (h : Keeps context start P) {first : Nat} (hfirst : start ≤ first)
    {stream : List Instruction} (hs : ∀ i ∈ stream, P i) :
    ∀ j ∈ (Lowering.sequence (instruction target context) first stream).1, P j :=
  sequence (fun first i => (introduces_instructionAt (depth i) first i).le)
    (fun _ i => h.instructionAt (depth i)) hfirst hs

end Keeps

variable {context : Expansion.Context}

theorem onLine_warning (op : Opcode) :
    (Note.pragma ("warning " ++ op.name ++ " is not supported by the target")).OnLine := by
  refine Text.isLine_of_isUnbroken ?_
  simp only [String.toList_append, Text.isUnbroken_append, (isWord_name op).isUnbroken]
  decide

/-- Lowering keeps a program on lines. -/
theorem keeps_lined (ht : table.Spelled) : Keeps context table.nextId (Lined table) := by
  have hcomment (op : Opcode) (operands : List Operand) (h : (code op operands).Lined table) :
      (note (.comment (code op operands).render)).Lined table :=
    lined_note (by simp [Note.operands])
      (isLine_render_code fun l hl => ht.isWord_written (h.labels l hl))
  refine ⟨hcomment, fun op operands h => ?_, fun first op given expansion hfirst h he i hi => ?_⟩
  · unfold residue
    split
    · exact fun _ hi => absurd hi List.not_mem_nil
    · exact List.forall_mem_cons.2 ⟨lined_note (by simp [Note.operands]) (onLine_warning op),
        List.forall_mem_singleton.2 (hcomment op operands h)⟩
  · have hpart := Expansion.part_of_expand he i hi
    refine ⟨fun l hl => ?_, fun n hn => ?_⟩
    · rcases hpart.exists_label hl with hgiven | ⟨k, -, rfl⟩
      · exact h.labels l hgiven
      · exact .inr ⟨first + k, Nat.le_trans hfirst (Nat.le_add_right _ _), rfl⟩
    · obtain ⟨_, _, rfl⟩ | ⟨l, rfl | rfl⟩ := hpart.code_or_note <;> cases hn
      · trivial
      · trivial

end Lowering

namespace Peephole

variable {old new stream stream' : List Instruction}

theorem Simplifies.lined (h : Simplifies old new) (ho : ∀ i ∈ old, i.Lined table) :
    ∀ i ∈ new, i.Lined table := by
  intro i hi
  rcases h.mem_new hi with hold | ⟨op, operands, rfl, -⟩
  · exact ho i hold
  · refine ⟨fun l hl => ?_, fun n hn => (by cases hn)⟩
    rcases h.exists_operand hi hl with hzero | ⟨j, hj, hl⟩
    · cases hzero
    · exact (ho j hj).labels l hl

theorem Rewrites.lined (h : Rewrites stream stream') (hs : ∀ i ∈ stream, i.Lined table) :
    ∀ i ∈ stream', i.Lined table := by
  obtain ⟨before, after, h⟩ := h
  simp only [List.forall_mem_append] at hs ⊢
  exact ⟨hs.1, h.lined hs.2.1, hs.2.2⟩

end Peephole

namespace Lowering

variable {config : Config} {settings : Peephole} {program : Program} {lowered : Lowered}

theorem lined_declare {i : Instruction} (h : i.Lined table) (index : Nat) :
    (declare index i).Lined table := by
  unfold declare
  split
  · exact lined_note (by simp [Note.operands]) trivial
  · exact h

/-- A program on lines is lowered to one on lines. -/
theorem lined_of_lower (ht : program.labels.Spelled)
    (hprogram : ∀ i ∈ program.instructions, i.Lined program.labels)
    (h : lower config settings program = .ok lowered) :
    ∀ i ∈ lowered.program.instructions, i.Lined program.labels := by
  obtain ⟨highest, -, -, hi, -⟩ := exists_of_lower h
  have hexpanded : ∀ i ∈ (expanded config program).instructions, i.Lined program.labels :=
    (keeps_lined ht).instructions (Nat.le_refl _) hprogram
  have happlied := settings.keeps_apply
    (P := fun stream => ∀ i ∈ stream, i.Lined program.labels) (fun h => h.lined) hexpanded
  rw [hi, List.forall_mem_map]
  exact fun i hi => lined_declare (happlied i hi) highest

end Lowering

/-! ## Assembled programs -/

/-- No line of a text has a newline in it. -/
theorem Text.newline_not_mem {cs line : List Char} (h : line ∈ lines cs) : '\n' ∉ line := by
  fun_induction lines cs generalizing line with
  | case1 => cases h
  | case2 cs ih =>
    rcases List.mem_cons.1 h with rfl | h
    · exact List.not_mem_nil
    · exact ih h
  | case3 cs _ ih =>
    rcases List.mem_cons.1 h with rfl | h
    · exact List.not_mem_nil
    · exact ih h
  | case4 c cs _ hc hl ih =>
    cases List.mem_singleton.1 h
    simpa using Ne.symm hc
  | case5 c cs _ hc first rest hl ih =>
    rw [hl] at ih
    rcases List.mem_cons.1 h with rfl | h
    · rw [List.mem_cons, not_or]
      exact ⟨Ne.symm hc, ih List.mem_cons_self⟩
    · exact ih (List.mem_cons_of_mem _ h)

namespace Statement

variable {raw : List Char} {name text : String} {s : Statement}

theorem IsWord.of_cons {c : Char} {cs : List Char} (h : IsWord (c :: cs)) (hn : cs ≠ []) :
    IsWord cs :=
  ⟨hn, fun x hx => h.separates x (List.mem_cons_of_mem c hx),
    fun hc => h.comment (List.infix_cons hc)⟩

theorem isWord_of_mem_tokens {token : String} (h : token ∈ tokens (content raw)) :
    IsWord token.toList := by
  obtain ⟨word, hword, rfl⟩ := List.mem_map.1 h
  obtain ⟨hpart, hn, hs⟩ := Text.mem_words hword
  rw [String.toList_ofList]
  exact ⟨hn, hs, fun hc => commentSign_not_infix_content raw (hc.trans hpart)⟩

theorem isWord_of_says_label (h : Says (content raw) (.label name)) : IsWord name.toList := by
  cases h with
  | label _ ht hn =>
    have hword := @isWord_of_mem_tokens raw ("." ++ name) (by simp [ht])
    rw [String.toList_append] at hword
    exact hword.of_cons (by simpa using hn)

theorem isLine_of_says_macroUse (h : Says (content raw) (.macroUse name)) :
    Text.IsLine name.toList := by
  cases h with
  | macroUse hd =>
    obtain ⟨-, sign, ht, -⟩ := hd
    exact Text.isLine_of_isUnbroken (@isWord_of_mem_tokens raw name (by simp [ht])).isUnbroken

theorem isLine_of_says_pragma (hn : '\n' ∉ raw) (h : Says (content raw) (.pragma text)) :
    Text.IsLine text.toList := by
  cases h with
  | pragma =>
    rw [String.toList_ofList]
    have hfront := uncommented_prefix raw
    have hpart : Text.trim (content raw).tail <:+: raw :=
      (Text.trim_infix _).trans <| (List.tail_suffix _).isInfix.trans <|
        (Text.trim_infix _).trans hfront.isInfix
    refine ⟨fun hmem => hn (hpart.subset hmem), fun hlast => ?_⟩
    exact absurd ((Text.isBlank_ends_of_trim _).2 '\r' hlast) (by decide)

/-- The name of a label is a word, and the text of a note stands on one line. -/
def Spelled : Statement → Prop
  | .label name => IsWord name.toList
  | .macroUse text | .pragma text => Text.IsLine text.toList
  | _ => True

theorem spelled_of_says (hn : '\n' ∉ raw) (h : Says (content raw) s) : s.Spelled := by
  cases s with
  | label name => exact isWord_of_says_label h
  | macroUse name => exact isLine_of_says_macroUse h
  | pragma text => exact isLine_of_says_pragma hn h
  | _ => trivial

end Statement

namespace Source

variable {raws : List String} {ss : List Statement} {s : Statement} {program : Program}

theorem Reads.exists_of_mem (h : Reads raws ss) (hs : s ∈ ss) :
    ∃ raw ∈ raws, Statement.ofLine? raw.toList = .ok (some s) := by
  induction h with
  | nil => cases hs
  | blank _ _ ih =>
    obtain ⟨raw, hraw, hs⟩ := ih hs
    exact ⟨raw, List.mem_cons_of_mem _ hraw, hs⟩
  | @line raw _ _ _ hline _ ih =>
    rcases List.mem_cons.1 hs with rfl | hs
    · exact ⟨raw, List.mem_cons_self, hline⟩
    · obtain ⟨raw, hraw, hs⟩ := ih hs
      exact ⟨raw, List.mem_cons_of_mem _ hraw, hs⟩

theorem newline_not_mem_lines {text raw : String} (h : raw ∈ lines text) : '\n' ∉ raw.toList := by
  obtain ⟨line, hline, rfl⟩ := List.mem_map.1 h
  rw [String.toList_ofList]
  exact Text.newline_not_mem hline

theorem spelled_of_reads {text : String} (h : Reads (lines text) ss) : ∀ s ∈ ss, s.Spelled := by
  intro s hs
  obtain ⟨raw, hraw, hline⟩ := h.exists_of_mem hs
  exact Statement.spelled_of_says (newline_not_mem_lines hraw)
    (Statement.ofLine?_eq_some_iff.1 hline)

theorem spelled_of_ofLines {d : Discovery} (hss : ∀ s ∈ ss, s.Spelled)
    (hd : Discovery.ofLines (ss.map SourceLine.ofStatement) = .ok d) : d.scope.labels.Spelled :=
  ⟨Discovery.numbered_of_ofLines hd, fun name l hl =>
    hss (.label name) (((Discovery.tracks_of_ofLines hd).labels name).1 (by rw [hl]; rfl))⟩

/-- An instruction that comes from lines of text is written on one line. -/
theorem Origin.lined {scope : Scope} {i : Instruction}
    (h : Origin scope (ss.map SourceLine.ofStatement) i) (hss : ∀ s ∈ ss, s.Spelled) :
    i.Lined scope.labels := by
  have hmem {line : SourceLine} (hl : line ∈ ss.map SourceLine.ofStatement) :
      line.statement.Spelled := by
    obtain ⟨s, hs, rfl⟩ := List.mem_map.1 hl
    exact hss s hs
  refine ⟨fun l hl => .inl (h.exists_lookup hl), fun n hn => ?_⟩
  cases h with
  | mark =>
    cases hn
    trivial
  | pragma hl hs | macroBegin hl hs =>
    cases hn
    have hspelled := hmem hl
    rwa [hs] at hspelled
  | macroEnd =>
    cases hn
    trivial
  | operation _ _ hi =>
    obtain ⟨op, operands, rfl, -⟩ := Scope.exists_of_instruction hi
    cases hn

/-- An assembled program begins with its needs, and what comes after them is made of its lines. -/
theorem exists_origins (h : ofStatements ss = .ok program) :
    ∃ (d : Discovery) (needed : Needs) (body : List Instruction),
      Discovery.ofLines (ss.map SourceLine.ofStatement) = .ok d ∧
      needs d.scope (ss.map SourceLine.ofStatement) = .ok needed ∧
      program = ⟨needed.before body, d.scope.labels⟩ ∧
      ∀ i ∈ body, Origin d.scope (ss.map SourceLine.ofStatement) i := by
  obtain ⟨d, needed, streams, hd, hn, hstreams, rfl⟩ := ofStatements_eq_ok_iff.1 h
  refine ⟨d, needed, streams.flatten, hd, hn, rfl, fun i hi => ?_⟩
  have hsound := Discovery.sound_of_ofLines hd
  obtain ⟨stream, hstream, hi⟩ := List.mem_flatten.1 hi
  obtain ⟨line, hl, hemit⟩ := exists_of_mem_mapM (mapM_eq_ok_iff.2 hstreams) hstream
  exact (emit_spec hsound (hsound.outside line hl) hemit).2 i hi

theorem lined_of_ofStatements (h : ofStatements ss = .ok program) (hss : ∀ s ∈ ss, s.Spelled) :
    program.labels.Spelled ∧ ∀ i ∈ program.instructions, i.Lined program.labels := by
  obtain ⟨d, needed, body, hd, -, rfl, hbody⟩ := exists_origins h
  refine ⟨spelled_of_ofLines hss hd, ?_⟩
  exact List.forall_mem_cons.2 ⟨lined_note (by simp [Note.operands]) trivial, List.forall_mem_cons.2
    ⟨lined_note (by simp [Note.operands]) trivial, fun i hi => (hbody i hi).lined hss⟩⟩

end Source

/-! ## The labels that a listing defines -/

namespace Statement

variable {raw : String} {i : Instruction}

/-- A line defines no label if its content begins with another sign than that of labels. -/
theorem label?_of_head?_ne (h : (content raw.toList).head? ≠ some '.') :
    (on? raw).bind Statement.label? = none := by
  rcases hon : on? raw with _ | s
  · rfl
  · have hsays := ofLine?_eq_some_iff.1 (on?_eq_some_iff.1 hon)
    cases hsays with
    | label hdot => exact absurd hdot h
    | _ => rfl

/-- The line of an instruction defines the label that the instruction places. -/
theorem label?_render (hlabels : ∀ l : Label, .label l ∈ i.operands → IsWord l.written.toList) :
    (on? i.render).bind Statement.label? = i.mark?.map Label.written := by
  by_cases hp : ∃ text, i = .note (.pragma text)
  · obtain ⟨text, rfl⟩ := hp
    refine label?_of_head?_ne ?_
    rw [render, Note.render, String.toList_append, content, Text.head?_trim]
    exact fun h => absurd (Option.some.inj h) (by decide)
  · rw [← label?_statement?, on?, ofLine?_render hlabels (not_exists.1 hp)]

end Statement

namespace Source

/-- The names of the labels that the lines of a text define. -/
def defined (text : String) : List String :=
  (lines text).filterMap fun raw => (Statement.on? raw).bind Statement.label?

end Source

namespace Lowering

variable {config : Config} {settings : Peephole} {program : Program} {lowered : Lowered}

theorem exists_title (config : Config) (lowered : Lowered) :
    ∃ title : String, Text.IsLine title.toList ∧ lowered.listing config =
      Text.unlines (("// " ++ title) :: lowered.program.instructions.map render) := by
  refine ⟨config.wordBits.repr ++ " bit words, " ++ lowered.registersRequired.repr ++ " registers",
    Text.isLine_of_isUnbroken ?_, ?_⟩
  · simp only [String.toList_append, Text.isUnbroken_append,
      (Statement.isWord_repr config.wordBits).isUnbroken,
      (Statement.isWord_repr lowered.registersRequired).isUnbroken]
    decide
  · rw [Lowered.listing]
    simp only [String.append_assoc]

/-- The listing of a program on lines defines the labels that the program places. -/
theorem defined_listing (ht : table.Spelled)
    (h : ∀ i ∈ lowered.program.instructions, i.Lined table) :
    Source.defined (lowered.listing config) =
      (lowered.program.instructions.filterMap mark?).map Label.written := by
  have hword {i : Instruction} (hi : i ∈ lowered.program.instructions) (l : Label)
      (hl : .label l ∈ i.operands) : Statement.IsWord l.written.toList :=
    ht.isWord_written ((h i hi).labels l hl)
  obtain ⟨title, htitle, hlisting⟩ := exists_title config lowered
  have hfirst : (Statement.on? ("// " ++ title)).bind Statement.label? = none := by
    rw [Statement.on?_of_blank (Statement.ofLine?_title title)]
    rfl
  rw [Source.defined, hlisting,
    Source.lines_titled htitle fun i hi => isLine_render (hword hi) (h i hi).text,
    List.filterMap_cons, hfirst, List.filterMap_map, List.map_filterMap]
  refine List.filterMap_congr fun i hi => ?_
  rw [Function.comp_apply, Statement.label?_render (hword hi)]

/-- The labels that are named in a wired stream are those that it places. -/
theorem mem_placed_of_names {stream : List Instruction} {l : Label} (hw : Wired stream)
    (ht : table.Numbered) (hk : ∀ l, Names stream l → table.Knows l) (hl : Names stream l) :
    l ∈ stream.filterMap mark? := by
  obtain ⟨i, hi, hm⟩ := id hl
  obtain ⟨m, hmark, hid⟩ := mem_marks_iff.1 (hw.marked i hi l hm)
  have hm : Names stream m := ⟨_, hmark, List.mem_singleton_self _⟩
  rw [ht.eq_of_id_eq (hk l hl) (hk m hm) hid.symm]
  exact List.mem_filterMap.2 ⟨_, hmark, rfl⟩

/-- The labels that a wired stream places have different names exactly if none of them mimics
    another one. -/
theorem nodup_written_iff {stream : List Instruction} (hw : Wired stream) (ht : table.Numbered)
    (hk : ∀ l, Names stream l → table.Knows l) :
    ((stream.filterMap mark?).map Label.written).Nodup ↔
      ∀ l l', Names stream l → Names stream l' → ¬l.Mimics l' := by
  constructor
  · intro hnodup l l' hl hl' hmimics
    have hwritten : l.written = l'.written :=
      (ht.written_eq_iff (hk l hl) (hk l' hl')).2 (.inr (.inl hmimics))
    have heq : l = l' := List.inj_on_of_nodup_map hnodup (mem_placed_of_names hw ht hk hl)
      (mem_placed_of_names hw ht hk hl') hwritten
    rw [Label.Mimics, heq, hmimics.2] at hmimics
    cases hmimics.1
  · intro hnone
    refine nodup_written_of_nodup hw.nodup fun l l' hl hl' he => ?_
    rcases (ht.written_eq_iff (hk l hl) (hk l' hl')).1 he with hid | hmimics | hmimics
    · exact hid
    · exact absurd hmimics (hnone l l' hl hl')
    · exact absurd hmimics (hnone l' l hl' hl)

/-- Two labels of a lowered program are written alike exactly if they are the same, or one of them
    has no name and a label of the text is called as it is written. Without such labels, and only
    then, the listing of the program defines no label twice. -/
theorem nodup_defined_iff {text : String} (h : Source.assembleText text = .ok program)
    (hl : lower config settings program = .ok lowered) :
    (∀ l, Names lowered.program.instructions l → program.labels.Knows l) ∧
    (∀ l l', Names lowered.program.instructions l → Names lowered.program.instructions l' →
      (l.render = l'.render ↔ l.id = l'.id ∨ l.Mimics l' ∨ l'.Mimics l)) ∧
    ((Source.defined (lowered.listing config)).Nodup ↔
      ∀ l l', Names lowered.program.instructions l → Names lowered.program.instructions l' →
        ¬l.Mimics l') := by
  obtain ⟨ss, hreads, hss⟩ := Source.assemble_eq_ok_iff.1 h
  obtain ⟨ht, hprogram⟩ := Source.lined_of_ofStatements hss (Source.spelled_of_reads hreads)
  have hlined := lined_of_lower ht hprogram hl
  have hknows (l : Label) (hl : Names lowered.program.instructions l) : program.labels.Knows l :=
    hl.elim fun i hi => (hlined i hi.1).labels l hi.2
  obtain ⟨hchecked, hmarks⟩ := Source.checked_of_assemble h
  have hwired := (checked_of_lower hchecked
    (fun id hid => List.mem_range.1 (hmarks ▸ hid)) hl).1.toWired
  refine ⟨hknows, fun l l' hl hl' => ?_, ?_⟩
  · rw [Label.render_eq_iff, ht.numbered.written_eq_iff (hknows l hl) (hknows l' hl')]
  · rw [defined_listing ht hlined, nodup_written_iff hwired ht.numbered hknows]

/-- A text in which a label of a given name is placed and called. -/
def calling (name : String) : String := "." ++ name ++ "\nCAL ." ++ name

/-- A label that is called like a label without a name, but not like the one that is announced when
    its call is lowered. -/
theorem nodup_defined_iff_calling :
    Source.assembleText (calling "__0") = .ok (Source.assembled (calling "__0")) ∧
      ∃ lowered,
        lower { maxTier := .core } .standard (Source.assembled (calling "__0")) = .ok lowered ∧
        (Source.defined (lowered.listing { maxTier := .core })).Nodup := by
  have h : Source.assembleText (calling "__0") = .ok (Source.assembled (calling "__0")) :=
    eq_ok_of_isOk (by decide +kernel) _
  have hl := lower_eq_ok_lowering (show
    (lower { maxTier := .core } .standard (Source.assembled (calling "__0"))).isOk = true by
      decide +kernel)
  have hnone : ∀ i ∈ (lowering { maxTier := .core } .standard
        (Source.assembled (calling "__0"))).program.instructions,
      ∀ i' ∈ (lowering { maxTier := .core } .standard
        (Source.assembled (calling "__0"))).program.instructions,
      ∀ l ∈ i.operands.filterMap Operand.label?, ∀ l' ∈ i'.operands.filterMap Operand.label?,
        ¬l.Mimics l' := by
    decide +kernel
  refine ⟨h, _, hl, (nodup_defined_iff h hl).2.2.2 ?_⟩
  rintro l l' ⟨i, hi, hl⟩ ⟨i', hi', hl'⟩
  exact hnone i hi i' hi' l (List.mem_filterMap.2 ⟨_, hl, rfl⟩) l'
    (List.mem_filterMap.2 ⟨_, hl', rfl⟩)

/-- A label that is called like the one that is announced when its call is lowered. -/
theorem defined_twice :
    Source.assembleText (calling "__1") = .ok (Source.assembled (calling "__1")) ∧
      ∃ lowered, ∃ l l' : Label,
        lower { maxTier := .core } .standard (Source.assembled (calling "__1")) = .ok lowered ∧
        Names lowered.program.instructions l ∧ Names lowered.program.instructions l' ∧
        l.id ≠ l'.id ∧ l.render = l'.render ∧
        Source.defined (lowered.listing { maxTier := .core }) = ["__1", "__1"] := by
  have hl := lower_eq_ok_lowering (show
    (lower { maxTier := .core } .standard (Source.assembled (calling "__1"))).isOk = true by
      decide +kernel)
  refine ⟨eq_ok_of_isOk (by decide +kernel) _, _, ⟨0, some "__1"⟩, .anonymous 1, hl, ?_⟩
  refine ⟨⟨.note (.markLabel ⟨0, some "__1"⟩), ?_⟩, ⟨.note (.markLabel (.anonymous 1)), ?_⟩, ?_⟩ <;>
    decide +kernel

end Lowering

end Wordcode
