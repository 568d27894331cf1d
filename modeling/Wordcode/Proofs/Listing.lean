import Wordcode.Lowering
import Wordcode.Proofs.Language
import Wordcode.Proofs.Relabeling

/-!
# Listings are read as they were written

What is written for an instruction says that instruction again, or nothing if it is a remark.
So a stream can be assembled from its lines: labels come back under the names they were written
by, with other identities, and what the stream states about its needs is found again, as no
instruction asks for more.

* `Instruction.Legible`, `Instruction.Legible.ofLine?_render`: what the line of an instruction says;
* `Listable`: what a stream must satisfy to be read from its lines;
* `Listable.exists_assembleText`: such a stream is assembled from a text of its lines, and is
  loaded as before.
-/

namespace Wordcode

open Instruction

/-! ## Names and lines -/

namespace Label

/-- The name by which a label is written, without the dot. -/
def written (label : Label) : String :=
  match label.name with
  | some name => name
  | none => "__" ++ label.id.repr

theorem render_eq (label : Label) : label.render = "." ++ label.written := by
  rw [render, written]
  cases label.name with
  | some name => rfl
  | none =>
    rw [← String.toList_inj]
    simp

end Label

namespace Text

/-- A text without newlines, and without a carriage return where it ends, is one line. -/
def IsLine (cs : List Char) : Prop := '\n' ∉ cs ∧ cs.getLast? ≠ some '\r'

/-- Whether a text holds neither newlines nor carriage returns. -/
def isUnbroken (cs : List Char) : Bool := cs.all fun c => c != '\n' && c != '\r'

theorem isUnbroken_iff {cs : List Char} :
    isUnbroken cs = true ↔ ∀ c ∈ cs, c ≠ '\n' ∧ c ≠ '\r' := by
  simp [isUnbroken]

@[simp] theorem isUnbroken_append (xs ys : List Char) :
    isUnbroken (xs ++ ys) = (isUnbroken xs && isUnbroken ys) :=
  List.all_append

@[simp] theorem isUnbroken_cons (c : Char) (cs : List Char) :
    isUnbroken (c :: cs) = (c != '\n' && c != '\r' && isUnbroken cs) := rfl

theorem isLine_of_isUnbroken {cs : List Char} (h : isUnbroken cs = true) : IsLine cs := by
  rw [isUnbroken_iff] at h
  exact ⟨fun hc => (h _ hc).1 rfl, fun hc => (h _ (List.mem_of_getLast? hc)).2 rfl⟩

theorem IsLine.append {xs ys : List Char} (hx : isUnbroken xs = true) (hy : IsLine ys) :
    IsLine (xs ++ ys) := by
  refine ⟨?_, ?_⟩
  · rw [List.mem_append, not_or]
    exact ⟨(isLine_of_isUnbroken hx).1, hy.1⟩
  · rw [List.getLast?_append]
    cases hlast : ys.getLast? with
    | none => exact (isLine_of_isUnbroken hx).2
    | some c =>
      rw [Option.some_or, ← hlast]
      exact hy.2

/-- The lines of a text that was put together from lines. -/
theorem lines_unlines {lines : List String} (h : ∀ line ∈ lines, IsLine line.toList) :
    Text.lines (unlines lines).toList = lines.map String.toList := by
  induction lines with
  | nil => rfl
  | cons line lines ih =>
    rw [List.forall_mem_cons] at h
    have hcons :
        (unlines (line :: lines)).toList = line.toList ++ '\n' :: (unlines lines).toList := by
      simp [unlines]
    rw [hcons, lines_append_newline h.1.1 h.1.2, ih h.2, List.map_cons]

end Text

namespace Statement

/-- A text that is one token wherever separators are around it. -/
structure IsWord (cs : List Char) : Prop where
  ne_nil : cs ≠ []
  separates : ∀ c ∈ cs, separates c = false
  comment : ¬commentSign <:+: cs

variable {cs : List Char}

theorem isWord_of_all (hn : cs ≠ []) (hs : cs.all (fun c => !separates c) = true)
    (hc : '/' ∉ cs) : IsWord cs :=
  ⟨hn, by simpa using hs, fun h => hc (h.subset (by simp [commentSign]))⟩

theorem IsWord.cons {c : Char} (h : IsWord cs) (hc : Statement.separates c = false)
    (hne : c ≠ '/') : IsWord (c :: cs) := by
  refine ⟨List.cons_ne_nil _ _, List.forall_mem_cons.2 ⟨hc, h.separates⟩, ?_⟩
  rw [commentSign_infix_cons_iff fun _ he _ => hne he]
  exact h.comment

theorem isWord_repr (n : Nat) : IsWord n.repr.toList := by
  refine isWord_of_all ?_ (List.all_eq_true.2 fun c hc => ?_) fun hc => ?_
  · rw [Nat.toList_repr]
    exact Nat.toDigits_ne_nil
  · rw [separates_of_isDigit (isDigit_of_mem_repr hc)]
    rfl
  · exact absurd (isDigit_of_mem_repr hc) (by decide)

theorem IsWord.isUnbroken (h : IsWord cs) : Text.isUnbroken cs = true := by
  refine Text.isUnbroken_iff.2 fun c hc => ?_
  constructor <;>
  · rintro rfl
    exact absurd (h.separates _ hc) (by decide)

/-- A text that has these words, no comment, and does not end in a blank. -/
structure IsPhrase (words : List (List Char)) (cs : List Char) : Prop where
  words : Text.words Statement.separates cs = words
  comment : ¬commentSign <:+: cs
  isUnbroken : Text.isUnbroken cs = true
  last : ∃ c, cs.getLast? = some c ∧ Text.isBlank c = false

theorem isBlank_of_separates {c : Char} (h : Statement.separates c = false) :
    Text.isBlank c = false := by
  rw [Statement.separates, Bool.or_eq_false_iff] at h
  exact h.1

namespace IsPhrase

variable {words : List (List Char)} {c : Char}

theorem word (h : IsWord cs) : IsPhrase [cs] cs where
  words := Text.words_of_forall_not h.separates h.ne_nil
  comment := h.comment
  isUnbroken := h.isUnbroken
  last := ⟨cs.getLast h.ne_nil, List.getLast?_eq_some_getLast h.ne_nil,
    isBlank_of_separates (h.separates _ (List.getLast_mem h.ne_nil))⟩

/-- A word and a separator may stand before a phrase. -/
theorem append (hw : IsPhrase words cs) {front : List Char} {before : List (List Char)}
    (hfront : Text.words Statement.separates front = before) (hcomment : ¬commentSign <:+: front)
    (hline : Text.isUnbroken front = true) (hc : c = ' ' ∨ c = ',') :
    IsPhrase (before ++ words) (front ++ c :: cs) := by
  have hsep : Statement.separates c = true ∧ c ∉ commentSign ∧ Text.isUnbroken [c] = true := by
    rcases hc with rfl | rfl <;> decide
  obtain ⟨last, hlast, hblank⟩ := hw.last
  constructor
  · rw [Text.words_append_of_separates hsep.1, hfront, hw.words]
  · exact fun h => (Text.infix_append_cons hsep.2.1 h).elim hcomment hw.comment
  · rw [List.append_cons, Text.isUnbroken_append, Text.isUnbroken_append, hline, hsep.2.2,
      hw.isUnbroken]
    rfl
  · exact ⟨last, by simp [List.getLast?_append, List.getLast?_cons, hlast], hblank⟩

theorem intercalate {tokens : List (List Char)} (hn : tokens ≠ [])
    (h : ∀ token ∈ tokens, IsWord token) :
    IsPhrase tokens (List.intercalate [',', ' '] tokens) := by
  induction tokens with
  | nil => exact absurd rfl hn
  | cons token tokens ih =>
    rw [List.forall_mem_cons] at h
    rcases tokens with _ | ⟨next, rest⟩
    · simpa using word h.1
    · have hrest := @append _ _ _ (ih (List.cons_ne_nil _ _) h.2) [] [] rfl
        (by simp [commentSign]) rfl (.inl rfl)
      have hword := word h.1
      simpa using hrest.append hword.words hword.comment hword.isUnbroken (.inr rfl)

theorem content_eq (h : IsPhrase words cs) (hfirst : ∀ c ∈ cs.head?, Text.isBlank c = false) :
    content cs = cs := by
  refine content_eq_self h.comment hfirst fun c hc => ?_
  obtain ⟨last, hlast, hblank⟩ := h.last
  rw [hlast, Option.mem_some_iff] at hc
  rwa [← hc]

theorem tokens_eq (h : IsPhrase words cs) : tokens cs = words.map String.ofList := by
  rw [tokens, h.words]

end IsPhrase

/-- What comes after the first character of a content has no blanks around it, if it does not
    begin with one. -/
theorem trim_of_content {raw : List Char} {c : Char} (h : content raw = c :: cs)
    (hfirst : ∀ x ∈ cs.head?, Text.isBlank x = false) : Text.trim cs = cs := by
  refine Text.trim_eq_self hfirst fun x hx => ?_
  refine (Text.isBlank_ends_of_trim (uncommented raw)).2 x ?_
  rw [← content, h, List.getLast?_cons, Option.mem_def.1 hx]
  rfl

/-- What a word is applied to can be read again. -/
theorem isPhrase_renderApplied {first : String} {rest : List String} (hfirst : IsWord first.toList)
    (hrest : ∀ token ∈ rest, IsWord token.toList) :
    IsPhrase ((first :: rest).map String.toList) (renderApplied first rest).toList := by
  have hword := IsPhrase.word hfirst
  rcases rest with _ | ⟨next, rest⟩
  · exact hword
  · have htokens := @IsPhrase.intercalate ((next :: rest).map String.toList) (by simp)
      (List.forall_mem_map.2 hrest)
    have := htokens.append hword.words hword.comment hword.isUnbroken (.inl rfl)
    simpa [renderApplied, String.toList_intercalate] using this

/-- A name applied to operands is read back as these tokens, and nothing of it is a comment. -/
theorem content_renderApplied {first : String} {rest : List String} (hfirst : IsWord first.toList)
    (hrest : ∀ token ∈ rest, IsWord token.toList) :
    content (renderApplied first rest).toList = (renderApplied first rest).toList ∧
      tokens (renderApplied first rest).toList = first :: rest ∧
      (renderApplied first rest).toList.head? = first.toList.head? := by
  have hphrase := isPhrase_renderApplied hfirst hrest
  have hhead : (renderApplied first rest).toList.head? = first.toList.head? := by
    rw [renderApplied]
    split
    · rfl
    · simp [String.toList_append, List.head?_append_of_ne_nil _ hfirst.ne_nil]
  refine ⟨hphrase.content_eq fun c hc => ?_, ?_, hhead⟩
  · rw [hhead] at hc
    exact isBlank_of_separates (hfirst.separates c (List.mem_of_mem_head? hc))
  · rw [hphrase.tokens_eq, List.map_map]
    simp [Function.comp_def]

end Statement

/-! ## What the line of an instruction says -/

/-- A note whose text stands on one line. -/
def Note.OnLine : Note → Prop
  | .comment text | .macroBegin text | .pragma text => Text.IsLine text.toList
  | _ => True

/-- A note whose text stands on one line, and if it is a pragma is read as one. -/
def Note.HasText : Note → Prop
  | .comment text | .macroBegin text => Text.IsLine text.toList
  | .pragma text => Text.IsLine text.toList ∧
      Statement.ofLine? ('@' :: text.toList) = .ok (some (.pragma text))
  | _ => True

theorem Note.HasText.onLine {n : Note} (h : n.HasText) : n.OnLine := by
  cases n with
  | pragma => exact h.1
  | _ => exact h

/-- A directive is read as a pragma if its text begins right after its sign. -/
theorem Note.hasText_of_directive {text keyword : String} {arguments : List String}
    (hline : Text.IsLine text.toList)
    (hcontent : Statement.content ('@' :: text.toList) = '@' :: text.toList)
    (hfirst : ∀ c ∈ text.toList.head?, Text.isBlank c = false)
    (hd : Statement.Directive ('@' :: text.toList) keyword arguments)
    (hk : keyword ∉ ["macro", "minram", "minreg"]) : (Note.pragma text).HasText := by
  have hsays := Statement.Says.pragma hd hk
  rw [List.tail_cons, Statement.trim_of_content hcontent hfirst, String.ofList_toList] at hsays
  exact ⟨hline, Statement.ofLine?_eq_some_iff.2 (by rwa [hcontent])⟩

namespace Instruction

/-- An instruction that can be read from its line. -/
structure Legible (i : Instruction) : Prop where
  labels : ∀ l : Label, .label l ∈ i.operands → Statement.IsWord l.written.toList
  numbers : ∀ n, .immediate n ∈ i.operands → n < Word.limit
  text : ∀ n, i = .note n → n.HasText

/-- What the line of an instruction says, if it is not a comment. -/
def statement? : Instruction → Option Statement
  | .code op operands => some (.operation op.name (operands.map Operand.render))
  | .note (.markLabel label) => some (.label label.written)
  | .note (.pragma text) => some (.pragma text)
  | .note (.maxReg index) => some (.minReg index.repr)
  | .note (.minRam words) => some (.minRam words.repr)
  | .note _ => none

theorem isSome_statement? (i : Instruction) : i.statement?.isSome = i.isListed := by
  rcases i with _ | ⟨_ | _ | _ | _ | _ | _ | _ | _⟩ <;> rfl

theorem isWord_name (op : Opcode) : Statement.IsWord op.name.toList := by
  cases op <;> exact Statement.isWord_of_all (by decide) (by decide) (by decide)

end Instruction

theorem Label.isWord_render {label : Label} (h : Statement.IsWord label.written.toList) :
    Statement.IsWord label.render.toList := by
  have hcons : label.render.toList = '.' :: label.written.toList := by
    rw [Label.render_eq, String.toList_append]
    rfl
  rw [hcons]
  exact h.cons (by decide) (by decide)

/-- The line of a label says that the label is placed there. -/
theorem Label.says_render {label : Label} (h : Statement.IsWord label.written.toList) :
    Statement.Says (Statement.content label.render.toList) (.label label.written) := by
  have hphrase := Statement.IsPhrase.word (isWord_render h)
  have hhead : label.render.toList.head? = some '.' := by
    rw [render_eq, String.toList_append]
    rfl
  rw [hphrase.content_eq (by rw [hhead]; rintro c ⟨⟩; rfl)]
  refine .label hhead ?_ fun he => h.ne_nil (by rw [he]; rfl)
  rw [hphrase.tokens_eq, ← render_eq, List.map_cons, String.ofList_toList]
  rfl

theorem Operand.isWord_render {x : Operand}
    (h : ∀ l, x = .label l → Statement.IsWord l.written.toList) :
    Statement.IsWord x.render.toList := by
  cases x with
  | register index =>
    have hcons : (render (.register index)).toList = 'R' :: index.repr.toList := by
      rw [render, String.toList_append]
      rfl
    rw [hcons]
    exact (Statement.isWord_repr index).cons (by decide) (by decide)
  | immediate value => exact Statement.isWord_repr value
  | label l => exact Label.isWord_render (h l rfl)

namespace Instruction

variable {i : Instruction} {op : Opcode} {operands : List Operand}

theorem forall_isWord_render
    (h : ∀ l : Label, .label l ∈ operands → Statement.IsWord l.written.toList) :
    ∀ token ∈ operands.map Operand.render, Statement.IsWord token.toList := by
  rw [List.forall_mem_map]
  exact fun x hx => Operand.isWord_render fun l hl => h l (hl ▸ hx)

/-- An instruction is written on one line. -/
theorem isLine_render_code
    (h : ∀ l : Label, .label l ∈ operands → Statement.IsWord l.written.toList) :
    Text.IsLine (code op operands).render.toList :=
  Text.isLine_of_isUnbroken
    (Statement.isPhrase_renderApplied (isWord_name op) (forall_isWord_render h)).isUnbroken

theorem render_maxReg (index : Nat) :
    (note (.maxReg index)).render = renderApplied "@minreg" [index.repr] := by
  rw [← String.toList_inj]
  simp [render, Note.render, renderApplied]

theorem render_minRam (words : Nat) :
    (note (.minRam words)).render = renderApplied "@minram" [words.repr] := by
  rw [← String.toList_inj]
  simp [render, Note.render, renderApplied]

theorem isLine_render_need {sign : String} (h : Statement.IsWord sign.toList) (n : Nat) :
    Text.IsLine (renderApplied sign [n.repr]).toList :=
  Text.isLine_of_isUnbroken (Statement.isPhrase_renderApplied h
    (List.forall_mem_singleton.2 (Statement.isWord_repr n))).isUnbroken

theorem isWord_minreg : Statement.IsWord "@minreg".toList :=
  Statement.isWord_of_all (by decide) (by decide) (by decide)

theorem isWord_minram : Statement.IsWord "@minram".toList :=
  Statement.isWord_of_all (by decide) (by decide) (by decide)

/-- An instruction is written on one line if its text is. -/
theorem isLine_render (hlabels : ∀ l : Label, .label l ∈ i.operands →
      Statement.IsWord l.written.toList) (htext : ∀ n, i = .note n → n.OnLine) :
    Text.IsLine i.render.toList := by
  have hlabel {l : Label} (hl : .label l ∈ i.operands) : Text.IsLine l.render.toList :=
    Text.isLine_of_isUnbroken (Label.isWord_render (hlabels l hl)).isUnbroken
  rcases i with ⟨op, operands⟩ | n
  · exact isLine_render_code hlabels
  · have htext := htext n rfl
    cases n with
    | createLabel l =>
      rw [render, Note.render, String.toList_append]
      exact .append (by decide) (hlabel List.mem_cons_self)
    | markLabel l => exact hlabel List.mem_cons_self
    | comment text =>
      rw [render, Note.render, String.toList_append]
      exact .append (by decide) htext
    | pragma text =>
      rw [render, Note.render, String.toList_append]
      exact .append (by decide) htext
    | macroBegin name =>
      rw [render, Note.render, String.toList_append]
      exact .append (by decide) htext
    | macroEnd => exact Text.isLine_of_isUnbroken (by decide)
    | maxReg index =>
      rw [render_maxReg]
      exact isLine_render_need isWord_minreg index
    | minRam words =>
      rw [render_minRam]
      exact isLine_render_need isWord_minram words

theorem Legible.isLine_render (h : i.Legible) : Text.IsLine i.render.toList :=
  Instruction.isLine_render h.labels fun n hn => (h.text n hn).onLine

theorem directive_need {first keyword : String} (h : Statement.IsWord first.toList)
    (hfirst : first = "@" ++ keyword) (hk : keyword.map Char.toLower = keyword) (n : Nat) :
    Statement.Directive (Statement.content (renderApplied first [n.repr]).toList) keyword
      [n.repr] := by
  obtain ⟨hcontent, htokens, hhead⟩ := Statement.content_renderApplied h
    (List.forall_mem_singleton.2 (Statement.isWord_repr n))
  rw [hcontent]
  refine ⟨hhead.trans ?_, keyword, hfirst ▸ htokens, hk⟩
  rw [hfirst, String.toList_append]
  rfl

/-- The line of an instruction says what it is read as, if it is no pragma. -/
theorem ofLine?_render (hlabels : ∀ l : Label, .label l ∈ i.operands →
      Statement.IsWord l.written.toList) (hp : ∀ text, i ≠ .note (.pragma text)) :
    Statement.ofLine? i.render.toList = .ok i.statement? := by
  rcases i with ⟨op, operands⟩ | n
  · obtain ⟨hcontent, htokens, hhead⟩ :=
      Statement.content_renderApplied (isWord_name op) (@forall_isWord_render operands hlabels)
    refine Statement.ofLine?_eq_some_iff.2 ?_
    rw [render, hcontent]
    refine .operation ?_ ?_ htokens <;>
    · rw [hhead]
      cases op <;> decide
  · cases n with
    | createLabel l =>
      rw [render, Note.render, String.toList_append]
      rfl
    | markLabel l =>
      exact Statement.ofLine?_eq_some_iff.2 (Label.says_render (hlabels l List.mem_cons_self))
    | pragma text => exact absurd rfl (hp text)
    | comment text | macroBegin text =>
      rw [render, Note.render, String.toList_append]
      rfl
    | macroEnd => rfl
    | maxReg index =>
      rw [render_maxReg]
      refine Statement.ofLine?_eq_some_iff.2 (.minReg ?_)
      exact directive_need isWord_minreg rfl (by decide +kernel) index
    | minRam words =>
      rw [render_minRam]
      refine Statement.ofLine?_eq_some_iff.2 (.minRam ?_)
      exact directive_need isWord_minram rfl (by decide +kernel) words

theorem Legible.ofLine?_render (h : i.Legible) :
    Statement.ofLine? i.render.toList = .ok i.statement? := by
  by_cases hp : ∃ text, i = .note (.pragma text)
  · obtain ⟨text, rfl⟩ := hp
    rw [render, Note.render, String.toList_append]
    exact (h.text _ rfl).2
  · exact Instruction.ofLine?_render h.labels (not_exists.1 hp)

end Instruction

theorem Source.reads_render {stream : List Instruction} (h : ∀ i ∈ stream, i.Legible) :
    Reads (stream.map render) (stream.filterMap statement?) := by
  induction stream with
  | nil => exact .nil
  | cons i rest ih =>
    rw [List.forall_mem_cons] at h
    have hline := h.1.ofLine?_render
    rw [List.map_cons, List.filterMap_cons]
    cases hs : i.statement? with
    | none => exact .blank (hs ▸ hline) (ih h.2)
    | some s => exact .line (hs ▸ hline) (ih h.2)

/-- The lines of a stream below a title. -/
theorem Source.lines_titled {title : String} {stream : List Instruction}
    (htitle : Text.IsLine title.toList) (h : ∀ i ∈ stream, Text.IsLine i.render.toList) :
    lines (Text.unlines (("// " ++ title) :: stream.map render)) =
      ("// " ++ title) :: stream.map render := by
  have hlines : ∀ line ∈ ("// " ++ title) :: stream.map render, Text.IsLine line.toList := by
    rw [List.forall_mem_cons, List.forall_mem_map, String.toList_append]
    exact ⟨.append (by decide) htitle, h⟩
  rw [lines, Text.lines_unlines hlines, List.map_map]
  simp [Function.comp_def]

theorem Statement.ofLine?_title (title : String) : ofLine? ("// " ++ title).toList = .ok none := by
  rw [String.toList_append]
  rfl

/-! ## The labels of a table -/

namespace LabelTable

/-- A table that gave out the identities from 0 on, and each of them to one name. -/
def Numbered (table : LabelTable) : Prop :=
  table.named.map Prod.snd = (List.range table.nextId).reverse

variable {table : LabelTable}

theorem Numbered.define (h : table.Numbered) (name : String) : (table.define name).Numbered := by
  rw [Numbered, LabelTable.define, List.map_cons, h, List.range_succ, List.reverse_append]
  rfl

theorem mem_of_lookup {name : String} {l : Label} (h : table.lookup name = some l) :
    (name, l.id) ∈ table.named ∧ l.name = some name := by
  rw [lookup, Option.map_eq_some_iff] at h
  obtain ⟨id, hid, rfl⟩ := h
  obtain ⟨front, back, hnamed, -⟩ := List.lookup_eq_some_iff.1 hid
  exact ⟨by simp [hnamed], rfl⟩

theorem Numbered.id_lt (h : table.Numbered) {name : String} {l : Label}
    (hl : table.lookup name = some l) : l.id < table.nextId := by
  have hid : l.id ∈ table.named.map Prod.snd := List.mem_map.2 ⟨_, (mem_of_lookup hl).1, rfl⟩
  rw [h, List.mem_reverse] at hid
  exact List.mem_range.1 hid

/-- Different names have different labels. -/
theorem Numbered.id_eq_iff (h : table.Numbered) {name name' : String} {l l' : Label}
    (hl : table.lookup name = some l) (hl' : table.lookup name' = some l') :
    l.id = l'.id ↔ name = name' := by
  constructor
  · intro hid
    have hnodup : (table.named.map Prod.snd).Nodup := by
      rw [h, List.nodup_reverse]
      exact List.nodup_range
    have := List.inj_on_of_nodup_map hnodup (mem_of_lookup hl).1 (mem_of_lookup hl').1 hid
    exact congrArg Prod.fst this
  · rintro rfl
    rw [Option.some.inj (hl.symm.trans hl')]

end LabelTable

namespace Discovery

variable {d d' : Discovery} {before ss : List Statement} {lines : List SourceLine}

theorem numbered_of_foldlM (h : d.scope.labels.Numbered) (hd : lines.foldlM add d = .ok d') :
    d'.scope.labels.Numbered := by
  induction lines generalizing d with
  | nil => rwa [← Except.ok.inj hd]
  | cons line lines ih =>
    obtain ⟨next, hn, hd⟩ := bind_eq_ok_iff.1 hd
    refine ih ?_ hd
    cases takes_of_add hn with
    | label => exact h.define _
    | _ => exact h

theorem numbered_of_ofLines (h : ofLines lines = .ok d) : d.scope.labels.Numbered :=
  numbered_of_foldlM (d := {}) rfl (ofLines_eq_ok_iff.1 h).1

/-- A text that defines nothing but labels, and each of them once, is taken as it is. -/
theorem exists_foldlM_of_flat (h : Tracks before d) (hp : d.pending = none)
    (hflat : ∀ s ∈ ss, s.isPlain = true ∨ ∃ name, s = .label name)
    (hn : ((before ++ ss).filterMap Statement.label?).Nodup) :
    ∃ d', (ss.map SourceLine.ofStatement).foldlM add d = .ok d' ∧ d'.pending = none ∧
      d'.outside = d.outside ++ ss.map SourceLine.ofStatement := by
  induction ss generalizing before d with
  | nil => exact ⟨d, rfl, hp, (List.append_nil _).symm⟩
  | cons s ss ih =>
    rw [List.forall_mem_cons] at hflat
    have hstep : ∃ next, d.Takes (.ofStatement s) next ∧ next.pending = none ∧
        next.outside = d.outside ++ [.ofStatement s] := by
      rcases hflat.1 with hs | ⟨name, rfl⟩
      · exact ⟨_, .outside hs hp, hp, rfl⟩
      · refine ⟨_, .label rfl hp (h.lookup_labels_eq_none_iff.2 fun hmem => ?_), hp, rfl⟩
        rw [List.filterMap_append, List.nodup_append] at hn
        exact hn.2.2 name (List.mem_filterMap.2 ⟨_, hmem, rfl⟩) name
          (List.mem_filterMap.2 ⟨_, List.mem_cons_self, rfl⟩) rfl
    obtain ⟨next, ht, hp', ho⟩ := hstep
    obtain ⟨d', hd', hp'', ho'⟩ := ih (h.takes ht) hp' hflat.2 (by
      rwa [List.append_assoc])
    refine ⟨d', bind_eq_ok_iff.2 ⟨next, add_of_takes ht, hd'⟩, hp'', ?_⟩
    rw [ho', ho, List.append_assoc]
    rfl

theorem exists_ofLines_of_flat
    (hflat : ∀ s ∈ ss, s.isPlain = true ∨ ∃ name, s = .label name)
    (hn : (ss.filterMap Statement.label?).Nodup) :
    ∃ d, ofLines (ss.map SourceLine.ofStatement) = .ok d ∧
      d.outside = ss.map SourceLine.ofStatement := by
  obtain ⟨d, hd, hp, ho⟩ := exists_foldlM_of_flat .nil rfl hflat hn
  exact ⟨d, ofLines_eq_ok_iff.2 ⟨hd, hp⟩, ho⟩

end Discovery

/-! ## Reading instructions again -/

/-- The label of a table that has the name by which a label is written. -/
def LabelTable.reread (table : LabelTable) (label : Label) : Label :=
  (table.lookup label.written).getD label

/-- A table has the names by which the labels of a stream are written. -/
def LabelTable.Rereads (table : LabelTable) (stream : List Instruction) : Prop :=
  ∀ l, Names stream l → (table.lookup l.written).isSome = true

theorem LabelTable.render_reread (table : LabelTable) (label : Label) :
    (table.reread label).render = label.render := by
  rw [reread]
  cases hl : table.lookup label.written with
  | none => rfl
  | some l =>
    rw [Option.getD_some, Label.render, (mem_of_lookup hl).2, Label.render_eq]

theorem Operand.render_relabel (table : LabelTable) (x : Operand) :
    (x.relabel table.reread).render = x.render := by
  cases x with
  | label l => exact table.render_reread l
  | _ => rfl

theorem Operand.kind_relabel {f : Label → Label} (x : Operand) : (x.relabel f).kind = x.kind := by
  cases x <;> rfl

namespace Instruction

theorem render_relabel (table : LabelTable) (i : Instruction) :
    (i.relabel table.reread).render = i.render := by
  rcases i with ⟨op, operands⟩ | n
  · rw [relabel, render, render, List.map_map]
    congr 1
    exact List.map_congr_left fun x _ => Operand.render_relabel table x
  · cases n with
    | createLabel l | markLabel l =>
      simp [relabel, render, Note.relabel, Note.render, LabelTable.render_reread]
    | _ => rfl

theorem isListed_relabel {f : Label → Label} (i : Instruction) :
    (i.relabel f).isListed = i.isListed := by
  rcases i with _ | ⟨_ | _ | _ | _ | _ | _ | _ | _⟩ <;> rfl

theorem WellFormed.relabel {f : Label → Label} {op : Opcode} {operands : List Operand}
    (h : (code op operands).WellFormed) :
    (code op (operands.map (Operand.relabel f))).WellFormed := by
  refine Signature.accepts_iff_forall₂.2 (List.forall₂_map_left_iff.2 ?_)
  refine (Signature.accepts_iff_forall₂.1 h).imp fun x kinds hx => ?_
  rwa [Operand.kind_relabel]

end Instruction

theorem Opcode.ofMnemonic?_name (op : Opcode) : ofMnemonic? op.name = some op := by
  cases op <;> decide +kernel

namespace Scope

variable {scope : Scope}

/-- An operand is read from what is written, if its number fits and its label is known. -/
theorem operand_render {x : Operand} (hreg : ∀ n, x = .register n → n < Word.limit)
    (himm : ∀ n, x = .immediate n → n < Word.limit)
    (hlabel : ∀ l, x = .label l → (scope.labels.lookup l.written).isSome = true) :
    scope.operand x.render = .ok (x.relabel scope.labels.reread) := by
  cases x with
  | register n =>
    have hcons : (Operand.render (.register n)).toList = 'R' :: n.repr.toList := by
      rw [Operand.render, String.toList_append]
      rfl
    refine operand_eq_ok_iff.2 (.inr (.inl ⟨n, ?_, rfl⟩))
    rw [hcons, register?, if_pos (.inl rfl), Nat.toList_repr, Text.numeral?_toDigits (hreg n rfl)]
  | immediate n => exact operand_repr (himm n rfl)
  | label l =>
    obtain ⟨l', hl'⟩ := Option.isSome_iff_exists.1 (hlabel l rfl)
    refine operand_eq_ok_iff.2 (.inl ⟨l.written, l', l.render_eq, hl', ?_⟩)
    rw [Operand.relabel, LabelTable.reread, hl', Option.getD_some]

theorem instruction_render {op : Opcode} {operands : List Operand}
    (hw : (code op operands).WellFormed)
    (hreg : ∀ n, .register n ∈ operands → n < Word.limit)
    (himm : ∀ n, .immediate n ∈ operands → n < Word.limit)
    (hlabel : ∀ l : Label, .label l ∈ operands →
      (scope.labels.lookup l.written).isSome = true) :
    scope.instruction op.name (operands.map Operand.render) =
      .ok ((code op operands).relabel scope.labels.reread) := by
  refine instruction_eq_ok_iff.2 ⟨op, _, op.ofMnemonic?_name, ?_, rfl, hw.relabel⟩
  rw [List.forall₂_map_left_iff, List.forall₂_map_right_iff, List.forall₂_same]
  exact fun x hx => operand_render (fun n hn => hreg n (hn ▸ hx)) (fun n hn => himm n (hn ▸ hx))
    fun l hl => hlabel l (hl ▸ hx)

end Scope

/-! ## Reading streams again -/

/-- A stream that states what it needs before all else. -/
def Needs.before (needed : Needs) (body : List Instruction) : List Instruction :=
  .note (.maxReg needed.maxRegister) :: .note (.minRam needed.minRam) :: body

theorem Needs.mem_before {needed : Needs} {body : List Instruction} {i : Instruction}
    (hi : i ∈ body) : i ∈ needed.before body :=
  List.mem_cons_of_mem _ (List.mem_cons_of_mem _ hi)

namespace Instruction

/-- Whether an instruction states a need. -/
def isNeed : Instruction → Bool
  | .note (.maxReg _) | .note (.minRam _) => true
  | _ => false

theorem register_mem_of_relabel {f : Label → Label} {i : Instruction} {j : Nat}
    (h : .register j ∈ (i.relabel f).operands) : .register j ∈ i.operands := by
  rcases i with ⟨op, operands⟩ | n
  · obtain ⟨x, hx, he⟩ := List.mem_map.1 h
    cases x <;> cases he
    exact hx
  · cases n <;> simp_all [relabel, Note.relabel, operands, Note.operands]

theorem label?_statement? (i : Instruction) :
    i.statement?.bind Statement.label? = i.mark?.map Label.written := by
  rcases i with _ | ⟨_ | _ | _ | _ | _ | _ | _ | _⟩ <;> rfl

theorem filterMap_label?_statement? (stream : List Instruction) :
    (stream.filterMap statement?).filterMap Statement.label? =
      (stream.filterMap mark?).map Label.written := by
  rw [List.filterMap_filterMap, List.map_filterMap]
  exact congrArg (List.filterMap · stream) (funext label?_statement?)

theorem names_of_mem_filterMap_mark? {stream : List Instruction} {l : Label}
    (h : l ∈ stream.filterMap mark?) : Names stream l := by
  obtain ⟨i, hi, hm⟩ := List.mem_filterMap.1 h
  exact ⟨i, hi, label_mem_of_mark? hm⟩

/-- Labels that are told apart by how they are written are placed under different names. -/
theorem nodup_written_of_nodup {stream : List Instruction} (h : (marks stream).Nodup)
    (hwritten : ∀ l l', Names stream l → Names stream l' → l.written = l'.written → l.id = l'.id) :
    ((stream.filterMap mark?).map Label.written).Nodup := by
  have hids : ((stream.filterMap mark?).map Label.id).Nodup := by
    rw [List.map_filterMap]
    exact h
  rw [List.Nodup, List.pairwise_map] at hids ⊢
  exact hids.imp_of_mem fun hl hl' hne he => hne
    (hwritten _ _ (names_of_mem_filterMap_mark? hl) (names_of_mem_filterMap_mark? hl') he)

theorem isPlain_or_label {i : Instruction} {s : Statement} (h : i.statement? = some s) :
    s.isPlain = true ∨ ∃ name, s = .label name := by
  rcases i with _ | ⟨_ | _ | _ | _ | _ | _ | _ | _⟩ <;> cases h
  · exact .inl rfl
  · exact .inr ⟨_, rfl⟩
  · exact .inl rfl
  · exact .inl rfl
  · exact .inl rfl

end Instruction

/-- A stream that can be read from its lines: what it states, it states first, and its labels
    can be told apart by the names they are written by. -/
structure Listable (needed : Needs) (body : List Instruction) : Prop where
  wired : Wired (needed.before body)
  legible : ∀ i ∈ body, i.Legible
  isNeed : ∀ i ∈ body, i.isNeed = false
  registers : ∀ i ∈ body, ∀ j, .register j ∈ i.operands → j ≤ needed.maxRegister
  maxRegister_lt : needed.maxRegister < Word.limit
  minRam_lt : needed.minRam < Word.limit
  written : ∀ l l', Names body l → Names body l' → (l.written = l'.written ↔ l.id = l'.id)

namespace Listable

variable {needed : Needs} {body : List Instruction} {i : Instruction} {s : Statement}
  {scope : Scope}

theorem legible_before (h : Listable needed body) : ∀ i ∈ needed.before body, i.Legible := by
  refine List.forall_mem_cons.2 ⟨?_, List.forall_mem_cons.2 ⟨?_, h.legible⟩⟩
  · refine ⟨by simp [operands, Note.operands], ?_, by rintro _ ⟨⟩; trivial⟩
    simpa [operands, Note.operands] using h.maxRegister_lt
  · refine ⟨by simp [operands, Note.operands], ?_, by rintro _ ⟨⟩; trivial⟩
    simpa [operands, Note.operands] using h.minRam_lt

/-- The names under which labels are placed are different. -/
theorem nodup_written (h : Listable needed body) :
    ((body.filterMap statement?).filterMap Statement.label?).Nodup := by
  rw [filterMap_label?_statement?]
  exact nodup_written_of_nodup h.wired.nodup fun l l' hl hl' => (h.written l l' hl hl').1

/-- A label that is named is placed on a line of its own. -/
theorem label_mem (h : Listable needed body) {l : Label} (hl : Names body l) :
    .label l.written ∈ body.filterMap statement? := by
  obtain ⟨i, hi, hm⟩ := hl
  have hmarked := h.wired.marked i (Needs.mem_before hi) l hm
  obtain ⟨l', hl', hid⟩ := mem_marks_iff.1 (show l.id ∈ marks body from hmarked)
  have hwritten := (h.written l l' ⟨i, hi, hm⟩ ⟨_, hl', List.mem_cons_self⟩).2 hid.symm
  exact List.mem_filterMap.2 ⟨_, hl', by rw [hwritten]; rfl⟩

/-- The operation on the line of an instruction is the instruction, with other labels. -/
theorem instruction_render (h : Listable needed body)
    (hscope : scope.labels.Rereads body) {op : Opcode}
    {operands : List Operand} (hi : .code op operands ∈ body) :
    scope.instruction op.name (operands.map Operand.render) =
      .ok ((code op operands).relabel scope.labels.reread) := by
  refine Scope.instruction_render ?_ (fun n hn => ?_) (h.legible _ hi).numbers
    fun l hl => hscope l ⟨_, hi, hl⟩
  · exact h.wired.wellFormed _ (Needs.mem_before hi)
  · exact Nat.lt_of_le_of_lt (h.registers _ hi n hn) h.maxRegister_lt

/-- What is written for an instruction is the instruction, with other labels. -/
theorem emit_statement? (h : Listable needed body)
    (hscope : scope.labels.Rereads body)
    (hi : i ∈ body) (hs : i.statement? = some s) :
    Source.emit scope (.ofStatement s) = .ok [i.relabel scope.labels.reread] := by
  have hneed := h.isNeed i hi
  rcases i with ⟨op, operands⟩ | n
  · cases hs
    have hplain : Source.emit scope (.ofStatement
        (.operation op.name (operands.map Operand.render))) =
      SourceLine.blame _ (do
        return [← scope.instruction op.name (operands.map Operand.render)]) := rfl
    rw [hplain, h.instruction_render hscope hi]
    rfl
  · cases n with
    | markLabel l =>
      cases hs
      obtain ⟨l', hl'⟩ := Option.isSome_iff_exists.1 (hscope l ⟨_, hi, List.mem_cons_self⟩)
      rw [relabel, Note.relabel, LabelTable.reread, hl']
      simp only [Source.emit, Source.plain, SourceLine.ofStatement, hl']
      rfl
    | pragma text =>
      cases hs
      rfl
    | maxReg | minRam => cases hneed
    | createLabel | comment | macroBegin | macroEnd => cases hs

/-- An instruction asks for no more than the stream states. -/
theorem exists_asks (h : Listable needed body)
    (hscope : scope.labels.Rereads body)
    (hi : i ∈ body) (hs : i.statement? = some s) :
    ∃ asked, scope.asks s = .ok asked ∧ needed.Meets asked := by
  have hneed := h.isNeed i hi
  rcases i with ⟨op, operands⟩ | n
  · cases hs
    refine ⟨_, by rw [Scope.asks, h.instruction_render hscope hi]; rfl, ?_, Nat.zero_le _⟩
    exact highestRegister?_le_iff.2 fun j hj => h.registers _ hi j (register_mem_of_relabel hj)
  · cases n with
    | markLabel | pragma =>
      cases hs
      exact ⟨{}, rfl, needed.meets_empty⟩
    | maxReg | minRam => cases hneed
    | createLabel | comment | macroBegin | macroEnd => cases hs

/-- The needs of the lines are those that the stream states. -/
theorem needs_statements (h : Listable needed body)
    (hscope : scope.labels.Rereads body) :
    Source.needs scope (((needed.before body).filterMap statement?).map SourceLine.ofStatement) =
      .ok needed := by
  have hreg : scope.asks (.minReg needed.maxRegister.repr) = .ok ⟨needed.maxRegister, 0⟩ := by
    rw [Scope.asks, Scope.value_repr h.maxRegister_lt]
    rfl
  have hram : scope.asks (.minRam needed.minRam.repr) = .ok ⟨0, needed.minRam⟩ := by
    rw [Scope.asks, Scope.value_repr h.minRam_lt]
    rfl
  have hasks : ∀ line ∈ ((needed.before body).filterMap statement?).map SourceLine.ofStatement,
      ∃ asked, scope.asks line.statement = .ok asked ∧ needed.Meets asked := by
    rw [List.forall_mem_map]
    refine List.forall_mem_cons.2 ⟨⟨_, hreg, Nat.le_refl _, Nat.zero_le _⟩,
      List.forall_mem_cons.2 ⟨⟨_, hram, Nat.zero_le _, Nat.le_refl _⟩, fun s hs => ?_⟩⟩
    obtain ⟨i, hi, hs⟩ := List.mem_filterMap.1 hs
    exact h.exists_asks hscope hi hs
  obtain ⟨found, hfound⟩ := Source.exists_needs_iff.2 fun line hl =>
    (hasks line hl).imp fun _ ha => ha.1
  rw [hfound]
  congr 1
  -- the first two lines ask for what is stated, and no line asks for more
  refine Needs.eq_of_meets_iff fun n => (Source.meets_needs_iff hfound).trans ?_
  constructor
  · intro hn
    exact ⟨(hn _ List.mem_cons_self _ hreg).1,
      (hn _ (List.mem_cons_of_mem _ List.mem_cons_self) _ hram).2⟩
  · intro hn line hl asked ha
    obtain ⟨asked', ha', hmeets⟩ := hasks line hl
    cases ha.symm.trans ha'
    exact ⟨Nat.le_trans hmeets.1 hn.1, Nat.le_trans hmeets.2 hn.2⟩

/-- The lines of a part of a stream are assembled to this part, with the labels that are read
    back. -/
theorem exists_streams (h : Listable needed body)
    (hscope : scope.labels.Rereads body)
    {part : List Instruction} (hpart : ∀ i ∈ part, i ∈ body) :
    ∃ streams, List.Forall₂ (fun line stream => Source.emit scope line = .ok stream)
        ((part.filterMap statement?).map SourceLine.ofStatement) streams ∧
      streams.flatten = (part.filter isListed).map (relabel scope.labels.reread) := by
  induction part with
  | nil => exact ⟨[], .nil, rfl⟩
  | cons i rest ih =>
    rw [List.forall_mem_cons] at hpart
    obtain ⟨streams, hstreams, hflatten⟩ := ih hpart.2
    have hlisted := isSome_statement? i
    rw [List.filterMap_cons]
    cases hs : i.statement? with
    | none =>
      rw [hs] at hlisted
      refine ⟨streams, hstreams, ?_⟩
      rw [hflatten, List.filter_cons_of_neg (by simp [← hlisted])]
    | some s =>
      rw [hs] at hlisted
      refine ⟨_ :: streams, .cons (h.emit_statement? hscope hpart.1 hs) hstreams, ?_⟩
      rw [List.filter_cons_of_pos hlisted.symm, List.flatten_cons, hflatten]
      rfl

/-- A stream is assembled from its lines, with other labels and without remarks. -/
theorem exists_assemble (h : Listable needed body) :
    ∃ reread, Source.assemble ((needed.before body).map render) = .ok reread ∧
      reread.instructions =
        ((needed.before body).filter isListed).map (relabel reread.labels.reread) ∧
      Separates (needed.before body) reread.labels.reread := by
  have hflat : ∀ s ∈ (needed.before body).filterMap statement?,
      s.isPlain = true ∨ ∃ name, s = .label name := by
    intro s hs
    obtain ⟨i, -, hs⟩ := List.mem_filterMap.1 hs
    exact isPlain_or_label hs
  obtain ⟨d, hd, houtside⟩ := Discovery.exists_ofLines_of_flat hflat h.nodup_written
  have hlookup : d.scope.labels.Rereads body := fun l hl =>
    ((Discovery.tracks_of_ofLines hd).labels _).2
      (List.mem_cons_of_mem _ (List.mem_cons_of_mem _ (h.label_mem hl)))
  obtain ⟨streams, hstreams, hflatten⟩ := h.exists_streams hlookup fun _ hi => hi
  refine ⟨_, Source.assemble_eq_ok_iff.2 ⟨_, Source.reads_render h.legible_before,
    Source.ofStatements_eq_ok_iff.2 ⟨d, needed, [] :: [] :: streams, hd,
      h.needs_statements hlookup, ?_, rfl⟩⟩, ?_, fun l l' hl hl' => ?_⟩
  -- the lines that state the needs write nothing; the needs are written in front anyway
  · rw [houtside]
    exact .cons rfl (.cons rfl hstreams)
  · rw [List.flatten_cons, List.flatten_cons, hflatten]
    rfl
  · have hnames {l : Label} (hl : Names (needed.before body) l) : Names body l := by
      obtain ⟨i, hi, hm⟩ := hl
      rcases List.mem_cons.1 hi with rfl | hi
      · simp [operands, Note.operands] at hm
      rcases List.mem_cons.1 hi with rfl | hi
      · simp [operands, Note.operands] at hm
      exact ⟨i, hi, hm⟩
    obtain ⟨m, hm⟩ := Option.isSome_iff_exists.1 (hlookup l (hnames hl))
    obtain ⟨m', hm'⟩ := Option.isSome_iff_exists.1 (hlookup l' (hnames hl'))
    rw [LabelTable.reread, LabelTable.reread, hm, hm', Option.getD_some, Option.getD_some,
      (Discovery.numbered_of_ofLines hd).id_eq_iff hm hm', h.written l l' (hnames hl) (hnames hl')]

/-- A stream is assembled from a text of its lines: what is written for it stays the same, and
    so does what is loaded of it. -/
theorem exists_assembleText (h : Listable needed body) {title : String}
    (htitle : Text.IsLine title.toList) :
    ∃ reread,
      Source.assembleText
        (Text.unlines (("// " ++ title) :: (needed.before body).map render)) = .ok reread ∧
      reread.instructions.map render = ((needed.before body).filter isListed).map render ∧
      ∀ {Bus : Type} (m : Machine Bus),
        m.load reread.instructions = m.load (needed.before body) := by
  obtain ⟨reread, hreread, hstream, hseparates⟩ := h.exists_assemble
  refine ⟨reread, ?_, ?_, fun {_} m => ?_⟩
  · obtain ⟨ss, hreads, hss⟩ := Source.assemble_eq_ok_iff.1 hreread
    rw [Source.assembleText,
      Source.lines_titled htitle fun i hi => (h.legible_before i hi).isLine_render]
    exact Source.assemble_eq_ok_iff.2 ⟨ss, .blank (Statement.ofLine?_title title) hreads, hss⟩
  · rw [hstream, List.map_map]
    exact List.map_congr_left fun i _ => render_relabel _ i
  · have hcomp : isListed ∘ relabel reread.labels.reread = isListed := funext isListed_relabel
    have hfilter : reread.instructions =
        ((needed.before body).map (relabel reread.labels.reread)).filter isListed := by
      rw [hstream, List.filter_map, hcomp]
    have hload (stream : List Instruction) : m.load (stream.filter isListed) = m.load stream := by
      rw [Machine.load_eq, Machine.load_eq, (Image.alike_filter_isListed _ stream).image_eq]
    rw [hfilter, hload, Machine.load_map_relabel h.wired hseparates]

end Listable
end Wordcode
