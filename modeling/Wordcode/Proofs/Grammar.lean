import Wordcode.Proofs.Statements

/-!
# What a line says

Which statement is on a line, said without reading it: `Statement.Says` has one rule for each
form a line can have. Only the *content* of a line counts, that is what stands before a comment,
without blanks around it.

* `Statement.Says`: the forms of lines;
* `Statement.ofLine?_eq_some_iff`: the statement on a line is what its content says;
* `Source.reads_iff`: the same for all lines of a text.
-/

namespace Wordcode

namespace Statement

/-- A text begins with `@` and a keyword, in which capitals do not matter, and goes on with
    these arguments. -/
def Directive (text : List Char) (keyword : String) (arguments : List String) : Prop :=
  text.head? = some '@' ∧
    ∃ sign : String, tokens text = ("@" ++ sign) :: arguments ∧ sign.map Char.toLower = keyword

/-- What the content of a line says. -/
inductive Says (text : List Char) : Statement → Prop
  | label {name : String} : text.head? = some '.' → tokens text = ["." ++ name] → name ≠ "" →
      Says text (.label name)
  | valueMacro {name value : String} : Directive text "macro" [name, value] → name ≠ "begin" →
      Says text (.valueMacro name value)
  | macroBegin {name : String} : Directive text "macro" ["begin", name] →
      Says text (.macroBegin name)
  | macroEnd : Directive text "macro" ["end"] → Says text .macroEnd
  | macroUse {name : String} : Directive text "macro" [name] → name ≠ "begin" → name ≠ "end" →
      Says text (.macroUse name)
  | minRam {words : String} : Directive text "minram" [words] → Says text (.minRam words)
  | minReg {index : String} : Directive text "minreg" [index] → Says text (.minReg index)
  | pragma {keyword : String} {arguments : List String} : Directive text keyword arguments →
      keyword ∉ ["macro", "minram", "minreg"] →
      Says text (.pragma (String.ofList (Text.trim text.tail)))
  | operation {mnemonic : String} {operands : List String} : text.head? ≠ some '.' →
      text.head? ≠ some '@' → tokens text = mnemonic :: operands →
      Says text (.operation mnemonic operands)

variable {raw text : List Char} {first keyword : String} {rest arguments : List String}
  {s : Statement}

/-- A line is read as its content is. -/
theorem ofLine?_eq (raw : List Char) :
    ofLine? raw =
      match tokens (content raw) with
      | [] => .ok none
      | first :: rest =>
        match content raw with
        | '.' :: _ => (ofLabel first rest).map some
        | '@' :: argument => (ofDirective (unsigned first) rest argument).map some
        | _ => .ok (some (.operation first rest)) := rfl

theorem unsigned_append {sign : String} {c : Char} (h : sign.toList = [c]) (name : String) :
    unsigned (sign ++ name) = name := by
  rw [unsigned, String.toList_append, h, List.singleton_append, List.drop_one, List.tail_cons,
    String.ofList_toList]

/-- A text that begins with a sign begins with a token that has it. -/
theorem exists_tokens_of_head? {sign : String} {c : Char} (h : sign.toList = [c])
    (hc : separates c = false) (ht : text.head? = some c) :
    ∃ (name : String) (rest : List String), tokens text = (sign ++ name) :: rest := by
  obtain ⟨tail, rfl⟩ := List.head?_eq_some_iff.1 ht
  obtain ⟨word, rest, hw⟩ := exists_tokens_cons hc tail
  refine ⟨String.ofList word, rest, ?_⟩
  rw [hw, List.cons.injEq, ← String.toList_inj]
  simp [h]

/-- The definition of a label is one token, of more than the dot. -/
theorem ofLabel_eq_ok_iff {name : String} :
    ofLabel ("." ++ name) rest = .ok s ↔ name ≠ "" ∧ rest = [] ∧ s = .label name := by
  rw [ofLabel.eq_def, unsigned_append rfl]
  simp only [String.isEmpty_iff]
  constructor
  · intro h
    split at h
    · cases h
    · next hn =>
      split at h
      · cases h
        exact ⟨hn, rfl, rfl⟩
      · cases h
  · rintro ⟨hn, rfl, rfl⟩
    rw [if_neg hn]

theorem ofMacro_eq_ok_iff :
    ofMacro keyword arguments = .ok s ↔
      (∃ name value, arguments = [name, value] ∧ name ≠ "begin" ∧ s = .valueMacro name value) ∨
      (∃ name, arguments = ["begin", name] ∧ s = .macroBegin name) ∨
      (arguments = ["end"] ∧ s = .macroEnd) ∨
      ∃ name, arguments = [name] ∧ name ≠ "begin" ∧ name ≠ "end" ∧ s = .macroUse name := by
  rcases arguments with _ | ⟨word, _ | ⟨argument, _ | ⟨extra, rest⟩⟩⟩
  · simp [ofMacro]
  · by_cases hend : word = "end"
    · simp [ofMacro, hend, eq_comm]
    · by_cases hbegin : word = "begin" <;> simp [ofMacro, hend, hbegin, eq_comm]
  · by_cases hbegin : word = "begin" <;> simp [ofMacro, hbegin, eq_comm]
  · simp [ofMacro]

theorem ofArgument_eq_ok_iff {make : String → Statement} :
    ofArgument keyword make arguments = .ok s ↔
      ∃ argument, arguments = [argument] ∧ s = make argument := by
  rcases arguments with _ | ⟨argument, _ | ⟨extra, rest⟩⟩ <;> simp [ofArgument, eq_comm]

section

variable {sign : String} {argument : List Char}
  (ht : tokens ('@' :: argument) = ("@" ++ sign) :: arguments)

include ht

theorem directive_iff {arguments' : List String} :
    Directive ('@' :: argument) keyword arguments' ↔
      arguments' = arguments ∧ sign.map Char.toLower = keyword := by
  constructor
  · rintro ⟨-, sign', ht', hk⟩
    rw [ht, List.cons.injEq, String.append_right_inj] at ht'
    exact ⟨ht'.2.symm, by rw [ht'.1, hk]⟩
  · rintro ⟨rfl, hk⟩
    exact ⟨rfl, sign, ht, hk⟩

/-- What is said with the keyword `macro` is a directive about macros. -/
theorem ofMacro_iff_says (hk : sign.map Char.toLower = "macro") :
    ofMacro sign arguments = .ok s ↔ Says ('@' :: argument) s := by
  rw [ofMacro_eq_ok_iff]
  constructor
  · rintro (⟨name, value, rfl, hn, rfl⟩ | ⟨name, rfl, rfl⟩ | ⟨rfl, rfl⟩ | ⟨name, rfl, hb, he, rfl⟩)
    · exact .valueMacro ((directive_iff ht).2 ⟨rfl, hk⟩) hn
    · exact .macroBegin ((directive_iff ht).2 ⟨rfl, hk⟩)
    · exact .macroEnd ((directive_iff ht).2 ⟨rfl, hk⟩)
    · exact .macroUse ((directive_iff ht).2 ⟨rfl, hk⟩) hb he
  · intro h
    cases h with
    | label hhead => cases hhead
    | operation _ hhead => exact absurd rfl hhead
    | valueMacro hd hn => exact .inl ⟨_, _, ((directive_iff ht).1 hd).1.symm, hn, rfl⟩
    | macroBegin hd => exact .inr (.inl ⟨_, ((directive_iff ht).1 hd).1.symm, rfl⟩)
    | macroEnd hd => exact .inr (.inr (.inl ⟨((directive_iff ht).1 hd).1.symm, rfl⟩))
    | macroUse hd hb he =>
      exact .inr (.inr (.inr ⟨_, ((directive_iff ht).1 hd).1.symm, hb, he, rfl⟩))
    | minRam hd | minReg hd => exact absurd (hk.symm.trans ((directive_iff ht).1 hd).2) (by decide)
    | pragma hd hn => exact absurd (((directive_iff ht).1 hd).2 ▸ hk ▸ List.mem_cons_self) hn

/-- What is said with the keyword `minram` asks for RAM. -/
theorem ofArgument_minRam_iff_says (hk : sign.map Char.toLower = "minram") :
    ofArgument sign .minRam arguments = .ok s ↔ Says ('@' :: argument) s := by
  rw [ofArgument_eq_ok_iff]
  constructor
  · rintro ⟨words, rfl, rfl⟩
    exact .minRam ((directive_iff ht).2 ⟨rfl, hk⟩)
  · intro h
    cases h with
    | label hhead => cases hhead
    | operation _ hhead => exact absurd rfl hhead
    | minRam hd => exact ⟨_, ((directive_iff ht).1 hd).1.symm, rfl⟩
    | valueMacro hd | macroBegin hd | macroEnd hd | macroUse hd | minReg hd =>
      exact absurd (hk.symm.trans ((directive_iff ht).1 hd).2) (by decide)
    | pragma hd hn =>
      rw [← ((directive_iff ht).1 hd).2, hk] at hn
      simp at hn

/-- What is said with the keyword `minreg` asks for registers. -/
theorem ofArgument_minReg_iff_says (hk : sign.map Char.toLower = "minreg") :
    ofArgument sign .minReg arguments = .ok s ↔ Says ('@' :: argument) s := by
  rw [ofArgument_eq_ok_iff]
  constructor
  · rintro ⟨index, rfl, rfl⟩
    exact .minReg ((directive_iff ht).2 ⟨rfl, hk⟩)
  · intro h
    cases h with
    | label hhead => cases hhead
    | operation _ hhead => exact absurd rfl hhead
    | minReg hd => exact ⟨_, ((directive_iff ht).1 hd).1.symm, rfl⟩
    | valueMacro hd | macroBegin hd | macroEnd hd | macroUse hd | minRam hd =>
      exact absurd (hk.symm.trans ((directive_iff ht).1 hd).2) (by decide)
    | pragma hd hn =>
      rw [← ((directive_iff ht).1 hd).2, hk] at hn
      simp at hn

/-- What is said with any other keyword is a pragma. -/
theorem pragma_iff_says (hk : sign.map Char.toLower ∉ ["macro", "minram", "minreg"]) :
    s = .pragma (String.ofList (Text.trim argument)) ↔ Says ('@' :: argument) s := by
  constructor
  · rintro rfl
    exact .pragma ((directive_iff ht).2 ⟨rfl, rfl⟩) hk
  · intro h
    cases h with
    | label hhead => cases hhead
    | operation _ hhead => exact absurd rfl hhead
    | pragma => rfl
    | valueMacro hd | macroBegin hd | macroEnd hd | macroUse hd | minRam hd | minReg hd =>
      rw [((directive_iff ht).1 hd).2] at hk
      simp at hk

/-- A directive is read as what its line says. -/
theorem ofDirective_eq_ok_iff :
    ofDirective sign arguments argument = .ok s ↔ Says ('@' :: argument) s := by
  rw [ofDirective.eq_def]
  dsimp only
  split
  · next hk => exact ofMacro_iff_says ht hk
  · next hkeyword =>
    split
    · next hk => exact ofArgument_minRam_iff_says ht hk
    · next hram =>
      split
      · next hk => exact ofArgument_minReg_iff_says ht hk
      · next hreg =>
        rw [← pragma_iff_says ht (by simp [hkeyword, hram, hreg]), Except.ok.injEq, eq_comm]

end

/-- What is said after a dot is a label. -/
theorem says_iff_of_dot (h : text.head? = some '.') :
    Says text s ↔ ∃ name, tokens text = ["." ++ name] ∧ name ≠ "" ∧ s = .label name := by
  constructor
  · intro hs
    cases hs with
    | label _ ht hn => exact ⟨_, ht, hn, rfl⟩
    | operation hd => exact absurd h hd
    | valueMacro hd | macroBegin hd | macroEnd hd | macroUse hd | minRam hd | minReg hd
    | pragma hd => exact absurd (h.symm.trans hd.1) (by decide)
  · rintro ⟨name, ht, hn, rfl⟩
    exact .label h ht hn

/-- What is said without a sign is an operation. -/
theorem says_iff_of_not_sign (hdot : text.head? ≠ some '.') (hat : text.head? ≠ some '@') :
    Says text s ↔ ∃ mnemonic operands, tokens text = mnemonic :: operands ∧
      s = .operation mnemonic operands := by
  constructor
  · intro hs
    cases hs with
    | label hd => exact absurd hd hdot
    | operation _ _ ht => exact ⟨_, _, ht, rfl⟩
    | valueMacro hd | macroBegin hd | macroEnd hd | macroUse hd | minRam hd | minReg hd
    | pragma hd => exact absurd hd.1 hat
  · rintro ⟨mnemonic, operands, ht, rfl⟩
    exact .operation hdot hat ht

/-- What a line says is the statement on it. -/
theorem ofLine?_eq_some_iff : ofLine? raw = .ok (some s) ↔ Says (content raw) s := by
  have hmap {x : Except LineError Statement} : x.map some = .ok (some s) ↔ x = .ok s := by
    cases x <;> simp [Except.map]
  rw [ofLine?_eq]
  generalize content raw = text
  by_cases hdot : text.head? = some '.'
  · obtain ⟨name, rest, ht⟩ := @exists_tokens_of_head? text "." '.' rfl rfl hdot
    obtain ⟨tail, rfl⟩ := List.head?_eq_some_iff.1 hdot
    rw [says_iff_of_dot hdot, ht]
    refine hmap.trans (ofLabel_eq_ok_iff.trans ?_)
    simp only [List.cons.injEq, String.append_right_inj]
    constructor
    · rintro ⟨hn, rfl, rfl⟩
      exact ⟨name, ⟨rfl, rfl⟩, hn, rfl⟩
    · rintro ⟨_, ⟨rfl, rfl⟩, hn, rfl⟩
      exact ⟨hn, rfl, rfl⟩
  · by_cases hat : text.head? = some '@'
    · obtain ⟨sign, arguments, ht⟩ := @exists_tokens_of_head? text "@" '@' rfl rfl hat
      obtain ⟨argument, rfl⟩ := List.head?_eq_some_iff.1 hat
      rw [ht]
      refine hmap.trans ?_
      rw [unsigned_append rfl, ofDirective_eq_ok_iff ht]
    · rw [says_iff_of_not_sign hdot hat]
      rcases ht : tokens text with _ | ⟨mnemonic, operands⟩
      · simp
      · dsimp only
        split
        · exact absurd rfl hdot
        · exact absurd rfl hat
        · simp [eq_comm]

/-- A line says nothing exactly if it holds nothing but separators and a comment. -/
theorem ofLine?_eq_none_iff : ofLine? raw = .ok none ↔ (uncommented raw).all separates = true := by
  have hmap {x : Except LineError Statement} : x.map some ≠ .ok none := by
    cases x <;> simp [Except.map]
  rw [← tokens_eq_nil_iff, ← tokens_trim (uncommented raw), ofLine?_eq, content]
  rcases tokens (Text.trim (uncommented raw)) with _ | ⟨first, rest⟩
  · simp
  · dsimp only
    split
    · simp [hmap]
    · simp [hmap]
    · simp

end Statement

namespace Source

/-! ## Texts -/

/-- The contents of the lines of a text, without those that hold nothing but separators. -/
def contents (raws : List String) : List (List Char) :=
  (raws.filter fun raw => !(Statement.uncommented raw.toList).all Statement.separates).map
    fun raw => Statement.content raw.toList

/-- The statements of a text are what its lines say. -/
theorem reads_iff {raws : List String} {ss : List Statement} :
    Reads raws ss ↔ List.Forall₂ Statement.Says (contents raws) ss := by
  constructor
  · intro h
    induction h with
    | nil => exact .nil
    | blank hraw _ ih =>
      rw [Statement.ofLine?_eq_none_iff] at hraw
      simpa [contents, hraw] using ih
    | @line raw raws s ss hraw _ ih =>
      have hblank : (Statement.uncommented raw.toList).all Statement.separates = false := by
        by_contra hb
        rw [Bool.not_eq_false, ← Statement.ofLine?_eq_none_iff, hraw] at hb
        cases hb
      rw [contents, List.filter_cons, hblank, Bool.not_false, if_pos rfl, List.map_cons]
      exact .cons (Statement.ofLine?_eq_some_iff.1 hraw) ih
  · intro h
    induction raws generalizing ss with
    | nil =>
      cases h
      exact .nil
    | cons raw raws ih =>
      rw [contents, List.filter_cons] at h
      split at h
      · next hb =>
        obtain ⟨s, ss, hs, hrest, rfl⟩ := List.forall₂_cons_left_iff.1 h
        exact .line (Statement.ofLine?_eq_some_iff.2 hs) (ih hrest)
      · next hb => exact .blank (Statement.ofLine?_eq_none_iff.2 (by simpa using hb)) (ih h)

end Source

end Wordcode
