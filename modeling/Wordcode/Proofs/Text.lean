import Mathlib.Data.List.DropRight
import Mathlib.Data.List.Infix
import Wordcode.Source.Statement
import Wordcode.Text.Numeral

/-!
# Text that is read and text that is written

How the characters of a line are taken apart, and when they are found again in what was
written: a text between separators is one word, text between line ends one line, and the
decimal digits of a number are a numeral for it.

* `Text.words_append_of_separates`: a separator divides the words on its two sides;
* `Text.words_trim`: blanks around a text do not matter for its words;
* `Text.lines_append_newline`: a newline ends a line;
* `Text.numeral?_toDigits`: a number is read from its decimal digits;
* `Statement.uncommented_eq_self_iff`: what has no comment is left as it is.
-/

namespace Wordcode

namespace Text

/-! ## Words -/

section Words

variable {separates : Char → Bool} {c : Char} {cs xs ys word : List Char}

theorem pieces_ne_nil (separates : Char → Bool) (cs : List Char) : pieces separates cs ≠ [] := by
  fun_induction pieces separates cs <;> simp

theorem pieces_append_of_separates (hc : separates c = true) (xs ys : List Char) :
    pieces separates (xs ++ c :: ys) = pieces separates xs ++ pieces separates ys := by
  induction xs with
  | nil => simp [pieces, hc]
  | cons x xs ih =>
    obtain ⟨piece, rest, hp⟩ := List.exists_cons_of_ne_nil (pieces_ne_nil separates xs)
    rw [List.cons_append, pieces, pieces, ih, hp]
    split <;> rfl

theorem pieces_of_forall_not (h : ∀ c ∈ cs, separates c = false) :
    pieces separates cs = [cs] := by
  induction cs with
  | nil => rfl
  | cons c cs ih =>
    rw [List.forall_mem_cons] at h
    simp [pieces, h.1, ih h.2]

@[simp] theorem words_nil (separates : Char → Bool) : words separates [] = [] := rfl

/-- A separator divides the words on its two sides. -/
theorem words_append_of_separates (hc : separates c = true) (xs ys : List Char) :
    words separates (xs ++ c :: ys) = words separates xs ++ words separates ys := by
  rw [words, pieces_append_of_separates hc, List.filter_append, words, words]

theorem words_cons_of_separates (hc : separates c = true) (cs : List Char) :
    words separates (c :: cs) = words separates cs :=
  words_append_of_separates hc [] cs

/-- What holds no separator is one word. -/
theorem words_of_forall_not (h : ∀ c ∈ cs, separates c = false) (hn : cs ≠ []) :
    words separates cs = [cs] := by
  simp [words, pieces_of_forall_not h, hn]

/-- A text that begins with no separator begins with a word. -/
theorem exists_words_cons (hc : separates c = false) (cs : List Char) :
    ∃ word rest, words separates (c :: cs) = (c :: word) :: rest := by
  obtain ⟨piece, rest, hp⟩ := List.exists_cons_of_ne_nil (pieces_ne_nil separates cs)
  refine ⟨piece, rest.filter (!·.isEmpty), ?_⟩
  simp [words, pieces, hc, hp]

/-- The first piece of a text is what stands before the first separator. -/
theorem prefix_of_pieces {piece : List Char} {rest : List (List Char)}
    (h : pieces separates cs = piece :: rest) :
    piece <+: cs ∧ ∀ c ∈ piece, separates c = false := by
  induction cs generalizing piece rest with
  | nil =>
    rw [pieces, List.cons.injEq] at h
    simp [← h.1]
  | cons x cs ih =>
    obtain ⟨piece', rest', hp⟩ := List.exists_cons_of_ne_nil (pieces_ne_nil separates cs)
    rw [pieces, hp] at h
    split at h
    · rw [List.cons.injEq] at h
      simp [← h.1]
    · next hx =>
      rw [List.cons.injEq] at h
      rw [← h.1, List.cons_prefix_cons, List.forall_mem_cons]
      exact ⟨⟨rfl, (ih hp).1⟩, by simpa using hx, (ih hp).2⟩

/-- The pieces of a text are parts of it without separators. -/
theorem mem_pieces (h : word ∈ pieces separates cs) :
    word <:+: cs ∧ ∀ c ∈ word, separates c = false := by
  obtain ⟨piece, rest, hp⟩ := List.exists_cons_of_ne_nil (pieces_ne_nil separates cs)
  have hfirst := prefix_of_pieces hp
  induction cs generalizing piece rest with
  | nil =>
    rw [hp, List.mem_cons] at h
    rcases h with rfl | h
    · exact ⟨hfirst.1.isInfix, hfirst.2⟩
    · rw [pieces, List.cons.injEq] at hp
      rw [← hp.2] at h
      exact absurd h List.not_mem_nil
  | cons x cs ih =>
    rw [hp, List.mem_cons] at h
    rcases h with rfl | h
    · exact ⟨hfirst.1.isInfix, hfirst.2⟩
    · -- all pieces but the first are pieces of what follows the first character
      obtain ⟨piece', rest', hp'⟩ := List.exists_cons_of_ne_nil (pieces_ne_nil separates cs)
      have hrest : word ∈ pieces separates cs := by
        rw [pieces, hp'] at hp
        split at hp <;> rw [List.cons.injEq] at hp
        · rw [hp', hp.2]
          exact h
        · rw [hp', hp.2]
          exact List.mem_cons_of_mem _ h
      obtain ⟨hpart, hword⟩ := ih hrest piece' rest' hp' (prefix_of_pieces hp')
      exact ⟨List.infix_cons hpart, hword⟩

/-- A word is a part of the text that is not empty and holds no separator. -/
theorem mem_words (h : word ∈ words separates cs) :
    word <:+: cs ∧ word ≠ [] ∧ ∀ c ∈ word, separates c = false := by
  rw [words, List.mem_filter] at h
  obtain ⟨hpart, hword⟩ := mem_pieces h.1
  exact ⟨hpart, by simpa using h.2, hword⟩

/-- There are no words exactly if there are only separators. -/
theorem words_eq_nil_iff : words separates cs = [] ↔ ∀ c ∈ cs, separates c = true := by
  induction cs with
  | nil => simp
  | cons c cs ih =>
    rw [List.forall_mem_cons]
    cases hc : separates c with
    | true => rw [words_cons_of_separates hc, ih, eq_self, true_and]
    | false =>
      obtain ⟨word, rest, hw⟩ := exists_words_cons hc cs
      simp [hw]

/-- Separators before a text do not matter for its words. -/
theorem words_dropWhile {blank : Char → Bool} (hb : ∀ c, blank c = true → separates c = true)
    (cs : List Char) : words separates (cs.dropWhile blank) = words separates cs := by
  induction cs with
  | nil => rfl
  | cons c cs ih =>
    rw [List.dropWhile_cons]
    split
    · next hc => rw [ih, words_cons_of_separates (hb c hc)]
    · rfl

theorem words_append_of_forall (h : ∀ c ∈ ys, separates c = true) :
    words separates (xs ++ ys) = words separates xs := by
  cases ys with
  | nil => rw [List.append_nil]
  | cons y ys =>
    rw [List.forall_mem_cons] at h
    rw [words_append_of_separates h.1, words_eq_nil_iff.2 h.2, List.append_nil]

/-- Blanks around a text do not matter for its words, if blanks are separators. -/
theorem words_trim (hb : ∀ c, isBlank c = true → separates c = true) (cs : List Char) :
    words separates (trim cs) = words separates cs := by
  have htrim : trim cs = (cs.dropWhile isBlank).rdropWhile isBlank := rfl
  rw [htrim, ← words_dropWhile hb cs]
  conv_rhs => rw [← List.rdropWhile_append_rtakeWhile (p := isBlank) (l := cs.dropWhile isBlank)]
  exact (words_append_of_forall fun c hc => hb c (List.mem_rtakeWhile_imp hc)).symm

end Words

/-! ## Parts of texts -/

/-- What lies in a text divided by another character lies on one of the two sides. -/
theorem infix_append_cons {c : Char} {sign xs ys : List Char} (hc : c ∉ sign)
    (h : sign <:+: xs ++ c :: ys) :
    sign <:+: xs ∨ sign <:+: ys := by
  obtain ⟨before, after, h⟩ := h
  rcases List.append_eq_append_iff.1 h with ⟨mid, rfl, -⟩ | ⟨mid, hmid, hrest⟩
  · exact .inl ⟨before, mid, rfl⟩
  rcases mid with _ | ⟨first, mid⟩
  · exact .inl ⟨before, [], by simpa using hmid⟩
  rw [List.cons_append, List.cons.injEq] at hrest
  obtain ⟨rfl, rfl⟩ := hrest
  rcases List.append_eq_append_iff.1 hmid with ⟨gap, rfl, hgap⟩ | ⟨gap, rfl, hgap⟩
  · exact absurd (hgap ▸ by simp) hc
  · rcases gap with _ | ⟨first, gap⟩
    · rw [List.nil_append] at hgap
      exact absurd (hgap ▸ List.mem_cons_self) hc
    · rw [List.cons_append, List.cons.injEq] at hgap
      exact .inr ⟨gap, after, by rw [hgap.2]⟩

/-! ## Blanks at the ends -/

section Trim

variable {c : Char} {cs : List Char}

theorem trim_infix (cs : List Char) : trim cs <:+: cs :=
  (List.rdropWhile_prefix isBlank (cs.dropWhile isBlank)).isInfix.trans
    (List.dropWhile_suffix isBlank).isInfix

/-- A text with no blank at its ends is left as it is. -/
theorem trim_eq_self (hfirst : ∀ c ∈ cs.head?, isBlank c = false)
    (hlast : ∀ c ∈ cs.getLast?, isBlank c = false) : trim cs = cs := by
  have hdrop : cs.dropWhile isBlank = cs := by
    rw [List.dropWhile_eq_self_iff]
    intro hl
    simpa using hfirst (cs.get ⟨0, hl⟩) (by simp [List.head?_eq_getElem?])
  have htrim : trim cs = (cs.dropWhile isBlank).rdropWhile isBlank := rfl
  rw [htrim, hdrop, List.rdropWhile_eq_self_iff]
  intro hn
  simpa using hlast (cs.getLast hn) (List.getLast?_eq_some_getLast hn)

/-- There is no blank at the ends of what was trimmed. -/
theorem isBlank_ends_of_trim (cs : List Char) :
    (∀ c ∈ (trim cs).head?, isBlank c = false) ∧ ∀ c ∈ (trim cs).getLast?, isBlank c = false := by
  have htrim : trim cs = (cs.dropWhile isBlank).rdropWhile isBlank := rfl
  rw [htrim]
  constructor
  · intro c hc
    have hprefix := List.rdropWhile_prefix isBlank (cs.dropWhile isBlank)
    obtain ⟨rest, hrest⟩ := List.head?_eq_some_iff.1 hc
    rw [hrest] at hprefix
    obtain ⟨tail, htail⟩ := hprefix
    have := List.head?_dropWhile_not isBlank cs
    rw [← htail] at this
    simpa using this
  · intro c hc
    obtain ⟨front, hfront⟩ := List.getLast?_eq_some_iff.1 hc
    have hn : (cs.dropWhile isBlank).rdropWhile isBlank ≠ [] := by simp [hfront]
    have := List.rdropWhile_last_not isBlank (cs.dropWhile isBlank) hn
    rw [List.getLast?_eq_some_getLast hn] at hc
    rw [← Option.some.inj hc]
    simpa using this

end Trim

/-! ## Lines -/

/-- A newline ends a line. A carriage return before it would belong to the line end. -/
theorem lines_append_newline {line : List Char} (hn : '\n' ∉ line)
    (hr : line.getLast? ≠ some '\r') (rest : List Char) :
    lines (line ++ '\n' :: rest) = line :: lines rest := by
  induction line with
  | nil => simp [lines]
  | cons c cs ih =>
    rw [List.mem_cons, not_or] at hn
    have hlast : cs.getLast? ≠ some '\r' := by
      intro hcs
      exact hr (by simp [List.getLast?_cons, hcs])
    -- were this a carriage return before the newline, the line would end in it
    rw [List.cons_append, lines, if_neg (Ne.symm hn.1), ih hn.2 hlast]
    rintro tail rfl hcs
    cases cs with
    | nil => exact hr rfl
    | cons x cs =>
      rw [List.cons_append, List.cons.injEq] at hcs
      exact hn.2 (hcs.1 ▸ List.mem_cons_self)

/-! ## Numerals -/

theorem digit?_digitChar {d : Nat} (h : d < 10) : digit? d.digitChar = some d := by
  revert d
  decide

theorem addDigit?_digitChar {d : Nat} (value : Nat) (h : d < 10) :
    addDigit? 10 value d.digitChar = some (value * 10 + d) := by
  simp [addDigit?, digit?_digitChar h, h]

theorem foldlM_addDigit?_toDigits (n : Nat) :
    (Nat.toDigits 10 n).foldlM (addDigit? 10) 0 = some n := by
  induction n using Nat.strongRecOn with
  | ind n ih =>
    by_cases hn : n < 10
    · simp [Nat.toDigits_of_lt_base hn, addDigit?_digitChar 0 hn]
    · have hmod : n % 10 < 10 := Nat.mod_lt n (by decide)
      have hsum : n / 10 * 10 + n % 10 = n := by omega
      rw [Nat.toDigits_of_base_le (by decide) (by omega), List.foldlM_append,
        ih (n / 10) (by omega)]
      simp [addDigit?_digitChar _ hmod, hsum]

/-- A number is read from its decimal digits. -/
theorem numeral?_toDigits {n : Nat} (h : n < Word.limit) :
    numeral? 10 (Nat.toDigits 10 n) = some n := by
  simp [numeral?, digits?, Nat.toDigits_ne_nil, foldlM_addDigit?_toDigits, h]

theorem isDigit_of_mem_toDigits {n : Nat} {c : Char} (h : c ∈ Nat.toDigits 10 n) :
    c.isDigit = true :=
  Nat.isDigit_of_mem_toDigits (by decide) (by decide) h

/-- Digits without a sign of their base are decimal. -/
theorem literal?_of_forall_isDigit {cs : List Char} (h : ∀ c ∈ cs, c.isDigit = true) :
    literal? cs = numeral? 10 cs := by
  rw [literal?.eq_def]
  split
  · next c cs =>
    have hc : c.isDigit = true := h c (by simp)
    rw [if_neg, if_neg]
    · rintro (rfl | rfl) <;> simp at hc
    · rintro (rfl | rfl) <;> simp at hc
  · rfl

theorem literal?_toDigits {n : Nat} (h : n < Word.limit) :
    literal? (Nat.toDigits 10 n) = some n := by
  rw [literal?_of_forall_isDigit fun _ => isDigit_of_mem_toDigits, numeral?_toDigits h]

theorem numeral?_lt {base n : Nat} {cs : List Char} (h : numeral? base cs = some n) :
    n < Word.limit := by
  rw [numeral?, Option.filter_eq_some_iff] at h
  simpa using h.2

/-- What a literal stands for fits the widest word. -/
theorem literal?_lt {n : Nat} {cs : List Char} (h : literal? cs = some n) : n < Word.limit := by
  rw [literal?.eq_def] at h
  split at h
  · split at h
    · exact numeral?_lt h
    · split at h <;> exact numeral?_lt h
  · exact numeral?_lt h

end Text

namespace Statement

/-! ## Comments -/

/-- The two characters that begin a comment. -/
def commentSign : List Char := ['/', '/']

theorem uncommented_prefix (cs : List Char) : uncommented cs <+: cs := by
  fun_induction uncommented cs with
  | case1 cs => exact List.nil_prefix
  | case2 c cs _ ih => exact List.cons_prefix_cons.2 ⟨rfl, ih⟩
  | case3 => exact List.nil_prefix

theorem commentSign_infix_cons_iff {c : Char} {cs : List Char}
    (h : ∀ rest, c = '/' → cs = '/' :: rest → False) :
    commentSign <:+: c :: cs ↔ commentSign <:+: cs := by
  rw [List.infix_cons_iff, or_iff_right]
  rintro ⟨rest, hrest⟩
  rw [commentSign, List.cons_append, List.cons_append, List.cons.injEq] at hrest
  exact h rest hrest.1.symm hrest.2.symm

/-- What has no comment is left as it is. -/
theorem uncommented_eq_self_iff {cs : List Char} :
    uncommented cs = cs ↔ ¬commentSign <:+: cs := by
  fun_induction uncommented cs with
  | case1 cs =>
    have : commentSign <:+: '/' :: '/' :: cs := ⟨[], cs, rfl⟩
    simp [this]
  | case2 c cs hc ih => rw [List.cons.injEq, eq_self, true_and, ih, commentSign_infix_cons_iff hc]
  | case3 => simp [commentSign]

theorem commentSign_not_infix_uncommented (cs : List Char) :
    ¬commentSign <:+: uncommented cs := by
  fun_induction uncommented cs with
  | case1 cs => simp [commentSign]
  | case2 c cs hc ih =>
    rwa [commentSign_infix_cons_iff]
    -- what is left of the rest begins as the rest does
    rintro rest rfl hrest
    obtain ⟨tail, htail⟩ := uncommented_prefix cs
    rw [hrest, List.cons_append] at htail
    exact hc _ rfl htail.symm
  | case3 => simp [commentSign]

/-! ## The content of a line -/

/-- The part of a line that counts: what stands before a comment, without the blanks around. -/
def content (raw : List Char) : List Char := Text.trim (uncommented raw)

theorem separates_of_isBlank {c : Char} (h : Text.isBlank c = true) : separates c = true := by
  simp [separates, h]

theorem commentSign_not_infix_content (raw : List Char) : ¬commentSign <:+: content raw :=
  fun h => commentSign_not_infix_uncommented raw (h.trans (Text.trim_infix _))

/-- A text without comment and without blanks at its ends is its own content. -/
theorem content_eq_self {text : List Char} (hc : ¬commentSign <:+: text)
    (hfirst : ∀ c ∈ text.head?, Text.isBlank c = false)
    (hlast : ∀ c ∈ text.getLast?, Text.isBlank c = false) : content text = text := by
  rw [content, uncommented_eq_self_iff.2 hc, Text.trim_eq_self hfirst hlast]

theorem tokens_trim (text : List Char) : tokens (Text.trim text) = tokens text := by
  rw [tokens, Text.words_trim fun _ => separates_of_isBlank, tokens]

theorem tokens_eq_nil_iff {text : List Char} : tokens text = [] ↔ text.all separates = true := by
  rw [tokens, List.map_eq_nil_iff, Text.words_eq_nil_iff, List.all_eq_true]

theorem separates_of_isDigit {c : Char} (h : c.isDigit = true) : separates c = false := by
  rw [Char.isDigit, Bool.and_eq_true, decide_eq_true_eq, decide_eq_true_eq] at h
  have hlow : 48 ≤ c.toNat := h.1
  have hhigh : c.toNat ≤ 57 := h.2
  have hcomma : c ≠ ',' := by
    rintro rfl
    exact absurd hlow (by decide)
  simp [separates, hcomma, Text.isBlank]
  omega

theorem isDigit_of_mem_repr {n : Nat} {c : Char} (h : c ∈ n.repr.toList) : c.isDigit = true := by
  rw [Nat.toList_repr] at h
  exact Text.isDigit_of_mem_toDigits h

/-- A text that begins with no separator begins with a token. -/
theorem exists_tokens_cons {c : Char} (hc : separates c = false) (text : List Char) :
    ∃ word rest, tokens (c :: text) = String.ofList (c :: word) :: rest := by
  obtain ⟨word, rest, hw⟩ := Text.exists_words_cons hc text
  exact ⟨word, rest.map String.ofList, by rw [tokens, hw, List.map_cons]⟩

end Statement
end Wordcode
