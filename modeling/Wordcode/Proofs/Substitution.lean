import Wordcode.Proofs.Grammar

/-!
# Words replaced in place

A line in which each word but the first is replaced by another, while the separators between
them and the comment after them stay. Since a comment may begin anywhere, also in the middle of a
word, what is put in place of a word must not make a comment out of it.

* `Text.mapWords`: a text with other words between the same separators;
* `Statement.replaceArguments`: a line with other arguments;
* `Statement.says_replaceArguments`: what it says.
-/

namespace Wordcode

namespace Text

variable {separates : Char → Bool} {f : List Char → List Char} {c : Char}
  {cs xs ys word : List Char}

/-- Something in place of a word, and nothing in place of no word. -/
def inPlace (f : List Char → List Char) (word : List Char) : List Char :=
  if word.isEmpty then [] else f word

/-- The rest of a text with its words replaced, where `word` is what was read of a word. -/
def mapWordsFrom (separates : Char → Bool) (f : List Char → List Char) (word : List Char) :
    List Char → List Char
  | [] => inPlace f word
  | c :: cs =>
    if separates c then inPlace f word ++ c :: mapWordsFrom separates f [] cs
    else mapWordsFrom separates f (word ++ [c]) cs

/-- A text with its words replaced. -/
def mapWords (separates : Char → Bool) (f : List Char → List Char) (cs : List Char) : List Char :=
  mapWordsFrom separates f [] cs

/-- A text is a word, or a word, a separator and a text. -/
@[elab_as_elim] theorem word_induction (separates : Char → Bool) {motive : List Char → Prop}
    (word : ∀ word, (∀ c ∈ word, separates c = false) → motive word)
    (separator : ∀ word c cs, (∀ c ∈ word, separates c = false) → separates c = true →
      motive cs → motive (word ++ c :: cs)) (cs : List Char) : motive cs := by
  suffices h : ∀ front, (∀ c ∈ front, separates c = false) → motive (front ++ cs) from
    h [] fun _ hc => absurd hc List.not_mem_nil
  induction cs with
  | nil =>
    intro front hw
    rw [List.append_nil]
    exact word front hw
  | cons c cs ih =>
    intro front hw
    cases hc : separates c with
    | true => exact separator front c cs hw hc (ih [] fun _ h => absurd h List.not_mem_nil)
    | false =>
      rw [List.append_cons]
      refine ih (front ++ [c]) ?_
      simpa [or_imp, forall_and, hc] using hw

theorem mapWordsFrom_append (hw : ∀ c ∈ xs, separates c = false) (word cs : List Char) :
    mapWordsFrom separates f word (xs ++ cs) = mapWordsFrom separates f (word ++ xs) cs := by
  induction xs generalizing word with
  | nil => simp
  | cons x xs ih =>
    rw [List.forall_mem_cons] at hw
    rw [List.cons_append, mapWordsFrom, hw.1, if_neg (by decide), ih hw.2, List.append_assoc]
    rfl

theorem mapWords_of_forall_not (hw : ∀ c ∈ word, separates c = false) :
    mapWords separates f word = inPlace f word := by
  have := @mapWordsFrom_append separates f word hw [] []
  rwa [List.append_nil, List.nil_append, mapWordsFrom] at this

theorem mapWords_append (hw : ∀ c ∈ word, separates c = false) (hc : separates c = true)
    (cs : List Char) :
    mapWords separates f (word ++ c :: cs) = inPlace f word ++ c :: mapWords separates f cs := by
  rw [mapWords, mapWordsFrom_append hw, List.nil_append, mapWordsFrom, if_pos hc, mapWords]

theorem mapWords_cons (hc : separates c = true) (cs : List Char) :
    mapWords separates f (c :: cs) = c :: mapWords separates f cs :=
  mapWords_append (fun _ h => absurd h List.not_mem_nil) hc cs

/-- The words of a text with its words replaced. -/
theorem words_mapWords
    (hf : ∀ word ≠ [], (∀ c ∈ word, separates c = false) →
      f word ≠ [] ∧ ∀ c ∈ f word, separates c = false) (cs : List Char) :
    words separates (mapWords separates f cs) = (words separates cs).map f := by
  have hword {word : List Char} (hw : ∀ c ∈ word, separates c = false) :
      words separates (inPlace f word) = (words separates word).map f := by
    by_cases hn : word = []
    · simp [hn, inPlace]
    · rw [words_of_forall_not hw hn, inPlace, if_neg (by simpa using hn)]
      exact words_of_forall_not (hf word hn hw).2 (hf word hn hw).1
  induction cs using word_induction separates with
  | word word hw => rw [mapWords_of_forall_not hw, hword hw]
  | separator word c cs hw hc ih =>
    rw [mapWords_append hw hc, words_append_of_separates hc, words_append_of_separates hc, ih,
      hword hw, List.map_append]

theorem ne_slash_of_separates (hslash : separates '/' = false) (hc : separates c = true) :
    c ≠ '/' := by
  rintro rfl
  exact absurd (hc.symm.trans hslash) (by decide)

section Comment

open Statement

variable (hslash : separates '/' = false) (hf : ∀ word, f word = word ∨ '/' ∉ f word)
include hslash hf

/-- No comment begins in a text with its words replaced that did not begin in it. -/
theorem commentSign_infix_of_mapWords (h : commentSign <:+: mapWords separates f cs) :
    commentSign <:+: cs := by
  have hword {word : List Char} (h : commentSign <:+: inPlace f word) : commentSign <:+: word := by
    rw [inPlace] at h
    split at h
    · simp [commentSign] at h
    · rcases hf word with he | hn
      · rwa [he] at h
      · exact absurd (h.subset (by simp [commentSign])) hn
  induction cs using word_induction separates with
  | word word hw =>
    rw [mapWords_of_forall_not hw] at h
    exact hword h
  | separator word c cs hw hc ih =>
    rw [mapWords_append hw hc] at h
    have hne : c ∉ commentSign := by
      simpa [commentSign] using ne_slash_of_separates hslash hc
    rcases infix_append_cons hne h with h | h
    · exact (hword h).trans (List.prefix_append _ _).isInfix
    · exact (ih h).trans ⟨word ++ [c], [], by simp⟩

/-- No replacement of words puts a slash at the end of a text. -/
theorem getLast?_of_mapWords (h : (mapWords separates f cs).getLast? = some '/') :
    cs.getLast? = some '/' := by
  induction cs using word_induction separates with
  | word word hw =>
    rw [mapWords_of_forall_not hw, inPlace] at h
    split at h
    · cases h
    · rcases hf word with he | hn
      · rwa [he] at h
      · exact absurd (List.mem_of_getLast? h) hn
  | separator word c cs hw hc ih =>
    rw [mapWords_append hw hc, List.getLast?_append, List.getLast?_cons] at h
    rw [List.getLast?_append, List.getLast?_cons]
    cases hlast : (mapWords separates f cs).getLast? with
    | none =>
      simp only [hlast, Option.getD_none, Option.some_or, Option.some.injEq] at h
      exact absurd h (ne_slash_of_separates hslash hc)
    | some last =>
      simp only [hlast, Option.getD_some, Option.some_or, Option.some.injEq] at h
      rw [ih (h ▸ hlast)]
      rfl

end Comment

/-! ## All words but the first -/

/-- The separators before the first word of a text, and that word. -/
def firstWord (separates : Char → Bool) (cs : List Char) : List Char :=
  cs.takeWhile separates ++ (cs.dropWhile separates).takeWhile (!separates ·)

/-- What comes after the first word of a text. -/
def afterFirst (separates : Char → Bool) (cs : List Char) : List Char :=
  (cs.dropWhile separates).dropWhile (!separates ·)

/-- A text with its words replaced, except for the first. -/
def mapArguments (separates : Char → Bool) (f : List Char → List Char) (cs : List Char) :
    List Char :=
  firstWord separates cs ++ mapWords separates f (afterFirst separates cs)

theorem firstWord_append_afterFirst (separates : Char → Bool) (cs : List Char) :
    firstWord separates cs ++ afterFirst separates cs = cs := by
  rw [firstWord, afterFirst, List.append_assoc, List.takeWhile_append_dropWhile,
    List.takeWhile_append_dropWhile]

theorem afterFirst_cases (separates : Char → Bool) (cs : List Char) :
    afterFirst separates cs = [] ∨
      ∃ c rest, separates c = true ∧ afterFirst separates cs = c :: rest := by
  rcases h : afterFirst separates cs with _ | ⟨c, rest⟩
  · exact .inl rfl
  · have hc := List.head?_dropWhile_not (!separates ·) (cs.dropWhile separates)
    rw [afterFirst] at h
    rw [h] at hc
    exact .inr ⟨c, rest, by simpa using hc, rfl⟩

theorem words_append_left (h : ∀ c ∈ xs, separates c = true) :
    words separates (xs ++ ys) = words separates ys := by
  induction xs with
  | nil => rfl
  | cons x xs ih =>
    rw [List.forall_mem_cons] at h
    rw [List.cons_append, words_cons_of_separates h.1, ih h.2]

/-- The first word of a text, and the words after it. -/
theorem words_firstWord {first : List Char} {rest : List (List Char)}
    (h : words separates cs = first :: rest) :
    words separates (firstWord separates cs) = [first] ∧
      words separates (afterFirst separates cs) = rest := by
  have hsplit : words separates cs =
      words separates (firstWord separates cs) ++ words separates (afterFirst separates cs) := by
    conv_lhs => rw [← firstWord_append_afterFirst separates cs]
    rcases afterFirst_cases separates cs with hnil | ⟨c, tail, hc, htail⟩
    · simp [hnil]
    · rw [htail, words_append_of_separates hc, words_cons_of_separates hc]
  have hfirst : words separates (firstWord separates cs) =
      words separates ((cs.dropWhile separates).takeWhile (!separates ·)) :=
    words_append_left fun c hc => List.mem_takeWhile_imp hc
  have hword : ∀ c ∈ (cs.dropWhile separates).takeWhile (!separates ·), separates c = false :=
    fun c hc => by simpa using List.mem_takeWhile_imp hc
  by_cases hn : (cs.dropWhile separates).takeWhile (!separates ·) = []
  · -- then the text has separators only
    have hdrop : afterFirst separates cs = cs.dropWhile separates := by
      rw [afterFirst]
      conv_rhs => rw [← List.takeWhile_append_dropWhile (p := (!separates ·))
        (l := cs.dropWhile separates), hn, List.nil_append]
    rw [hfirst, hn, words_nil, List.nil_append, hdrop] at hsplit
    have hhead := List.head?_dropWhile_not separates cs
    rcases afterFirst_cases separates cs with hnil | ⟨c, tail, hc, htail⟩
    · rw [hdrop] at hnil
      rw [hsplit, hnil] at h
      cases h
    · rw [hdrop] at htail
      simp [htail, hc] at hhead
  · rw [words_of_forall_not hword hn] at hfirst
    rw [h, hfirst, List.singleton_append, List.cons.injEq] at hsplit
    rw [hfirst, ← hsplit.1, ← hsplit.2]
    exact ⟨rfl, rfl⟩

theorem mapWords_afterFirst_cases (separates : Char → Bool) (f : List Char → List Char)
    (cs : List Char) :
    mapWords separates f (afterFirst separates cs) = [] ∨
      ∃ c rest, separates c = true ∧
        mapWords separates f (afterFirst separates cs) = c :: rest := by
  rcases afterFirst_cases separates cs with h | ⟨c, rest, hc, h⟩
  · rw [h]
    exact .inl rfl
  · rw [h]
    exact .inr ⟨c, _, hc, mapWords_cons hc rest⟩

/-- All words but the first are replaced. -/
theorem words_mapArguments
    (hf : ∀ word ≠ [], (∀ c ∈ word, separates c = false) →
      f word ≠ [] ∧ ∀ c ∈ f word, separates c = false)
    {first : List Char} {rest : List (List Char)} (h : words separates cs = first :: rest) :
    words separates (mapArguments separates f cs) = first :: rest.map f := by
  obtain ⟨hfirst, hrest⟩ := words_firstWord h
  have hwords := words_mapWords hf (afterFirst separates cs)
  rw [hrest] at hwords
  rw [mapArguments]
  rcases mapWords_afterFirst_cases separates f cs with hnil | ⟨c, tail, hc, htail⟩
  · rw [hnil, words_nil] at hwords
    rw [hnil, List.append_nil, hfirst, ← hwords]
  · rw [htail, words_cons_of_separates hc] at hwords
    rw [htail, words_append_of_separates hc, hfirst, hwords]
    rfl

section Comment

open Statement

variable (hslash : separates '/' = false) (hf : ∀ word, f word = word ∨ '/' ∉ f word)
include hslash hf

/-- No replacement of arguments makes a comment. -/
theorem commentSign_infix_of_mapArguments (h : commentSign <:+: mapArguments separates f cs) :
    commentSign <:+: cs := by
  rw [← firstWord_append_afterFirst separates cs]
  rw [mapArguments] at h
  have hleft : commentSign <:+: firstWord separates cs → commentSign <:+:
      firstWord separates cs ++ afterFirst separates cs :=
    fun h => h.trans (List.prefix_append _ _).isInfix
  rcases mapWords_afterFirst_cases separates f cs with hnil | ⟨c, tail, hc, htail⟩
  · rw [hnil, List.append_nil] at h
    exact hleft h
  · have hne : c ∉ commentSign := by simpa [commentSign] using ne_slash_of_separates hslash hc
    rw [htail] at h
    rcases infix_append_cons hne h with h | h
    · exact hleft h
    · refine (commentSign_infix_of_mapWords hslash hf ?_).trans (List.suffix_append _ _).isInfix
      rw [htail]
      exact List.infix_cons h

theorem getLast?_of_mapArguments (h : (mapArguments separates f cs).getLast? = some '/') :
    cs.getLast? = some '/' := by
  rw [← firstWord_append_afterFirst separates cs]
  rw [mapArguments] at h
  rcases afterFirst_cases separates cs with hnil | ⟨c, tail, hc, htail⟩
  · rw [hnil] at h ⊢
    exact h
  · have hn : mapWords separates f (c :: tail) ≠ [] := by
      rw [mapWords_cons hc]
      exact List.cons_ne_nil _ _
    rw [htail, List.getLast?_append_of_ne_nil _ hn] at h
    rw [htail, List.getLast?_append_of_ne_nil _ (List.cons_ne_nil c tail)]
    exact getLast?_of_mapWords hslash hf h

end Comment

theorem head?_trim (cs : List Char) : (trim cs).head? = (cs.dropWhile isBlank).head? := by
  have htrim : trim cs = (cs.dropWhile isBlank).rdropWhile isBlank := rfl
  rw [htrim]
  rcases h : cs.dropWhile isBlank with _ | ⟨c, rest⟩
  · rfl
  · have hc := List.head?_dropWhile_not isBlank cs
    rw [h] at hc
    obtain ⟨tail, htail⟩ := List.rdropWhile_prefix isBlank (c :: rest)
    rcases hdrop : (c :: rest).rdropWhile isBlank with _ | ⟨d, front⟩
    · have := List.rdropWhile_eq_nil_iff.1 hdrop c List.mem_cons_self
      simp [this] at hc
    · rw [hdrop, List.cons_append, List.cons.injEq] at htail
      rw [List.head?_cons, List.head?_cons, htail.1]

end Text

namespace Statement

/-! ## Lines -/

variable {raw text : String}

/-- What is cut off a line is a comment, which begins as early as it can. -/
theorem exists_uncommented_append (cs : List Char) :
    ∃ comment, cs = uncommented cs ++ comment ∧
      (comment = [] ∨ commentSign <+: comment ∧ (uncommented cs).getLast? ≠ some '/') := by
  fun_induction uncommented cs with
  | case1 cs => exact ⟨'/' :: '/' :: cs, rfl, .inr ⟨⟨cs, rfl⟩, by simp⟩⟩
  | case2 c cs hc ih =>
    obtain ⟨comment, hcs, hcomment⟩ := ih
    refine ⟨comment, by rw [List.cons_append, ← hcs], hcomment.imp_right ?_⟩
    rintro ⟨hsign, hlast⟩
    refine ⟨hsign, ?_⟩
    rw [List.getLast?_cons]
    cases hu : (uncommented cs).getLast? with
    | some last => simpa [hu] using hlast
    | none =>
      rw [List.getLast?_eq_none_iff.1 hu, List.nil_append] at hcs
      obtain ⟨rest, hrest⟩ := hsign
      intro he
      exact hc _ (by simpa using he) (hcs.trans hrest.symm)
  | case3 => exact ⟨[], rfl, .inl rfl⟩

/-- A comment after a text without one is cut off. -/
theorem uncommented_append {cs comment : List Char} (hcs : ¬commentSign <:+: cs)
    (hcomment : comment = [] ∨ commentSign <+: comment ∧ cs.getLast? ≠ some '/') :
    uncommented (cs ++ comment) = cs := by
  rcases hcomment with rfl | ⟨⟨rest, rfl⟩, hlast⟩
  · rw [List.append_nil, uncommented_eq_self_iff.2 hcs]
  · induction cs with
    | nil => rfl
    | cons c cs ih =>
      have hrest : ∀ tail, c = '/' → cs = '/' :: tail → False := by
        rintro tail rfl rfl
        exact hcs ⟨[], tail, rfl⟩
      rw [commentSign_infix_cons_iff hrest] at hcs
      have hlast' : cs.getLast? ≠ some '/' := fun h => hlast (by simp [List.getLast?_cons, h])
      rw [List.cons_append, uncommented, ih hcs hlast']
      intro tail hc htail
      rcases cs with _ | ⟨d, cs⟩
      · exact hlast (by simp [hc])
      · rw [List.cons_append, List.cons.injEq] at htail
        exact hrest cs hc (by rw [htail.1])

/-- A line with its arguments replaced, that is all words but the first. What separates them
    stays, and so does the comment. -/
def replaceArguments (f : String → String) (raw : String) : String :=
  let text := uncommented raw.toList
  String.ofList
    (Text.mapArguments separates (fun word => (f (String.ofList word)).toList) text ++
      raw.toList.drop text.length)

section

variable {f : String → String} (hf : ∀ token, f token = token ∨ ∃ n : Nat, f token = n.repr)
include hf

theorem replaced_eq_or_slash_not_mem (word : List Char) :
    (f (String.ofList word)).toList = word ∨ '/' ∉ (f (String.ofList word)).toList := by
  rcases hf (String.ofList word) with he | ⟨n, he⟩
  · exact .inl (by rw [he, String.toList_ofList])
  · refine .inr fun h => ?_
    rw [he] at h
    exact absurd (isDigit_of_mem_repr h) (by decide)

theorem replaced_is_word {word : List Char} (hn : word ≠ [])
    (hw : ∀ c ∈ word, separates c = false) :
    (f (String.ofList word)).toList ≠ [] ∧
      ∀ c ∈ (f (String.ofList word)).toList, separates c = false := by
  rcases hf (String.ofList word) with he | ⟨n, he⟩
  · rw [he, String.toList_ofList]
    exact ⟨hn, hw⟩
  · rw [he]
    exact ⟨by rw [Nat.toList_repr]; exact Nat.toDigits_ne_nil, fun c hc =>
      separates_of_isDigit (isDigit_of_mem_repr hc)⟩

/-- The comment of a line stays the same when its arguments are replaced. -/
theorem uncommented_replaceArguments (raw : String) :
    uncommented (replaceArguments f raw).toList =
      Text.mapArguments separates (fun word => (f (String.ofList word)).toList)
        (uncommented raw.toList) := by
  have hslash : separates '/' = false := by decide
  have hword := replaced_eq_or_slash_not_mem hf
  obtain ⟨comment, hraw, hcomment⟩ := exists_uncommented_append raw.toList
  have hdrop := congrArg (List.drop (uncommented raw.toList).length) hraw
  rw [List.drop_left] at hdrop
  rw [replaceArguments, String.toList_ofList, hdrop]
  refine uncommented_append (fun h => ?_) (hcomment.imp_right fun ⟨hsign, hlast⟩ => ⟨hsign, ?_⟩)
  · exact commentSign_not_infix_uncommented _
      (Text.commentSign_infix_of_mapArguments hslash hword h)
  · exact fun h => hlast (Text.getLast?_of_mapArguments hslash hword h)

/-- The tokens of a line with its arguments replaced. -/
theorem tokens_replaceArguments {first : String} {rest : List String}
    (h : tokens (content raw.toList) = first :: rest) :
    tokens (content (replaceArguments f raw).toList) = first :: rest.map f := by
  rw [content, tokens_trim] at h
  rw [content, tokens_trim, uncommented_replaceArguments hf, tokens]
  rw [tokens, List.map_eq_cons_iff] at h
  obtain ⟨word, words, hwords, rfl, rfl⟩ := h
  rw [Text.words_mapArguments (fun _ => replaced_is_word hf) hwords]
  simp [Function.comp_def]

/-- A line with its arguments replaced begins as the line does. -/
theorem head?_content_replaceArguments {first : String} {rest : List String}
    (h : tokens (content raw.toList) = first :: rest) :
    (content (replaceArguments f raw).toList).head? = (content raw.toList).head? := by
  rw [content, tokens_trim, tokens, List.map_eq_cons_iff] at h
  obtain ⟨word, words, hwords, -, -⟩ := h
  obtain ⟨hfirst, -⟩ := Text.words_firstWord hwords
  -- the first word is no blank
  have hn : (Text.firstWord separates (uncommented raw.toList)).dropWhile Text.isBlank ≠ [] := by
    intro hnil
    rw [← Text.words_dropWhile fun _ => separates_of_isBlank, hnil] at hfirst
    cases hfirst
  rw [content, Text.head?_trim, uncommented_replaceArguments hf, content, Text.head?_trim,
    Text.mapArguments]
  conv_rhs => rw [← Text.firstWord_append_afterFirst separates (uncommented raw.toList)]
  simp only [List.dropWhile_append, List.isEmpty_iff, hn, if_false]
  rw [List.head?_append_of_ne_nil _ hn, List.head?_append_of_ne_nil _ hn]

end

/-! ## What such lines say -/

section

variable {f : String → String} (hf : ∀ token, f token = token ∨ ∃ n : Nat, f token = n.repr)
include hf

theorem says_replaceArguments_operation {mnemonic : String} {operands : List String}
    (h : Says (content raw.toList) (.operation mnemonic operands)) :
    Says (content (replaceArguments f raw).toList) (.operation mnemonic (operands.map f)) := by
  cases h with
  | operation hdot hat ht =>
    rw [← head?_content_replaceArguments hf ht] at hdot hat
    exact .operation hdot hat (tokens_replaceArguments hf ht)

theorem Directive.replaceArguments {keyword : String} {arguments : List String}
    (h : Directive (content raw.toList) keyword arguments) :
    Directive (content (replaceArguments f raw).toList) keyword (arguments.map f) := by
  obtain ⟨hat, sign, ht, hk⟩ := h
  exact ⟨by rw [head?_content_replaceArguments hf ht, hat], sign,
    tokens_replaceArguments hf ht, hk⟩

end

end Statement
end Wordcode
