import Wordcode.Proofs.Listing

/-!
# Pragmas are read as they were written

A pragma is what a directive is that has no meaning here. It is known by its first token, but kept
as all text after the sign, without the blanks around it. So a pragma that is written again has its
sign right before its text, and is read by another first token if there were blanks between them.

* `Statement.Detached`: blanks between the sign of a directive and a keyword;
* `Statement.ofLine?_written_iff`: what is written for a pragma is read as that pragma or as none;
* `Statement.ofLine?_render_pragma`: the pragmas that are read as they were written are those
  without such blanks, and of the others none is read as a pragma at all.
-/

namespace Wordcode

open Instruction

/-! ## Blanks at the ends -/

namespace Text

theorem trim_cons_of_isBlank {c : Char} (hc : isBlank c = true) (cs : List Char) :
    trim (c :: cs) = trim cs := by
  rw [trim, List.dropWhile_cons_of_pos hc, trim]

theorem trim_trim (cs : List Char) : trim (trim cs) = trim cs :=
  trim_eq_self (isBlank_ends_of_trim cs).1 (isBlank_ends_of_trim cs).2

end Text

namespace Statement

/-- The keywords of the directives that have a meaning. -/
def keywords : List String := ["macro", "minram", "minreg"]

/-- A text is a directive that has a meaning. -/
def Meaningful (text : List Char) : Prop :=
  ∃ keyword ∈ keywords, ∃ arguments, Directive text keyword arguments

/-- Between the sign of a directive and a keyword, there are blanks. Without them, the directive
    would have a meaning. -/
def Detached (text : List Char) : Prop :=
  ∃ blank rest, text = '@' :: blank :: rest ∧ Text.isBlank blank = true ∧
    Meaningful ('@' :: Text.trim rest)

variable {raw text rest : List Char} {keyword keyword' : String} {arguments : List String}
  {arguments' : List String} {written : String}

theorem Directive.keyword_eq (h : Directive text keyword arguments)
    (h' : Directive text keyword' arguments') : keyword = keyword' := by
  obtain ⟨-, sign, ht, rfl⟩ := h
  obtain ⟨-, sign', ht', rfl⟩ := h'
  rw [ht, List.cons.injEq, String.append_right_inj] at ht'
  rw [ht'.1]

/-- A text that begins with the sign of directives is one. -/
theorem exists_directive (rest : List Char) :
    ∃ keyword arguments, Directive ('@' :: rest) keyword arguments := by
  obtain ⟨sign, arguments, ht⟩ := @exists_tokens_of_head? ('@' :: rest) "@" '@' rfl rfl rfl
  exact ⟨_, arguments, rfl, sign, ht, rfl⟩

/-- A directive is a pragma exactly if it has no meaning. -/
theorem exists_says_pragma_iff :
    Says ('@' :: rest) (.pragma written) ↔
      ¬Meaningful ('@' :: rest) ∧ written = String.ofList (Text.trim rest) := by
  constructor
  · intro h
    cases h with
    | pragma hd hk =>
      refine ⟨?_, rfl⟩
      rintro ⟨keyword', hk', arguments', hd'⟩
      exact hk (hd.keyword_eq hd' ▸ hk')
  · rintro ⟨hm, rfl⟩
    obtain ⟨keyword, arguments, hd⟩ := exists_directive rest
    exact .pragma hd fun hk => hm ⟨keyword, hk, arguments, hd⟩

/-- The text of a pragma, written after the sign, has no comment and no blanks around it. -/
theorem content_written (h : content raw = '@' :: rest) :
    content ('@' :: Text.trim rest) = '@' :: Text.trim rest := by
  have hends := Text.isBlank_ends_of_trim rest
  refine content_eq_self (fun hc => ?_) (by rintro c ⟨⟩; rfl) fun c hc => ?_
  · rw [commentSign_infix_cons_iff (by rintro _ ⟨⟩)] at hc
    have hpart : Text.trim rest <:+: content raw :=
      h ▸ (Text.trim_infix rest).trans (List.suffix_cons '@' rest).isInfix
    exact commentSign_not_infix_content raw (hc.trans hpart)
  · rw [List.getLast?_cons] at hc
    cases hlast : (Text.trim rest).getLast? with
    | none =>
      rw [hlast] at hc
      cases hc
      rfl
    | some last =>
      rw [hlast, Option.getD_some, Option.mem_some_iff] at hc
      exact hends.2 c (hc ▸ hlast)

/-- A directive without a meaning gets one when it is written again exactly if there are blanks
    before what is then its keyword. -/
theorem meaningful_trim_iff (h : content raw = '@' :: rest) (hm : ¬Meaningful ('@' :: rest)) :
    Meaningful ('@' :: Text.trim rest) ↔ Detached ('@' :: rest) := by
  constructor
  · intro hwritten
    -- were there no blank, the directive would be written as it was
    have hfirst : ¬∀ c ∈ rest.head?, Text.isBlank c = false := fun hfirst =>
      hm (trim_of_content h hfirst ▸ hwritten)
    rcases rest with _ | ⟨blank, rest⟩
    · exact absurd (by rintro c ⟨⟩) hfirst
    · have hblank : Text.isBlank blank = true := by
        rw [← Bool.not_eq_false]
        exact fun hb => hfirst (by rintro c ⟨⟩; exact hb)
      rw [Text.trim_cons_of_isBlank hblank] at hwritten
      exact ⟨blank, rest, rfl, hblank, hwritten⟩
  · rintro ⟨blank, rest', he, hblank, hwritten⟩
    obtain rfl := (List.cons.inj he).2
    rwa [Text.trim_cons_of_isBlank hblank]

/-- What is written for a pragma is read as that pragma or as none. -/
theorem ofLine?_written_iff (h : ofLine? raw = .ok (some (.pragma written))) {other : String} :
    ofLine? ('@' :: written.toList) = .ok (some (.pragma other)) ↔
      ¬Detached (content raw) ∧ other = written := by
  have hsays := ofLine?_eq_some_iff.1 h
  obtain ⟨rest, hrest⟩ : ∃ rest, content raw = '@' :: rest := by
    cases hsays with
    | pragma hd => exact List.head?_eq_some_iff.1 hd.1
  rw [hrest, exists_says_pragma_iff] at hsays
  obtain ⟨hm, rfl⟩ := hsays
  rw [String.toList_ofList, ofLine?_eq_some_iff, content_written hrest, exists_says_pragma_iff,
    meaningful_trim_iff hrest hm, Text.trim_trim, hrest]

/-- A pragma is read as it was written unless there are blanks between its sign and a keyword. If
    there are, then what is written for it is not read as a pragma, neither as this one nor as
    another. -/
theorem ofLine?_render_pragma (h : ofLine? raw = .ok (some (.pragma written))) :
    (ofLine? (note (.pragma written)).render.toList = .ok (some (.pragma written)) ↔
      ¬Detached (content raw)) ∧
    (Detached (content raw) → ∀ other : String,
      ofLine? (note (.pragma written)).render.toList ≠ .ok (some (.pragma other))) := by
  have hrender : (note (.pragma written)).render.toList = '@' :: written.toList := by
    rw [render, Note.render, String.toList_append]
    rfl
  rw [hrender]
  refine ⟨(ofLine?_written_iff h).trans (and_iff_left rfl), fun hd other hother => ?_⟩
  exact ((ofLine?_written_iff h).1 hother).1 hd

/-- Capitals, commas and other words do no harm, and neither does a comma right after the sign. -/
theorem ofLine?_render_pragma_comma :
    ofLine? "  @,Macro begin, x // aside".toList = .ok (some (.pragma ",Macro begin, x")) ∧
      ¬Detached (content "  @,Macro begin, x // aside".toList) ∧
      ofLine? (note (.pragma ",Macro begin, x")).render.toList =
        .ok (some (.pragma ",Macro begin, x")) := by
  have h : ofLine? "  @,Macro begin, x // aside".toList =
      .ok (some (.pragma ",Macro begin, x")) := by decide +kernel
  have hcontent : content "  @,Macro begin, x // aside".toList = "@,Macro begin, x".toList := by
    decide +kernel
  have hd : ¬Detached (content "  @,Macro begin, x // aside".toList) := by
    rw [hcontent]
    rintro ⟨blank, rest, he, hblank, -⟩
    cases (List.cons.inj (List.cons.inj he).2).1
    exact absurd hblank (by decide)
  exact ⟨h, hd, (ofLine?_render_pragma h).1.2 hd⟩

/-- A pragma that is read as the use of a macro when it is written again. -/
theorem ofLine?_render_detached :
    ofLine? "@ macro x".toList = .ok (some (.pragma "macro x")) ∧
      (note (.pragma "macro x")).render = "@macro x" ∧
      ofLine? (note (.pragma "macro x")).render.toList = .ok (some (.macroUse "x")) := by
  decide +kernel

end Statement
end Wordcode
