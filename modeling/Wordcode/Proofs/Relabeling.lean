import Wordcode.Proofs.Safety

/-!
# Loading does not depend on names

What a stream becomes in memory does not depend on how its labels are called, nor on the notes
that only tell a reader something. The first pass over a stream with other labels finds the
same addresses for them (`Placement.Corresponds`), as long as different labels stay different.

* `Image.Alike`: streams that make no difference in memory;
* `Image.alike_filter_isListed`: comments, announcements and bounds of macros are not loaded;
* `Machine.load_map_relabel`: a stream with other labels is loaded as the stream is.
-/

namespace Wordcode

variable {Bus : Type}

/-! ## Notes for the reader -/

namespace Instruction

/-- Whether an instruction is more than a remark: not a comment, nor the announcement of a label
    or a bound of a macro. -/
def isListed : Instruction → Bool
  | .note (.comment _) | .note (.createLabel _) | .note (.macroBegin _) | .note .macroEnd => false
  | _ => true

/-- A remark is a note that is neither placed nor checked. -/
theorem cases_of_isListed {i : Instruction} (h : i.isListed = false) :
    ∃ n : Note, i = .note n ∧ ∀ (config : Config) (placement : Placement),
      Placement.add config placement (.note n) = .ok placement := by
  rcases i with _ | ⟨_ | _ | _ | _ | _ | _ | _ | _⟩ <;>
    first | exact ⟨_, rfl, fun _ _ => rfl⟩ | cases h

end Instruction

open Instruction

/-! ## Streams that make no difference -/

namespace Image

/-- Two streams that make no difference in memory: they take as many words and are placed alike
    wherever they come, and their cells are the same whatever the labels resolve to. -/
structure Alike (config : Config) (xs ys : List Instruction) : Prop where
  extent : extent xs = extent ys
  place : ∀ placement,
    xs.foldlM (Placement.add config) placement = ys.foldlM (Placement.add config) placement
  cells : ∀ resolution,
    List.flatten <$> xs.mapM (wordsOf config resolution) =
      List.flatten <$> ys.mapM (wordsOf config resolution)

namespace Alike

variable {config : Config} {xs ys zs xs' ys' : List Instruction}

theorem refl (config : Config) (xs : List Instruction) : Alike config xs xs :=
  ⟨rfl, fun _ => rfl, fun _ => rfl⟩

theorem trans (h : Alike config xs ys) (h' : Alike config ys zs) : Alike config xs zs :=
  ⟨h.extent.trans h'.extent, fun p => (h.place p).trans (h'.place p),
    fun r => (h.cells r).trans (h'.cells r)⟩

/-- Streams that are alike in parts are alike. -/
theorem append (h : Alike config xs ys) (h' : Alike config xs' ys') :
    Alike config (xs ++ xs') (ys ++ ys') where
  extent := by rw [extent_append, extent_append, h.extent, h'.extent]
  place p := by
    rw [List.foldlM_append, List.foldlM_append, h.place]
    exact congrArg _ (funext h'.place)
  cells r := by
    have hsplit (as bs : List Instruction) :
        List.flatten <$> (as ++ bs).mapM (wordsOf config r) = do
          let before ← List.flatten <$> as.mapM (wordsOf config r)
          let after ← List.flatten <$> bs.mapM (wordsOf config r)
          return before ++ after := by
      rw [List.mapM_append]
      cases as.mapM (wordsOf config r) with
      | error e => rfl
      | ok before =>
        cases bs.mapM (wordsOf config r) with
        | error e => rfl
        | ok after => exact congrArg Except.ok List.flatten_append
    rw [hsplit, hsplit, h.cells, h'.cells]

/-- Remarks take no place. -/
theorem remark {i : Instruction} (h : Alike config xs ys) (hi : i.isListed = false) :
    Alike config (i :: xs) ys := by
  obtain ⟨n, rfl, hn⟩ := cases_of_isListed hi
  refine ⟨(Nat.zero_add _).trans h.extent, fun p => ?_, fun r => ?_⟩
  · rw [List.foldlM_cons, hn]
    exact h.place p
  · rw [← h.cells r, List.mapM_cons]
    cases xs.mapM (wordsOf config r) <;> rfl

/-- Instructions may be replaced one by one. -/
theorem flatMap {f : Instruction → List Instruction} (h : ∀ i ∈ xs, Alike config (f i) [i]) :
    Alike config (xs.flatMap f) xs := by
  induction xs with
  | nil => exact refl config []
  | cons i rest ih =>
    rw [List.forall_mem_cons] at h
    exact h.1.append (ih h.2)

theorem placement_eq (h : Alike config xs ys) :
    Placement.ofStream? config xs = Placement.ofStream? config ys :=
  h.place {}

theorem image_eq (h : Alike config xs ys) : ofStream? config xs = ofStream? config ys := by
  have hcells (stream : List Instruction) (resolution : Resolution) :
      (do let cells ← stream.mapM (wordsOf config resolution)
          return (⟨cells.flatten, resolution⟩ : Image)) =
        (⟨·, resolution⟩) <$> (List.flatten <$> stream.mapM (wordsOf config resolution)) := by
    cases stream.mapM (wordsOf config resolution) <;> rfl
  simp only [ofStream?, h.placement_eq, hcells, h.cells]

end Alike

/-- A stream is loaded as its part that is more than remarks. -/
theorem alike_filter_isListed (config : Config) (stream : List Instruction) :
    Alike config stream (stream.filter isListed) := by
  induction stream with
  | nil => exact .refl config []
  | cons i rest ih =>
    cases hi : i.isListed with
    | true =>
      rw [List.filter_cons_of_pos hi]
      exact (Alike.refl config [i]).append ih
    | false =>
      rw [List.filter_cons_of_neg (by simp [hi])]
      exact ih.remark hi

end Image

/-! ## Other labels -/

/-- An operand with another label. -/
def Operand.relabel (f : Label → Label) : Operand → Operand
  | .label l => .label (f l)
  | x => x

/-- A note with another label. -/
def Note.relabel (f : Label → Label) : Note → Note
  | .createLabel label => .createLabel (f label)
  | .markLabel label => .markLabel (f label)
  | n => n

namespace Instruction

/-- An instruction with other labels. -/
def relabel (f : Label → Label) : Instruction → Instruction
  | .code op operands => .code op (operands.map (Operand.relabel f))
  | .note n => .note (n.relabel f)

/-- A stream names a label: it announces, places or uses it. -/
def Names (stream : List Instruction) (label : Label) : Prop :=
  ∃ i ∈ stream, .label label ∈ i.operands

/-- Labels that differ in a stream differ under their other names, and only these. -/
def Separates (stream : List Instruction) (f : Label → Label) : Prop :=
  ∀ l l', Names stream l → Names stream l' → ((f l).id = (f l').id ↔ l.id = l'.id)

variable {f : Label → Label} {i : Instruction}

theorem footprint_relabel : (i.relabel f).footprint = i.footprint := by
  rcases i with _ | ⟨_ | _ | _ | _ | _ | _ | _ | _⟩ <;> rfl

theorem mark?_relabel : (i.relabel f).mark? = i.mark?.map f := by
  rcases i with _ | ⟨_ | _ | _ | _ | _ | _ | _ | _⟩ <;> rfl

theorem relabel_eq_maxReg_iff {index : Nat} :
    i.relabel f = .note (.maxReg index) ↔ i = .note (.maxReg index) := by
  rcases i with _ | ⟨_ | _ | _ | _ | _ | _ | _ | _⟩ <;> simp [relabel, Note.relabel]

theorem relabel_eq_minRam_iff {words : Nat} :
    i.relabel f = .note (.minRam words) ↔ i = .note (.minRam words) := by
  rcases i with _ | ⟨_ | _ | _ | _ | _ | _ | _ | _⟩ <;> simp [relabel, Note.relabel]

theorem label_mem_of_mark? {l : Label} (h : i.mark? = some l) : .label l ∈ i.operands := by
  rcases i with _ | ⟨_ | _ | _ | _ | _ | _ | _ | _⟩ <;> cases h
  exact List.mem_singleton_self _

end Instruction

variable {f : Label → Label} {stream : List Instruction} {config : Config}

/-- Two resolutions give the labels of a stream and their other names the same addresses. -/
def Resolution.Corresponds (f : Label → Label) (stream : List Instruction)
    (r r' : Resolution) : Prop :=
  ∀ l, Names stream l → r'.addressOf (f l) = r.addressOf l

/-- Two placements take the same space and correspond in the addresses of labels. -/
structure Placement.Corresponds (f : Label → Label) (stream : List Instruction)
    (p p' : Placement) : Prop where
  size : p'.size = p.size
  resolution : p.resolution.Corresponds f stream p'.resolution

namespace Placement

variable {p p' q : Placement} {i : Instruction}

theorem Corresponds.accepts (h : Corresponds f stream p p') (hi : i ∈ stream) :
    Accepts config p' (i.relabel f) ↔ Accepts config p i := by
  simp only [Accepts, relabel_eq_maxReg_iff, relabel_eq_minRam_iff, mark?_relabel]
  refine and_congr_left fun _ => ?_
  cases hm : i.mark? with
  | none => simp
  | some l =>
    have hl : Names stream l := ⟨i, hi, label_mem_of_mark? hm⟩
    simp [h.resolution l hl]

/-- Placements correspond after one more instruction and its renamed form. -/
theorem Corresponds.extend (h : Corresponds f stream p p') (hf : Separates stream f)
    (hi : i ∈ stream) : Corresponds f stream (p.extend i) (p'.extend (i.relabel f)) := by
  constructor
  · rw [Placement.extend, Placement.extend, footprint_relabel, h.size]
  · rw [Placement.extend, Placement.extend, mark?_relabel]
    intro l' hl'
    cases hm : i.mark? with
    | none => exact h.resolution l' hl'
    | some l =>
      have hiff := hf l' l hl' ⟨i, hi, label_mem_of_mark? hm⟩
      simp only [Option.map_some, Resolution.addressOf, List.lookup_cons, h.size]
      by_cases hid : l'.id = l.id
      · rw [beq_iff_eq.2 hid, beq_iff_eq.2 (hiff.2 hid)]
      · rw [beq_eq_false_iff_ne.2 hid, beq_eq_false_iff_ne.2 (mt hiff.1 hid)]
        exact h.resolution l' hl'

/-- A stream is placed the same under other names. -/
theorem Corresponds.foldlM {rest : List Instruction} (h : Corresponds f stream p p')
    (hf : Separates stream f) (hrest : ∀ i ∈ rest, i ∈ stream)
    (hq : rest.foldlM (add config) p = .ok q) :
    ∃ q', (rest.map (relabel f)).foldlM (add config) p' = .ok q' ∧ Corresponds f stream q q' := by
  induction rest generalizing p p' with
  | nil => exact ⟨p', rfl, Except.ok.inj hq ▸ h⟩
  | cons i rest ih =>
    rw [List.forall_mem_cons] at hrest
    obtain ⟨next, hn, hq⟩ := bind_eq_ok_iff.1 hq
    obtain ⟨haccepts, rfl⟩ := add_eq_ok_iff.1 hn
    obtain ⟨q', hq', hcorresponds⟩ := ih (h.extend hf hrest.1) hrest.2 hq
    refine ⟨q', ?_, hcorresponds⟩
    rw [List.map_cons, List.foldlM_cons]
    exact bind_eq_ok_iff.2 ⟨_, add_eq_ok_iff.2 ⟨(h.accepts hrest.1).2 haccepts, rfl⟩, hq'⟩

/-- Where there is no room for an instruction, there is none for its renamed form. -/
theorem add_relabel_eq_error {e : LoadError} (he : e.isShortage = true)
    (h : add config p i = .error e) : add config p' (i.relabel f) = .error e := by
  rw [add, bind_eq_error_iff, or_iff_left (by rintro ⟨_, -, ⟨⟩⟩)] at h ⊢
  rw [resolve.eq_def] at h
  split at h
  · split at h
    · cases h
    · cases h
      cases he
  · split at h
    · cases h
    · next hn =>
      cases h
      rw [relabel_eq_maxReg_iff.2 rfl, resolve, if_neg hn]
  · split at h
    · cases h
    · next hn =>
      cases h
      rw [relabel_eq_minRam_iff.2 rfl, resolve, if_neg hn]
  · cases h

/-- A stream is refused the same under other names, if for the lack of something. -/
theorem Corresponds.foldlM_error {rest : List Instruction} {e : LoadError}
    (h : Corresponds f stream p p') (hf : Separates stream f) (hrest : ∀ i ∈ rest, i ∈ stream)
    (he : e.isShortage = true) (hq : rest.foldlM (add config) p = .error e) :
    (rest.map (relabel f)).foldlM (add config) p' = .error e := by
  induction rest generalizing p p' with
  | nil => cases hq
  | cons i rest ih =>
    rw [List.forall_mem_cons] at hrest
    rw [List.map_cons, List.foldlM_cons, bind_eq_error_iff]
    rw [List.foldlM_cons, bind_eq_error_iff] at hq
    rcases hq with hq | ⟨next, hn, hq⟩
    · exact .inl (add_relabel_eq_error he hq)
    · obtain ⟨haccepts, rfl⟩ := add_eq_ok_iff.1 hn
      exact .inr ⟨_, add_eq_ok_iff.2 ⟨(h.accepts hrest.1).2 haccepts, rfl⟩,
        ih (h.extend hf hrest.1) hrest.2 hq⟩

end Placement

namespace Image

variable {r r' : Resolution} {i : Instruction} {image : Image}

theorem datum_map_relabel {operands : List Operand} (hw : r.Corresponds f stream r')
    (hl : ∀ l, .label l ∈ operands → Names stream l ∧ r.addressOf l ≠ none) :
    datum r' (operands.map (Operand.relabel f)) = datum r operands := by
  rcases operands with _ | ⟨x, _ | ⟨y, rest⟩⟩
  · rfl
  · rcases x with _ | _ | l
    · rfl
    · rfl
    · obtain ⟨hnames, hsome⟩ := hl l List.mem_cons_self
      obtain ⟨address, ha⟩ := Option.ne_none_iff_exists'.1 hsome
      simp only [List.map_cons, List.map_nil, Operand.relabel, datum, hw l hnames, ha]
  · rcases x with _ | _ | _ <;> rfl

theorem decode_map_relabel {mask : Nat} {operands : List Operand} (hw : r.Corresponds f stream r')
    (hl : ∀ l, .label l ∈ operands → Names stream l ∧ r.addressOf l ≠ none) :
    (operands.map (Operand.relabel f)).map (Slot.decode r' mask) =
      operands.map (Slot.decode r mask) := by
  rw [List.map_map]
  refine List.map_congr_left fun x hx => ?_
  rcases x with _ | _ | l
  · rfl
  · rfl
  · obtain ⟨hnames, hsome⟩ := hl l hx
    obtain ⟨address, ha⟩ := Option.ne_none_iff_exists'.1 hsome
    simp only [Function.comp_apply, Operand.relabel, Slot.decode, hw l hnames, ha]

/-- An instruction whose labels have addresses has the same cells under other names. -/
theorem wordsOf_relabel (hw : r.Corresponds f stream r')
    (hl : ∀ l, .label l ∈ i.operands → Names stream l ∧ r.addressOf l ≠ none) :
    wordsOf config r' (i.relabel f) = wordsOf config r i := by
  rcases i with ⟨op, operands⟩ | n
  · replace hl : ∀ l, .label l ∈ operands → Names stream l ∧ r.addressOf l ≠ none := hl
    rw [relabel]
    cases hd : op.isData with
    | true => rw [wordsOf_data hd, wordsOf_data hd, datum_map_relabel hw hl]
    | false =>
      rw [wordsOf_code hd, wordsOf_code hd, Decoded.ofInstruction, Decoded.ofInstruction]
      simp only [Instruction.operands, Instruction.operation, decode_map_relabel hw hl]
  · rfl

/-- A wired stream has the same cells under other names. -/
theorem exists_ofStream?_relabel (h : Wired stream) (hf : Separates stream f)
    (hi : ofStream? config stream = .ok image) :
    ∃ image', ofStream? config (stream.map (relabel f)) = .ok image' ∧
      image'.cells = image.cells := by
  have haddress (l : Label) (hl : Names stream l) : image.resolution.addressOf l ≠ none := by
    obtain ⟨i, him, hl⟩ := hl
    rw [ne_eq, addressOf_eq_none_iff hi, not_not]
    exact h.marked i him l hl
  obtain ⟨p, hp, hsize, cells, hcells, rfl⟩ := ofStream?_eq_ok_iff.1 hi
  have hempty : Placement.Corresponds f stream {} {} := ⟨rfl, fun _ _ => rfl⟩
  obtain ⟨p', hp', hcorresponds⟩ := hempty.foldlM hf (fun _ hi => hi) hp
  refine ⟨⟨cells.flatten, p'.resolution⟩, ofStream?_eq_ok_iff.2 ⟨p', hp', ?_, cells, ?_, rfl⟩, rfl⟩
  · rwa [hcorresponds.size]
  · rw [List.forall₂_map_left_iff]
    refine ((List.forall₂_and_left _ _).2 ⟨fun i hi => hi, hcells⟩).imp fun i _ hi => ?_
    rw [wordsOf_relabel hcorresponds.resolution fun l hl => ?_, hi.2]
    have hnames : Names stream l := ⟨i, hi.1, hl⟩
    exact ⟨hnames, haddress l hnames⟩

/-- A stream that is refused for the lack of something is refused under other names too. -/
theorem ofStream?_relabel_eq_error (hf : Separates stream f) {e : LoadError}
    (he : e.isShortage = true) (hi : ofStream? config stream = .error e) :
    ofStream? config (stream.map (relabel f)) = .error e := by
  have hempty : Placement.Corresponds f stream {} {} := ⟨rfl, fun _ _ => rfl⟩
  rw [ofStream?, bind_eq_error_iff] at hi ⊢
  rcases hi with hi | ⟨p, hp, hi⟩
  · exact .inl (hempty.foldlM_error hf (fun _ hi => hi) he hi)
  · obtain ⟨p', hp', hcorresponds⟩ := hempty.foldlM hf (fun _ hi => hi) hp
    refine .inr ⟨p', hp', ?_⟩
    rw [hcorresponds.size]
    by_cases hs : config.codeWords < p.size
    · simp only [hs, if_true] at hi ⊢
      exact hi
    · -- the cells of an instruction are not refused for the lack of anything
      simp only [hs, if_false] at hi
      rw [bind_eq_error_iff, or_iff_left (by rintro ⟨_, -, ⟨⟩⟩)] at hi
      obtain ⟨i, -, hi⟩ := exists_of_mapM_eq_error hi
      obtain ⟨op, l, -, rfl, -⟩ := LoadError.exists_of_wordsOf hi
      cases he

end Image

/-- A wired stream is loaded the same under other names. -/
theorem Machine.load_map_relabel (h : Wired stream) (hf : Separates stream f) (m : Machine Bus) :
    m.load (stream.map (relabel f)) = m.load stream := by
  have hshortage {e : LoadError} (hl : (m.load stream).2 = .error e) := h.isShortage hl
  rw [load_eq, load_eq] at *
  cases hi : Image.ofStream? m.config stream with
  | ok image =>
    obtain ⟨image', hi', hcells⟩ := Image.exists_ofStream?_relabel h hf hi
    rw [hi']
    simp only [install, Image.size, hcells]
  | error e =>
    rw [Image.ofStream?_relabel_eq_error hf (hshortage (by rw [hi])) hi]

end Wordcode
