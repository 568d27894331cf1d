import Mathlib.Algebra.BigOperators.Fin
import Mathlib.Data.Nat.Digits.Lemmas
import Wordcode.Word

/-!
# Words as digits

A number that is cut into words is written to the base of the number of values of a word, the
most significant digit first. Halving cuts off as many bits as the lower half of the words takes,
which may be more than the widest word has, and what is left above may be wider than the upper
half of the words: then digits are lost, but those that are written are the right ones.

* `Word.halves_place`: a cut is made where the words below it end;
* `Word.ofDigits_split`: the words are the digits of the number;
* `Word.digits_split`: their count, their bounds and their sum, by the weights of their places.
-/

namespace Wordcode

/-! ## Digits by their places -/

/-- Digits of which the first is the most significant, each with the weight of its place. -/
theorem sum_digits_eq_ofDigits (base : Nat) (digits : List Nat) :
    ∑ i : Fin digits.length, digits[i] * base ^ (digits.length - 1 - i) =
      Nat.ofDigits base digits.reverse := by
  induction digits with
  | nil => rfl
  | cons d rest ih =>
    have hrest (i : Fin rest.length) : rest.length - (i + 1) = rest.length - 1 - i := by omega
    rw [List.reverse_cons, Nat.ofDigits_append, Nat.ofDigits_singleton, List.length_reverse, ← ih]
    simp only [List.length_cons, Fin.sum_univ_succ, Fin.getElem_fin, Fin.val_zero, Fin.val_succ,
      List.getElem_cons_zero, List.getElem_cons_succ, Nat.add_sub_cancel, Nat.sub_zero, hrest]
    rw [Nat.add_comm, Nat.mul_comm d]

namespace Word

variable {value bits lowBits k top : Nat}

/-! ## Cuts -/

/-- A number that fits the widest word has nothing above a cut at or beyond its width. -/
theorem halves_high (h : value < limit) (lowBits : Nat) :
    (halves value lowBits).high = value / 2 ^ lowBits := by
  rw [halves]
  split
  · exact Nat.shiftRight_eq_div_pow value lowBits
  · next hle =>
    have hlt : value < 2 ^ lowBits :=
      Nat.lt_of_lt_of_le h (Nat.pow_le_pow_right (by decide) (Nat.le_of_not_lt hle))
    exact (Nat.div_eq_of_lt hlt).symm

/-- To mask a number that fits the widest word is to reduce it, also where the mask is that of
    the widest word. -/
theorem and_mask_of_lt (h : value < limit) (bits : Nat) :
    value &&& mask bits = value % 2 ^ bits := by
  rw [and_mask, count]
  rcases Nat.le_total bits maxBits with hle | hle
  · rw [Nat.min_eq_left hle]
    rfl
  · have hlt : value < 2 ^ bits := Nat.lt_of_lt_of_le h (Nat.pow_le_pow_right (by decide) hle)
    rw [Nat.min_eq_right hle, Nat.mod_eq_of_lt hlt]
    exact Nat.mod_eq_of_lt h

/-- Beyond the widest word all cuts are alike. -/
theorem halves_min (value lowBits : Nat) (htop : maxBits ≤ top) :
    halves value (min lowBits top) = halves value lowBits := by
  have hlow : min (min lowBits top) maxBits = min lowBits maxBits := by omega
  have hhigh : min lowBits top < maxBits ↔ lowBits < maxBits := by omega
  rcases Nat.le_total lowBits top with hle | hle
  · rw [Nat.min_eq_left hle]
  · have hover : ¬lowBits < maxBits := by omega
    rw [halves, halves, mask, mask, count, count, hlow, if_neg hover, if_neg (mt hhigh.1 hover)]

/-- A cut above words that can be counted with 32 bits is made where they end, although the place
    is not told apart from others if it is after the last. -/
theorem halves_place (value bits : Nat) {count : Nat} (hcount : count ≤ maxPlace) :
    halves value (place bits count) = halves value (bits * count) := by
  rw [place, Nat.mod_eq_of_lt (Nat.lt_succ_of_le hcount)]
  exact halves_min value _ (by decide)

/-! ## Powers of two of words -/

theorem split_two_pow_succ (value bits k : Nat) :
    let parts := halves value (place bits (2 ^ k))
    split value bits (2 ^ (k + 1)) =
      split parts.high bits (2 ^ k) ++ split parts.low bits (2 ^ k) := by
  have hhalf : 2 ^ (k + 1) / 2 = 2 ^ k := by rw [Nat.pow_succ, Nat.mul_div_cancel _ (by decide)]
  have hlt : 1 < 2 ^ (k + 1) := Nat.one_lt_two_pow (Nat.succ_ne_zero k)
  rw [split_of_one_lt value bits hlt, hhalf]

/-- A count that is a power of two yields exactly that many words. -/
theorem length_split_two_pow (value bits k : Nat) : (split value bits (2 ^ k)).length = 2 ^ k := by
  induction k generalizing value with
  | zero => rw [Nat.pow_zero, split_one, List.length_singleton]
  | succ k ih => rw [split_two_pow_succ, List.length_append, ih, ih, Nat.pow_succ, Nat.mul_two]

/-- The words of a number are its digits, as far as there are words for them. -/
theorem ofDigits_split (h : value < limit) (bits : Nat) (hk : k ≤ 32) :
    Nat.ofDigits (2 ^ bits) (split value bits (2 ^ k)).reverse = value % 2 ^ (bits * 2 ^ k) := by
  induction k generalizing value with
  | zero =>
    rw [Nat.pow_zero, split_one, List.reverse_singleton, Nat.ofDigits_singleton, Nat.mul_one,
      and_mask_of_lt h]
  | succ k ih =>
    have hbits : 2 ^ (bits * 2 ^ (k + 1)) = 2 ^ (bits * 2 ^ k) * 2 ^ (bits * 2 ^ k) := by
      rw [← Nat.pow_add, Nat.pow_succ, Nat.mul_two, Nat.mul_add]
    have hhigh : (halves value (bits * 2 ^ k)).high = value / 2 ^ (bits * 2 ^ k) :=
      halves_high h _
    have hlow : (halves value (bits * 2 ^ k)).low = value % 2 ^ (bits * 2 ^ k) :=
      and_mask_of_lt h _
    have hcount : 2 ^ k ≤ maxPlace := Nat.le_sub_one_of_lt (Nat.pow_lt_pow_right (by decide) hk)
    have hle : k ≤ 32 := Nat.le_of_succ_le hk
    rw [split_two_pow_succ, halves_place value bits hcount, List.reverse_append,
      Nat.ofDigits_append, List.length_reverse, length_split_two_pow, hhigh, hlow,
      ih (Nat.lt_of_le_of_lt (Nat.mod_le _ _) h) hle,
      ih (Nat.lt_of_le_of_lt (Nat.div_le_self _ _) h) hle, ← Nat.pow_mul, Nat.mod_mod, hbits,
      Nat.mod_mul]

/-- A number that fits the widest word, cut into a power of two of words of which half can be
    counted with 32 bits: there are as many words as asked for, none exceeds the mask, and as
    digits, the most significant first, they make up the number modulo what so many words tell
    apart. So they make up the number itself where they have room for the widest word. -/
theorem digits_split (h : value < limit) (bits : Nat) (hk : k ≤ 32) :
    let words := split value bits (2 ^ k)
    let total := ∑ i : Fin words.length, words[i] * 2 ^ (bits * (2 ^ k - 1 - i))
    words.length = 2 ^ k ∧ (∀ word ∈ words, word ≤ mask bits) ∧
      total = value % 2 ^ (bits * 2 ^ k) ∧ (maxBits ≤ bits * 2 ^ k → total = value) := by
  intro words total
  have hlength : words.length = 2 ^ k := length_split_two_pow value bits k
  have htotal : total = value % 2 ^ (bits * 2 ^ k) :=
    calc total = ∑ i : Fin words.length, words[i] * (2 ^ bits) ^ (words.length - 1 - i) := by
          simp only [total, Nat.pow_mul, hlength]
      _ = Nat.ofDigits (2 ^ bits) words.reverse := sum_digits_eq_ofDigits _ words
      _ = value % 2 ^ (bits * 2 ^ k) := ofDigits_split h bits hk
  refine ⟨hlength, fun word hword => le_mask_of_mem_split hword, htotal, fun hroom => ?_⟩
  have hlt : value < 2 ^ (bits * 2 ^ k) :=
    Nat.lt_of_lt_of_le h (Nat.pow_le_pow_right (by decide) hroom)
  rw [htotal, Nat.mod_eq_of_lt hlt]

/-- Four words of 4 bits hold the lower half of a number of 32 bits, and two words of 33 bits
    hold the largest number. -/
theorem digits_split_narrow :
    let narrow := split 305419896 4 (2 ^ 2)
    let wide := split (limit - 1) 33 (2 ^ 1)
    (305419896 < limit ∧ limit - 1 < limit ∧ 2 ≤ 32 ∧ 1 ≤ 32 ∧ maxBits ≤ 33 * 2 ^ 1) ∧
      narrow = [5, 6, 7, 8] ∧ (∀ word ∈ narrow, word ≤ mask 4) ∧
      ∑ i : Fin narrow.length, narrow[i] * 2 ^ (4 * (2 ^ 2 - 1 - i.val)) = 22136 ∧
      wide = [2147483647, 8589934591] ∧
      ∑ i : Fin wide.length, wide[i] * 2 ^ (33 * (2 ^ 1 - 1 - i.val)) = limit - 1 := by
  intro narrow wide
  have hvalue : 305419896 < limit := by decide
  have hlargest : limit - 1 < limit := by decide
  have htwo : 2 ≤ 32 := by decide
  have hone : 1 ≤ 32 := by decide
  have hroom : maxBits ≤ 33 * 2 ^ 1 := by decide
  obtain ⟨-, hword, htotal, -⟩ := digits_split hvalue 4 htwo
  obtain ⟨-, -, -, hwhole⟩ := digits_split hlargest 33 hone
  exact ⟨⟨hvalue, hlargest, htwo, hone, hroom⟩, by decide +kernel, hword, htotal, by decide +kernel,
    hwhole hroom⟩

end Word
end Wordcode
