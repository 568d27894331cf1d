/-!
# Words

A machine works on *words* of a configured number of bits, at most 64. A number is
cut to a word by its *mask*, the largest value the word holds; a wider number is
stored as several words by halving it, high part first, until the parts are words.

* `Word.and_mask`: masking is reduction modulo the number of values of a word;
* `Word.mask_lt_limit`: no mask exceeds the widest word;
* `Word.split_one`, `Word.split_of_one_lt`: how a number is cut into words.
-/

namespace Wordcode
namespace Word

/-- The number of bits of the widest word. -/
def maxBits : Nat := 64

/-- The number of values of a word of `bits` bits. A width beyond the widest word
    counts as the widest. -/
def count (bits : Nat) : Nat := Nat.pow 2 (min bits maxBits)

/-- The number of values of the widest word. Every literal, register index and
    address of a program lies below it. -/
def limit : Nat := count maxBits

/-- The largest value of a word of `bits` bits. -/
def mask (bits : Nat) : Nat := count bits - 1

/-- A value cut in two. -/
structure Halves where
  high : Nat
  low : Nat
  deriving DecidableEq, Repr

/-- Cuts `value` above its `lowBits` lowest bits. Nothing remains above a cut at
    or beyond the widest word. -/
def halves (value lowBits : Nat) : Halves where
  high := if lowBits < maxBits then value >>> lowBits else 0
  low := value &&& mask lowBits

/-- The last place of a number that is told apart: places are numbers of 32 bits. -/
def maxPlace : Nat := Nat.pow 2 32 - 1

/-- The place above `count` words of `bits` bits. Of the count, only 32 bits are used, and
    a place after the last is the last. -/
def place (bits count : Nat) : Nat := min (bits * (count % (maxPlace + 1))) maxPlace

/-- `value` as `count` words of `bits` bits, most significant first. The count is
    halved together with the value, so a count that is no power of two yields as
    many words as the largest power of two below it. -/
def split (value bits count : Nat) : List Nat :=
  if count = 0 then []
  else if count = 1 then [value &&& mask bits]
  else
    let parts := halves value (place bits (count / 2))
    split parts.high bits (count / 2) ++ split parts.low bits (count / 2)
termination_by count
decreasing_by all_goals omega

/-- Masking is reduction modulo the number of values of the word. -/
theorem and_mask (value bits : Nat) : value &&& mask bits = value % count bits :=
  Nat.and_two_pow_sub_one_eq_mod value _

/-- One more than the mask is the number of values of the word. -/
theorem mask_add_one (bits : Nat) : mask bits + 1 = count bits :=
  Nat.sub_add_cancel (Nat.two_pow_pos _)

/-- No word has more values than the widest. -/
theorem count_le_limit (bits : Nat) : count bits ≤ limit :=
  Nat.pow_le_pow_right (by decide) (Nat.min_le_right bits maxBits)

/-- No mask exceeds the widest word. -/
theorem mask_lt_limit (bits : Nat) : mask bits < limit :=
  calc mask bits < mask bits + 1 := Nat.lt_succ_self _
    _ = count bits := mask_add_one bits
    _ ≤ limit := count_le_limit bits

/-- A masked value is at most the mask. -/
theorem and_mask_le (value bits : Nat) : value &&& mask bits ≤ mask bits :=
  Nat.and_le_right

theorem split_one (value bits : Nat) : split value bits 1 = [value &&& mask bits] := by
  rw [split, if_neg (by decide), if_pos rfl]

theorem split_of_one_lt (value bits : Nat) {count : Nat} (h : 1 < count) :
    let parts := halves value (place bits (count / 2))
    split value bits count =
      split parts.high bits (count / 2) ++ split parts.low bits (count / 2) := by
  rw [split, if_neg (Nat.ne_zero_of_lt h), if_neg (Nat.ne_of_gt h)]

theorem le_mask_of_mem_split {value bits count word : Nat} (h : word ∈ split value bits count) :
    word ≤ mask bits := by
  fun_induction split value bits count with
  | case1 => exact absurd h List.not_mem_nil
  | case2 value => exact List.mem_singleton.1 h ▸ and_mask_le value bits
  | case3 value count _ _ parts ihHigh ihLow =>
    rcases List.mem_append.1 h with h | h
    · exact ihHigh h
    · exact ihLow h

end Word
end Wordcode
