import Wordcode.Word

/-!
# Arithmetic

Results are numbers of 128 bits, computed from values of 64 bits. Only the part that
fits a word reaches a register; the flags keep all of it, so a carry or a borrow can
be told from the flags afterwards.
-/

namespace Wordcode
namespace Arithmetic

/-- The number of bits of a result. -/
def resultBits : Nat := 128

/-- The number of values of a result. -/
def resultCount : Nat := Nat.pow 2 resultBits

/-- The difference of two values. A negative difference wraps around, and so has all
    bits above the word set. -/
def difference (x y : Nat) : Nat := (x + (resultCount - y)) % resultCount

/-- All 64 bits of a value turned over. -/
def complement (x : Nat) : Nat := Word.limit - 1 - x

/-- A value moved up by `count` bits. What leaves the result is lost. -/
def shiftLeft (x count : Nat) : Nat :=
  if count < resultBits then (x <<< count) % resultCount else 0

/-- A value moved down by `count` bits. -/
def shiftRight (x count : Nat) : Nat :=
  if count < Word.maxBits then x >>> count else 0

/-- The result has nothing in the word. -/
def isZero (mask flags : Nat) : Bool := flags &&& mask == 0

/-- The result does not fit the word. -/
def isCarry (mask flags : Nat) : Bool := mask < flags

/-- The highest bit of the word is set. -/
def isNegative (mask flags : Nat) : Bool := mask >>> 1 < flags &&& mask

/-- The lowest bit of a value is not set. -/
def isEven (x : Nat) : Bool := x &&& 1 == 0

end Arithmetic
end Wordcode
