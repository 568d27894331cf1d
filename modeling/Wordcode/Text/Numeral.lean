import Wordcode.Word

/-!
# Numerals

A numeral is a sequence of digits in one of three bases: decimal, hexadecimal after
`0x`, and binary after `0b`. Its value must fit the widest word.
-/

namespace Wordcode.Text

/-- The value of a digit in base 16 or below. -/
def digit? (c : Char) : Option Nat :=
  if '0' ≤ c ∧ c ≤ '9' then some (c.toNat - '0'.toNat)
  else if 'a' ≤ c ∧ c ≤ 'f' then some (c.toNat - 'a'.toNat + 10)
  else if 'A' ≤ c ∧ c ≤ 'F' then some (c.toNat - 'A'.toNat + 10)
  else none

/-- Continues a numeral of value `value` by a digit. -/
def addDigit? (base value : Nat) (c : Char) : Option Nat :=
  match digit? c with
  | some d => if d < base then some (value * base + d) else none
  | none => none

/-- The positional value of one or more digits. -/
def digits? (base : Nat) (cs : List Char) : Option Nat :=
  if cs.isEmpty then none else cs.foldlM (addDigit? base) 0

/-- The value of digits, if it fits the widest word. -/
def numeral? (base : Nat) (cs : List Char) : Option Nat :=
  (digits? base cs).filter (· < Word.limit)

/-- The value of a numeral, whose base is given by its first two characters. -/
def literal? : List Char → Option Nat
  | '0' :: c :: cs =>
    if c = 'x' ∨ c = 'X' then numeral? 16 cs
    else if c = 'b' ∨ c = 'B' then numeral? 2 cs
    else numeral? 10 ('0' :: c :: cs)
  | cs => numeral? 10 cs

/-- Whether a text begins with a decimal digit. -/
def startsWithDigit : List Char → Bool
  | c :: _ => '0' ≤ c && c ≤ '9'
  | [] => false

end Wordcode.Text
