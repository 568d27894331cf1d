import Wordcode.Text.Cluster

/-!
# Display width

How many columns a text takes on a display of fixed pitch. A text can hold sequences that
change how the display shows what comes after them: an escape character and an opening bracket,
and then all up to the next `m`. Of such a sequence only the escape character is counted.
-/

namespace Wordcode.Text

/-- Where in a text a character is: outside of the sequences for the display, after an escape
    character that may begin one, or inside of one. -/
inductive Escape where
  | outside
  | begun
  | inside
  deriving DecidableEq, Repr

/-- Whether a character takes a column by itself. -/
def occupies (c : Char) : Bool := !CharClass.controls.has c && (alone c).1 != 0

/-- The number of characters that take columns by themselves but are part of a sequence for the
    display. A sequence that does not end hides all that follows. -/
def hidden : Escape → List Char → Nat
  | _, [] => 0
  | .outside, c :: cs => hidden (if c = '\x1b' then .begun else .outside) cs
  | .begun, c :: cs => if c = '[' then 1 + hidden .inside cs else hidden .outside cs
  | .inside, c :: cs =>
    (occupies c).toNat + hidden (if c = 'm' then .outside else .inside) cs

/-- The columns that a text takes. -/
def width (text : String) : Nat := columns text.toList - hidden .outside text.toList

end Wordcode.Text
