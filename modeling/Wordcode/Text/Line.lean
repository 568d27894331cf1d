/-!
# Lines

Text is a sequence of lines, each ended by a newline or by a carriage return and a newline;
the last line may lack them.
-/

namespace Wordcode.Text

/-- The lines of a text, without what ends them. -/
def lines : List Char → List (List Char)
  | [] => []
  | '\r' :: '\n' :: cs => [] :: lines cs
  | c :: cs =>
    if c = '\n' then [] :: lines cs
    else
      match lines cs with
      | [] => [[c]]
      | line :: rest => (c :: line) :: rest

/-- `count` copies of a character. -/
def repeated (c : Char) (count : Nat) : String := String.ofList (List.replicate count c)

/-- A text of which every given line ends in a newline. -/
def unlines (lines : List String) : String := String.join (lines.map (· ++ "\n"))

end Wordcode.Text
