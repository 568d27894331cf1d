import Wordcode.Text.Line
import Wordcode.Text.Width

/-!
# Boxed tables

A table is written as text with lines between its columns, a line under its titles
and one at its bottom. Every column is as wide as its widest entry; an entry of
several lines makes its row as high as it is.
-/

namespace Wordcode.Text

/-- The side of its column an entry keeps to. -/
inductive Align where
  | left
  | right
  deriving DecidableEq, Repr

/-- An entry of a table. -/
structure Entry where
  lines : List String
  align : Align := .left
  deriving DecidableEq, Repr

/-- A table, with or without titles. -/
structure Table where
  titles : Option (List Entry) := none
  rows : List (List Entry)
  deriving DecidableEq, Repr

namespace Entry

/-- An entry that holds a text. -/
def ofText (align : Align) (text : String) : Entry :=
  ⟨(Text.lines text.toList).map String.ofList, align⟩

/-- The columns that the widest line takes. -/
def width (entry : Entry) : Nat := (entry.lines.map Text.width).foldl max 0

/-- A line of the entry, filled up to the given width. Below the last line there are
    blanks. -/
def line (entry : Entry) (width index : Nat) : String :=
  let text := entry.lines[index]?.getD ""
  let blanks := repeated ' ' (width - Text.width text)
  match entry.align with
  | .left => text ++ blanks
  | .right => blanks ++ text

end Entry

namespace Table

/-- The greater of two widths, column by column. -/
def widen : List Nat → List Nat → List Nat
  | [], widths => widths
  | widths, [] => widths
  | w :: ws, v :: vs => max w v :: widen ws vs

/-- The widths of the columns. -/
def widths (table : Table) : List Nat :=
  (table.titles.toList ++ table.rows).foldl (fun ws row => widen ws (row.map Entry.width)) []

/-- A line across the table, with the given crossings. -/
def rule (crossing : String) (widths : List Nat) : String :=
  " " ++ crossing.intercalate (widths.map fun w => repeated '─' (w + 2)) ++ " "

/-- The lines of a row. -/
def rowLines (widths : List Nat) (row : List Entry) : List String :=
  (List.range ((row.map (·.lines.length)).foldl max 1)).map fun index =>
    " " ++ "│".intercalate ((row.zip widths).map fun (entry, w) =>
      " " ++ entry.line w index ++ " ") ++ " "

/-- The lines of a table. -/
def lines (table : Table) : List String :=
  let widths := table.widths
  let titles := match table.titles with
    | some row => rowLines widths row ++ [rule "┼" widths]
    | none => []
  titles ++ table.rows.flatMap (rowLines widths) ++ [rule "┴" widths]

end Table
end Wordcode.Text
