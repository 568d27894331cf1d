import Wordcode.Machine.Basic
import Wordcode.Text.Table

/-!
# Displaying a machine

A machine is shown as a row of tables: the program, with the cores that are about to
execute each of its cells, and the state of each core.
-/

namespace Wordcode

open Text (Entry Table)

/-- Numbers as a list, the first of them first. -/
def renderList (numbers : List Nat) : String :=
  "[" ++ ", ".intercalate (numbers.map Nat.repr) ++ "]"

namespace Core

/-- A row that names a part of a core. -/
def displayRow (name value : String) : List Entry :=
  [.ofText .right (name ++ " ="), .ofText .left value]

/-- The state of a core. Stacks are shown from their bottom. -/
def display (core : Core) (index : Nat) : Table where
  titles := some [.ofText .right ("Core " ++ index.repr),
    .ofText .left (if core.halted then "halted" else "running")]
  rows :=
    (core.registers.toList.zipIdx.map fun (word, i) => displayRow ("R" ++ i.repr) word.repr) ++
    [displayRow "ip" core.ip.repr,
      displayRow "flags" core.flags.repr,
      displayRow "stack" (renderList core.stack.reverse),
      displayRow "calls" (renderList core.calls.reverse)]

end Core

namespace Machine

variable {Bus : Type}

/-- The running cores that are about to execute the cell at an address. -/
def pointers (m : Machine Bus) (address : Nat) : List Nat :=
  (m.cores.zipIdx.filter fun (core, _) => !core.halted && core.ip == address).map (·.2)

/-- An address of the program, with the cores that are about to execute it. -/
def displayAddress (m : Machine Bus) (address : Nat) : String :=
  let plain := "[" ++ address.repr ++ "] ="
  match m.pointers address with
  | [] => plain
  | cores => "* " ++ ",".intercalate (cores.map Nat.repr) ++ " --> " ++ plain

/-- The program as it stands in memory. -/
def displayCode (m : Machine Bus) : Table where
  titles := some [.ofText .right "Address", .ofText .left "Contents"]
  rows := (m.codeStore.toList.take m.programLen).zipIdx.map fun (cell, address) =>
    [.ofText .right (m.displayAddress address), .ofText .left cell.render]

/-- A machine as text. -/
def render (m : Machine Bus) : String :=
  let cores := m.cores.zipIdx.map fun (core, index) => core.display index
  let row : List Entry := (m.displayCode :: cores).map fun table => { lines := table.lines }
  m.config.wordBits.repr ++ "-bit words, " ++ m.cores.length.repr ++ " core(s)\n" ++
    Text.unlines (Table.lines { rows := [row] })

end Machine
end Wordcode
