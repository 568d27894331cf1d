import Wordcode.Word
import Wordcode.Tier
import Wordcode.Label
import Wordcode.Operand
import Wordcode.Operation
import Wordcode.Instruction
import Wordcode.Program
import Wordcode.Config
import Wordcode.Event
import Wordcode.Machine.Cell
import Wordcode.Machine.Bus
import Wordcode.Machine.Fault
import Wordcode.Machine.Core
import Wordcode.Machine.Arithmetic
import Wordcode.Machine.Effect
import Wordcode.Machine.Image
import Wordcode.Machine.Basic
import Wordcode.Machine.Clock
import Wordcode.Machine.Run
import Wordcode.Text.CharClass
import Wordcode.Text.Cluster
import Wordcode.Text.Width
import Wordcode.Text.Line
import Wordcode.Text.Table
import Wordcode.Machine.Display
import Wordcode.Text.Blank
import Wordcode.Text.Numeral
import Wordcode.Source.Error
import Wordcode.Source.Statement
import Wordcode.Source.Scope
import Wordcode.Source.Assembly
import Wordcode.Peephole
import Wordcode.Lowering.Expansion
import Wordcode.Lowering
import Wordcode.Proofs.Layout
import Wordcode.Proofs.Execution
import Wordcode.Proofs.Effects
import Wordcode.Proofs.Relocation
import Wordcode.Proofs.Simulation
import Wordcode.Proofs.Peephole.Rewriting
import Wordcode.Proofs.Peephole.FixedPoints
import Wordcode.Proofs.Peephole.Runs
import Wordcode.Proofs.Frame
import Wordcode.Proofs.Expansion.Basic
import Wordcode.Proofs.Expansion.Arithmetic
import Wordcode.Proofs.Expansion.Division
import Wordcode.Proofs.Integers
import Wordcode.Proofs.Lowering.Blocks
import Wordcode.Proofs.Lowering.Runs
import Wordcode.Proofs.Lowering.Calls
import Wordcode.Proofs.Safety
import Wordcode.Proofs.Assembly
import Wordcode.Proofs.Lowering.Checked
import Wordcode.Proofs.Lowering.Fitting
import Wordcode.Proofs.Lowering.Idempotence
import Wordcode.Proofs.Lowering.Registers
import Wordcode.Proofs.Integrity
import Wordcode.Proofs.Digits
import Wordcode.Proofs.Lowering.Data
import Wordcode.Proofs.Loading
import Wordcode.Proofs.Peephole.Pairs
import Wordcode.Proofs.Scheduling
import Wordcode.Proofs.Stopping
import Wordcode.Proofs.Isolation
import Wordcode.Proofs.Atomicity
import Wordcode.Proofs.Statements
import Wordcode.Proofs.Language
import Wordcode.Proofs.Substitution
import Wordcode.Proofs.Macros
import Wordcode.Proofs.Translation
import Wordcode.Proofs.Relabeling
import Wordcode.Proofs.Listing
import Wordcode.Proofs.Operands
import Wordcode.Proofs.Pragmas
import Wordcode.Proofs.Lowering.Named
import Wordcode.Proofs.Lowering.Listed
import Wordcode.Proofs.Lowering.Placed
import Wordcode.Proofs.Lowering.Leaving
