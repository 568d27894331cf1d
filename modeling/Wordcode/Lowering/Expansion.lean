import Wordcode.Program
import Wordcode.Word

/-!
# Expansions

An instruction that a target does not execute is expanded into a sequence of simpler
ones that has the same effect on its destination and on memory. A sequence may use the
*scratch* register freely; any other register it needs is *borrowed*, that is pushed
before the sequence and popped after it. The flags are not preserved.

A sequence may hold instructions that the target does not execute either: a division
by zero is a breakpoint, and data of four words becomes twice data of two words. These
are expanded in turn, so `Opcode.depth` counts how often that can happen.

The labels of a sequence are numbered from the first free one on; `Expansion.labels`
says how many it takes.
-/

namespace Wordcode

/-- What an expansion may rely on. -/
structure Expansion.Context where
  /-- The register that no instruction of the program names. -/
  scratch : Nat
  /-- The width of a word. -/
  wordBits : Nat
  deriving DecidableEq, Repr

/-- An instruction expanded. -/
structure Expansion where
  /-- The number of labels it takes. -/
  labels : Nat := 0
  body : List Instruction
  deriving DecidableEq, Repr

namespace Opcode

/-- How many times in a row an instruction can be expanded. -/
def depth : Opcode → Nat
  | .div | .mod | .dq => 2
  | .mlt | .bsl | .bsr | .cal | .ret | .brk | .dd => 1
  | _ => 0

end Opcode

namespace Expansion

/-! ## Parts of sequences -/

/-- The first `count` registers, from 1 on, that are not to be avoided. -/
def borrow (avoid : List Nat) (count : Nat) : List Nat :=
  ((List.range' 1 (avoid.length + count)).filter fun index => !avoid.contains index).take count

/-- Saves registers on the value stack. -/
def save (registers : List Nat) : List Instruction :=
  registers.map fun index => .code .psh [.register index]

/-- Restores registers from the value stack, in the opposite order. -/
def restore (registers : List Nat) : List Instruction :=
  registers.reverse.map fun index => .code .pop [.register index]

/-- Copies a register, or puts an immediate or an address into one. -/
def copy (target : Nat) : Operand → Instruction
  | .register index => .code .mov [.register target, .register index]
  | value => .code .imm [.register target, value]

/-- Sets a register to zero. -/
def clear (target : Nat) : Instruction := .code .mov [.register target, .zero]

/-- Announces the labels from `first` on. -/
def announce (first count : Nat) : List Instruction :=
  (List.range' first count).map fun id => .note (.createLabel (.anonymous id))

/-- Places a label. -/
def mark (id : Nat) : Instruction := .note (.markLabel (.anonymous id))

/-- Goes to a label, under the condition of the opcode. -/
def jump (op : Opcode) (id : Nat) : Instruction := .code op [.label (.anonymous id)]

/-- Compares a register with zero. -/
def compareZero (index : Nat) : Instruction := .code .cmp [.register index, .immediate 0]

/-- Goes on at `go` if the divisor is not zero. Otherwise it breaks and skips to `done`. -/
def zeroTrap (divisor go done : Nat) : List Instruction :=
  [compareZero divisor, jump .bnz go, .code .brk [], jump .bra done]

/-- An instruction on one register and itself. -/
def onto (op : Opcode) (index : Nat) : Instruction := .code op [.register index, .register index]

/-- An instruction that combines a register with another. -/
def combine (op : Opcode) (index other : Nat) : Instruction :=
  .code op [.register index, .register index, .register other]

/-- Puts a register into the destination, and into the flags. -/
def deliver (destination : Operand) (index : Nat) : Instruction :=
  .code .add [destination, .register index, .zero]

/-- The registers to avoid beside an instruction with the given operands. -/
def avoided (context : Context) (operands : List Operand) : List Nat :=
  context.scratch :: operands.filterMap Operand.register?

/-! ## Arithmetic -/

/-- Multiplication: shift and add, from the lowest bit of the multiplier on, until it
    is shifted down to zero. -/
def multiply (context : Context) (first : Nat) (d x y : Operand) : Option Expansion :=
  match borrow (avoided context [d, x, y]) 2 with
  | [multiplier, multiplicand] =>
    let product := context.scratch
    let (top, skip, done) := (first, first + 1, first + 2)
    some {
      labels := 3
      body :=
        save [multiplier, multiplicand] ++
        [copy multiplier x, copy multiplicand y, clear product] ++
        announce first 3 ++
        [mark top, compareZero multiplier, jump .brz done,
          .code .bev [.label (.anonymous skip), .register multiplier],
          combine .add product multiplicand,
          mark skip, onto .lsh multiplicand, onto .rsh multiplier, jump .bra top,
          mark done, deliver d product] ++
        restore [multiplier, multiplicand] }
  | _ => none

/-- A divisor: the register that holds it, the registers borrowed to hold it and the
    instructions that put it there. A divisor in a register stays where it is. -/
def divisor (spare : List Nat) : Operand → Option (Nat × List Instruction)
  | .register index => some (index, [])
  | value =>
    match spare with
    | index :: _ => some (index, [copy index value])
    | [] => none

/-- The number of registers borrowed for a divisor. -/
def divisorCount : Operand → Nat
  | .register _ => 0
  | _ => 1

/-- Division: one round for each bit of the word. A round shifts the quotient and the
    remainder up and brings the next bit of the dividend into the remainder. If the
    remainder leaves the word it exceeds the divisor for certain; otherwise the divisor
    is subtracted only if that does not borrow. -/
def divide (context : Context) (first : Nat) (d x y : Operand) : Option Expansion :=
  match borrow (avoided context [d, x, y]) (3 + divisorCount y) with
  | dividend :: remainder :: quotient :: spare => do
    let (divisor, loadDivisor) ← divisor spare y
    let counter := context.scratch
    let (go, top, trial, force) := (first, first + 1, first + 2, first + 3)
    let (forceSub, next, done) := (first + 4, first + 5, first + 6)
    some {
      labels := 7
      body :=
        save (dividend :: remainder :: quotient :: spare) ++
        loadDivisor ++ announce first 7 ++ zeroTrap divisor go done ++
        [mark go, copy dividend x, clear remainder, clear quotient,
          .code .imm [.register counter, .immediate context.wordBits],
          mark top, onto .lsh quotient, onto .lsh remainder, jump .brc force,
          onto .lsh dividend, jump .bnc trial, onto .inc remainder,
          mark trial, .code .cmp [.register remainder, .register divisor], jump .brc next,
          combine .sub remainder divisor, onto .inc quotient, jump .bra next,
          -- the remainder has left the word
          mark force, onto .lsh dividend, jump .bnc forceSub, onto .inc remainder,
          mark forceSub, combine .sub remainder divisor, onto .inc quotient,
          mark next, onto .dec counter, jump .bnz top,
          deliver d quotient, mark done] ++
        restore (dividend :: remainder :: quotient :: spare) }
  | _ => none

/-- Remainder: subtracts the divisor until that borrows, then adds it once. -/
def modulo (context : Context) (first : Nat) (d x y : Operand) : Option Expansion := do
  let spare := borrow (avoided context [d, x, y]) (divisorCount y)
  let (divisor, loadDivisor) ← divisor spare y
  let remainder := context.scratch
  let (top, done) := (first, first + 1)
  some {
    labels := 2
    body :=
      save spare ++ loadDivisor ++ announce first 2 ++
      [copy remainder x] ++ zeroTrap divisor top done ++
      [mark top, combine .sub remainder divisor, jump .bnc top, combine .add remainder divisor,
        deliver d remainder, mark done] ++
      restore spare }

/-- A shift by a count: shifts by one bit until the count is zero. -/
def shiftBy (shift : Opcode) (context : Context) (first : Nat) (d x n : Operand) :
    Option Expansion :=
  match borrow (avoided context [d, x, n]) 1 with
  | [count] =>
    let value := context.scratch
    let (top, done) := (first, first + 1)
    some {
      labels := 2
      body :=
        save [count] ++ [copy value x, copy count n] ++ announce first 2 ++
        [mark top, compareZero count, jump .brz done, onto shift value, onto .dec count,
          jump .bra top,
          mark done, deliver d value] ++
        restore [count] }
  | _ => none

/-! ## Control flow -/

/-- A call: the address to come back to is pushed onto the value stack. -/
def call (first : Nat) (target : Operand) : Expansion where
  labels := 1
  body := announce first 1 ++ [jump .psh first, .code .bra [target], mark first]

/-- A return: the address is popped from the value stack. -/
def comeBack (context : Context) : Expansion where
  body := [.code .pop [.register context.scratch], .code .bra [.register context.scratch]]

/-- A breakpoint: the core halts. -/
def breakpoint : Expansion where
  body := [.code .hlt []]

/-! ## Data -/

/-- Two words of data. -/
def doubleWord (context : Context) (value : Nat) : Expansion where
  body := (Word.split value context.wordBits 2).map fun word => .code .dw [.immediate word]

/-- Four words of data, as twice two words. -/
def quadWord (context : Context) (value : Nat) : Expansion where
  body :=
    let parts := Word.halves value (Word.place context.wordBits 2)
    [.code .dd [.immediate parts.high], .code .dd [.immediate parts.low]]

/-! ## Operands -/

/-- The operand in a place, counted from 1. -/
def operandAt (op : Opcode) (operands : List Operand) (position : Nat) :
    Except OperandError Operand :=
  match operands[position - 1]? with
  | some operand => .ok operand
  | none => .error (.wrongCount (.code op) op.slots.length operands.length)

/-- The operand in the first place, which is of the given kind. -/
def leading (kind : OperandKind) (op : Opcode) (operands : List Operand) :
    Except OperandError Operand := do
  let operand ← operandAt op operands 1
  if operand.kind = kind then return operand else throw (.disallowed (.code op) 1 operand.kind)

/-- Looks for the operands that the expansion of an instruction works on: a destination and
    two more, the target of a call or the value of data. -/
def check (op : Opcode) (operands : List Operand) : Except OperandError Unit := do
  match op with
  | .mlt | .div | .mod | .bsl | .bsr =>
    let _ ← leading .register op operands
    let _ ← operandAt op operands 2
    let _ ← operandAt op operands 3
  | .cal => let _ ← operandAt op operands 1
  | .dd | .dq => let _ ← leading .immediate op operands
  | _ => pure ()

/-! ## All expansions -/

/-- The expansion of an instruction, if it has one. Its labels are numbered from
    `first` on. -/
def expand? (context : Context) (first : Nat) : Opcode → List Operand → Option Expansion
  | .mlt, [d, x, y] => multiply context first d x y
  | .div, [d, x, y] => divide context first d x y
  | .mod, [d, x, y] => modulo context first d x y
  | .bsl, [d, x, n] => shiftBy .lsh context first d x n
  | .bsr, [d, x, n] => shiftBy .rsh context first d x n
  | .cal, target :: _ => some (call first target)
  | .ret, _ => some (comeBack context)
  | .brk, _ => some breakpoint
  | .dd, .immediate value :: _ => some (doubleWord context value)
  | .dq, .immediate value :: _ => some (quadWord context value)
  | _, _ => none

end Expansion
end Wordcode
