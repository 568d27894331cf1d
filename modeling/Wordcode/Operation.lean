import Wordcode.Operand
import Wordcode.Tier

/-!
# Operations

An instruction either computes, and then has an `Opcode`, or is a *note*: an entry
that occupies no memory and tells the tools something about the program. Both have
a name, a tier and a `Signature`, the operand kinds accepted in each place.

The opcodes are listed by tier, most portable first; the notes come last.
-/

namespace Wordcode

/-- What an instruction of the machine does. -/
inductive Opcode where
  -- arithmetic and logic
  | add | sub | inc | dec | cmp
  | and | or | xor | nand | nor | xnor | not | lsh | rsh
  -- data movement
  | mov | imm | load | store | psh | pop
  -- control flow
  | bra | brz | bnz | brc | bnc | brp | brn | bev | bod | hlt
  -- one word of data
  | dw
  -- shifts by a count, calls
  | bsl | bsr | cal | ret
  -- multiplication and division, data of two and four words
  | mlt | div | mod | dd | dq
  -- breakpoint, ports
  | brk | inp | out
  | nop
  deriving DecidableEq, Repr, Inhabited

/-- The kinds of notes in an instruction stream. -/
inductive NoteKind where
  | createLabel | markLabel | comment | pragma | macroBegin | macroEnd | maxReg | minRam
  deriving DecidableEq, Repr, Inhabited

/-- What an entry of an instruction stream does. -/
inductive Operation where
  | code (op : Opcode)
  | note (kind : NoteKind)
  deriving DecidableEq, Repr, Inhabited

/-- What is required of an operation's operands and of its target. -/
structure Signature where
  /-- The least tier of a target that executes the operation. -/
  tier : Tier
  /-- The kinds accepted in each place. There are as many operands as places. -/
  slots : List KindSet
  /-- Whether a target of a lower tier must be given an equivalent. -/
  requiresConverter : Bool := false
  deriving DecidableEq, Repr

namespace Opcode

/-- All opcodes, by tier. -/
def all : List Opcode :=
  [.add, .sub, .inc, .dec, .cmp, .and, .or, .xor, .nand, .nor, .xnor, .not, .lsh, .rsh,
    .mov, .imm, .load, .store, .psh, .pop,
    .bra, .brz, .bnz, .brc, .bnc, .brp, .brn, .bev, .bod, .hlt, .dw,
    .bsl, .bsr, .cal, .ret, .mlt, .div, .mod, .dd, .dq, .brk, .inp, .out, .nop]

/-- The mnemonic of an opcode. -/
def name : Opcode → String
  | .add => "ADD" | .sub => "SUB" | .inc => "INC" | .dec => "DEC" | .cmp => "CMP"
  | .and => "AND" | .or => "OR" | .xor => "XOR" | .nand => "NAND" | .nor => "NOR"
  | .xnor => "XNOR" | .not => "NOT" | .lsh => "LSH" | .rsh => "RSH"
  | .mov => "MOV" | .imm => "IMM" | .load => "LOAD" | .store => "STORE"
  | .psh => "PSH" | .pop => "POP"
  | .bra => "BRA" | .brz => "BRZ" | .bnz => "BNZ" | .brc => "BRC" | .bnc => "BNC"
  | .brp => "BRP" | .brn => "BRN" | .bev => "BEV" | .bod => "BOD" | .hlt => "HLT"
  | .dw => "DW"
  | .bsl => "BSL" | .bsr => "BSR" | .cal => "CAL" | .ret => "RET"
  | .mlt => "MLT" | .div => "DIV" | .mod => "MOD" | .dd => "DD" | .dq => "DQ"
  | .brk => "BRK" | .inp => "IN" | .out => "OUT"
  | .nop => "NOP"

/-- A destination register and two values. -/
def ternary : List KindSet := [.register, .value, .value]

/-- A destination register and a value. -/
def unary : List KindSet := [.register, .value]

/-- The operand kinds of each opcode. -/
def slots : Opcode → List KindSet
  | .add | .sub | .and | .or | .xor | .nand | .nor | .xnor => ternary
  | .bsl | .bsr | .mlt | .div | .mod => ternary
  | .inc | .dec | .not | .lsh | .rsh | .mov => unary
  | .cmp => [.value, .value]
  | .imm => [.register, .address]
  | .load => [.register, .any]
  | .store => [.any, .value]
  | .psh => [.any]
  | .pop => [.register]
  | .bra | .brz | .bnz | .brc | .bnc | .brp | .brn | .cal => [.any]
  | .bev | .bod => [.any, .value]
  | .dw => [.address]
  | .dd | .dq => [.immediate]
  | .inp => [.register, .value]
  | .out => [.value, .any]
  | .hlt | .ret | .brk | .nop => []

/-- The tier of each opcode. -/
def tier : Opcode → Tier
  | .bsl | .bsr | .cal | .ret => .basic
  | .mlt | .div | .mod | .dd | .dq => .complex
  | .brk | .inp | .out => .custom
  | .nop => .customPragma
  | _ => .core

/-- The signature of each opcode. Only a breakpoint cannot do without an equivalent
    on a target of a lower tier. -/
def signature (op : Opcode) : Signature where
  tier := op.tier
  slots := op.slots
  requiresConverter := op == .brk

/-- The number of words an instruction occupies in memory. -/
def footprint : Opcode → Nat
  | .dd => 2
  | .dq => 4
  | _ => 1

/-- Further names under which an opcode is known. -/
def aliases : List (String × Opcode) := [("LOD", .load), ("STR", .store)]

/-- The opcode of a given name or alias, in capitals. -/
def ofName? (name : String) : Option Opcode :=
  (all.find? (·.name == name)).or (aliases.lookup name)

/-- The opcode of a mnemonic in assembly text, where capitals do not matter. -/
def ofMnemonic? (text : String) : Option Opcode :=
  ofName? (text.map Char.toUpper)

end Opcode

namespace NoteKind

/-- All kinds of notes. -/
def all : List NoteKind :=
  [.createLabel, .markLabel, .comment, .pragma, .macroBegin, .macroEnd, .maxReg, .minRam]

/-- The name of a kind of notes. -/
def name : NoteKind → String
  | .createLabel => "COMPILER_CREATELABEL"
  | .markLabel => "COMPILER_MARKLABEL"
  | .comment => "COMPILER_COMMENT"
  | .pragma => "COMPILER_PRAGMA"
  | .macroBegin => "COMPILER_MACRO_BEGIN"
  | .macroEnd => "COMPILER_MACRO_END"
  | .maxReg => "COMPILER_MAXREG"
  | .minRam => "COMPILER_MINRAM"

/-- The signature of each kind of notes. -/
def signature (kind : NoteKind) : Signature where
  tier := .pragma
  slots := match kind with
    | .createLabel | .markLabel => [.label]
    | .maxReg | .minRam => [.immediate]
    | .comment | .pragma | .macroBegin | .macroEnd => []

end NoteKind

namespace Operation

/-- All operations: the opcodes, then the notes. -/
def all : List Operation := Opcode.all.map code ++ NoteKind.all.map note

/-- The name of an operation. -/
def name : Operation → String
  | .code op => op.name
  | .note kind => kind.name

/-- The signature of an operation. -/
def signature : Operation → Signature
  | .code op => op.signature
  | .note kind => kind.signature

/-- The least tier of a target that executes the operation. -/
def tier (operation : Operation) : Tier := operation.signature.tier

/-- The number of operands. -/
def arity (operation : Operation) : Nat := operation.signature.slots.length

/-- Whether entries with this operation are notes, which every target allows. -/
def isNote : Operation → Bool
  | .code _ => false
  | .note _ => true

/-- The number of words an entry occupies in memory. -/
def footprint : Operation → Nat
  | .code op => op.footprint
  | .note _ => 0

/-- The operation of a given name, spelled exactly. -/
def ofName? (name : String) : Option Operation :=
  ((Opcode.ofName? name).map code).or ((NoteKind.all.find? (·.name == name)).map note)

end Operation
end Wordcode
