import Wordcode.Operation

/-!
# Instructions

An instruction stream is a list of *instructions*: opcodes with their operands, and
notes. `Instruction.build` checks operands against the signature of an operation;
what passes is `Instruction.WellFormed`. `Instruction.render` writes an instruction
the way assembly text has it.

* `Instruction.build_code_eq_ok_iff`: exactly the well-formed instructions are built.
-/

namespace Wordcode

/-- An entry of an instruction stream that occupies no memory. -/
inductive Note where
  /-- Announces a label before its first use. -/
  | createLabel (label : Label)
  /-- Places a label at the address of the instruction that follows. -/
  | markLabel (label : Label)
  | comment (text : String)
  | pragma (text : String)
  /-- Opens the instructions of a macro of the given name. -/
  | macroBegin (name : String)
  /-- Closes the instructions of a macro. -/
  | macroEnd
  /-- States the highest register index of the program. -/
  | maxReg (index : Nat)
  /-- States how many words of RAM the program needs. -/
  | minRam (words : Nat)
  deriving DecidableEq, Repr

/-- An entry of an instruction stream. -/
inductive Instruction where
  | code (op : Opcode) (operands : List Operand)
  | note (note : Note)
  deriving DecidableEq, Repr

/-- Why operands do not suit an operation. -/
inductive OperandError where
  | wrongCount (operation : Operation) (expected found : Nat)
  | disallowed (operation : Operation) (position : Nat) (kind : OperandKind)
  deriving DecidableEq, Repr

namespace OperandError

/-- The text of an error. -/
def message : OperandError → String
  | .wrongCount operation expected found =>
    operation.name ++ " takes " ++ expected.repr ++ " operand(s) but was given " ++ found.repr
  | .disallowed operation position kind =>
    "operand " ++ position.repr ++ " of " ++ operation.name ++ " cannot be a " ++ kind.name

end OperandError

namespace Signature

/-- The first operand of a kind its place does not accept, with its position. The
    first place has the position given. -/
def disallowed? (position : Nat) : List KindSet → List Operand → Option (Nat × OperandKind)
  | kinds :: slots, operand :: operands =>
    if kinds.allows operand.kind then disallowed? (position + 1) slots operands
    else some (position, operand.kind)
  | _, _ => none

/-- Whether operands fill the places of a signature with kinds they accept. -/
def accepts : List KindSet → List Operand → Bool
  | [], [] => true
  | kinds :: slots, operand :: operands => kinds.allows operand.kind && accepts slots operands
  | _, _ => false

/-- Operands are accepted exactly if their number is right and none is disallowed. -/
theorem accepts_iff (position : Nat) (slots : List KindSet) (operands : List Operand) :
    accepts slots operands = true ↔
      operands.length = slots.length ∧ disallowed? position slots operands = none := by
  induction slots generalizing position operands with
  | nil => cases operands <;> simp [accepts, disallowed?]
  | cons kinds slots ih =>
    cases operands with
    | nil => simp [accepts]
    | cons operand operands =>
      rw [accepts, disallowed?, Bool.and_eq_true, ih (position + 1)]
      by_cases h : kinds.allows operand.kind = true <;> simp [h]

end Signature

namespace Note

/-- The kind of a note. -/
def kind : Note → NoteKind
  | .createLabel _ => .createLabel
  | .markLabel _ => .markLabel
  | .comment _ => .comment
  | .pragma _ => .pragma
  | .macroBegin _ => .macroBegin
  | .macroEnd => .macroEnd
  | .maxReg _ => .maxReg
  | .minRam _ => .minRam

/-- What a note says as an operand: a label or a number. -/
def operands : Note → List Operand
  | .createLabel label | .markLabel label => [.label label]
  | .maxReg count | .minRam count => [.immediate count]
  | .comment _ | .pragma _ | .macroBegin _ | .macroEnd => []

/-- The note of a kind that says the given operands. Where a note has a text, the
    text is empty. -/
def ofOperands? : NoteKind → List Operand → Option Note
  | .createLabel, [.label label] => some (.createLabel label)
  | .markLabel, [.label label] => some (.markLabel label)
  | .comment, [] => some (.comment "")
  | .pragma, [] => some (.pragma "")
  | .macroBegin, [] => some (.macroBegin "")
  | .macroEnd, [] => some .macroEnd
  | .maxReg, [.immediate index] => some (.maxReg index)
  | .minRam, [.immediate words] => some (.minRam words)
  | _, _ => none

/-- A note as assembly text. Announcements and macro bounds are comments there. -/
def render : Note → String
  | .createLabel label => "// label " ++ label.render
  | .markLabel label => label.render
  | .comment text => "// " ++ text
  | .pragma text => "@" ++ text
  | .macroBegin name => "// macro " ++ name
  | .macroEnd => "// end macro"
  | .maxReg index => "@minreg " ++ index.repr
  | .minRam words => "@minram " ++ words.repr

end Note

namespace Instruction

/-- What an instruction does. -/
def operation : Instruction → Operation
  | .code op _ => .code op
  | .note n => .note n.kind

/-- What an instruction works on, in order. -/
def operands : Instruction → List Operand
  | .code _ operands => operands
  | .note n => n.operands

/-- An instruction whose operands suit its operation. -/
def WellFormed (i : Instruction) : Prop :=
  Signature.accepts i.operation.signature.slots i.operands = true

instance (i : Instruction) : Decidable i.WellFormed := inferInstanceAs (Decidable (_ = true))

/-- The instruction of an operation and operands, if these suit it. A wrong number of
    operands is found before an operand of a wrong kind. -/
def build (operation : Operation) (operands : List Operand) : Except OperandError Instruction :=
  if operands.length ≠ operation.arity then
    .error (.wrongCount operation operation.arity operands.length)
  else
    match Signature.disallowed? 1 operation.signature.slots operands with
    | some (position, kind) => .error (.disallowed operation position kind)
    | none =>
      match operation with
      | .code op => .ok (.code op operands)
      | .note kind =>
        match Note.ofOperands? kind operands with
        | some n => .ok (.note n)
        -- the signatures of notes leave no other operands
        | none => .error (.wrongCount operation operation.arity operands.length)

/-- Exactly the well-formed instructions of an opcode can be built. -/
theorem build_code_eq_ok_iff {op : Opcode} {operands : List Operand} {i : Instruction} :
    build (.code op) operands = .ok i ↔ i = .code op operands ∧ i.WellFormed := by
  have hw := Signature.accepts_iff 1 op.slots operands
  unfold build
  constructor
  · intro h
    split at h
    · cases h
    · next hl =>
      split at h
      · cases h
      · next hd =>
        cases h
        refine ⟨rfl, hw.2 ⟨?_, hd⟩⟩
        simpa [Operation.arity, Operation.signature, Opcode.signature] using hl
  · rintro ⟨rfl, h⟩
    obtain ⟨hl, hd⟩ := hw.1 h
    rw [if_neg (by simpa [Operation.arity, Operation.signature, Opcode.signature] using hl)]
    simp [Operation.signature, Opcode.signature, hd]

/-- The words an instruction occupies in memory. -/
def footprint (i : Instruction) : Nat := i.operation.footprint

/-- The label that a note announces or places. -/
def label? : Instruction → Option Label
  | .note (.createLabel label) | .note (.markLabel label) => some label
  | _ => none

/-- The indices of the registers among the operands. -/
def registers (i : Instruction) : List Nat := i.operands.filterMap Operand.register?

/-- The highest register among the operands, if there is a register. -/
def highestRegister? (i : Instruction) : Option Nat := i.registers.max?

/-- Whether a register is among the operands. -/
def usesRegister (i : Instruction) (index : Nat) : Bool := i.registers.contains index

/-- The labels among the operands, in order. -/
def labels (i : Instruction) : List Label := i.operands.filterMap Operand.label?

/-- A name followed by operands, as in assembly text. -/
def renderApplied (name : String) (operands : List String) : String :=
  if operands.isEmpty then name else name ++ " " ++ ", ".intercalate operands

/-- An instruction as assembly text. -/
def render : Instruction → String
  | .code op operands => renderApplied op.name (operands.map Operand.render)
  | .note n => n.render

end Instruction
end Wordcode
