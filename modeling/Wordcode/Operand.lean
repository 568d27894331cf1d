import Wordcode.Label

/-!
# Operands

An *operand* of an instruction is a register, an immediate value or a label. What
an instruction accepts in one of its places is a set of operand *kinds*.
-/

namespace Wordcode

/-- What an instruction works on. Register 0 always reads as zero. -/
inductive Operand where
  | register (index : Nat)
  | immediate (value : Nat)
  | label (label : Label)
  deriving DecidableEq, Repr, Inhabited

/-- The three kinds of operands. -/
inductive OperandKind where
  | register
  | immediate
  | label
  deriving DecidableEq, Repr, Inhabited

namespace OperandKind

/-- A kind as messages name it. -/
def name : OperandKind → String
  | .register => "register"
  | .immediate => "immediate"
  | .label => "label"

end OperandKind

namespace Operand

/-- The register that always reads as zero. -/
def zero : Operand := .register 0

/-- The kind of an operand. -/
def kind : Operand → OperandKind
  | .register _ => .register
  | .immediate _ => .immediate
  | .label _ => .label

/-- The index of a register operand. -/
def register? : Operand → Option Nat
  | .register index => some index
  | _ => none

/-- The label of a label operand. -/
def label? : Operand → Option Label
  | .label l => some l
  | _ => none

/-- An operand as it is written in assembly text. -/
def render : Operand → String
  | .register index => "R" ++ index.repr
  | .immediate value => value.repr
  | .label l => l.render

end Operand

/-- A set of operand kinds. -/
structure KindSet where
  registers : Bool
  immediates : Bool
  labels : Bool
  deriving DecidableEq, Repr, Inhabited

namespace KindSet

/-- No kind. -/
def empty : KindSet := ⟨false, false, false⟩

/-- Registers only. -/
def register : KindSet := ⟨true, false, false⟩

/-- Immediates only. -/
def immediate : KindSet := ⟨false, true, false⟩

/-- Labels only. -/
def label : KindSet := ⟨false, false, true⟩

/-- What can be read as a value: a register or an immediate. -/
def value : KindSet := ⟨true, true, false⟩

/-- What is known before the program runs: an immediate or a label. -/
def address : KindSet := ⟨false, true, true⟩

/-- All kinds. -/
def any : KindSet := ⟨true, true, true⟩

/-- Whether a kind belongs to the set. -/
def allows (kinds : KindSet) : OperandKind → Bool
  | .register => kinds.registers
  | .immediate => kinds.immediates
  | .label => kinds.labels

/-- Whether no kind belongs to the set. -/
def isEmpty (kinds : KindSet) : Bool := kinds == empty

/-- The kinds that belong to at least one of two sets. -/
def union (s t : KindSet) : KindSet :=
  ⟨s.registers || t.registers, s.immediates || t.immediates, s.labels || t.labels⟩

instance : Union KindSet := ⟨union⟩

/-- A kind belongs to a union if it belongs to one of the sets. -/
theorem allows_union (s t : KindSet) (k : OperandKind) :
    (s ∪ t).allows k = (s.allows k || t.allows k) := by
  cases k <;> rfl

end KindSet
end Wordcode
