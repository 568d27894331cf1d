import Wordcode.Operation

/-!
# Faults

A *fault* is what a core cannot go on from. It halts the core that raised it.
-/

namespace Wordcode

/-- Why a core cannot go on. -/
inductive FaultKind where
  | memoryOutOfRange (address size : Nat)
  | registerOutOfRange (index count : Nat)
  | stackOverflow (limit : Nat)
  | stackUnderflow
  | callStackOverflow (limit : Nat)
  | unresolvedLabel (label : Label)
  | unsupportedPort (port : Nat)
  | malformedData (address : Nat)
  | invalidOperand (operation : Operation) (position : Nat)
  deriving DecidableEq, Repr

/-- A fault and the core that raised it. -/
structure Fault where
  core : Nat
  kind : FaultKind
  deriving DecidableEq, Repr

namespace FaultKind

/-- The text of a fault, whichever core raised it. -/
def message : FaultKind → String
  | .memoryOutOfRange address size =>
    "address " ++ address.repr ++ " is outside of RAM (size " ++ size.repr ++ ")"
  | .registerOutOfRange index count =>
    "register R" ++ index.repr ++ " exceeds the configured " ++ count.repr ++ " registers"
  | .stackOverflow limit => "value stack overflow (limit " ++ limit.repr ++ ")"
  | .stackUnderflow => "value stack underflow"
  | .callStackOverflow limit => "call stack overflow (limit " ++ limit.repr ++ ")"
  | .unresolvedLabel label => "unresolved label " ++ label.render
  | .unsupportedPort port => "port " ++ port.repr ++ " is not supported"
  | .malformedData address => "malformed data at address " ++ address.repr
  | .invalidOperand operation position =>
    "operand " ++ position.repr ++ " of " ++ operation.name ++ " is missing or of the wrong kind"

end FaultKind

namespace Fault

/-- The text of a fault. -/
def message (fault : Fault) : String := "core " ++ fault.core.repr ++ ": " ++ fault.kind.message

end Fault
end Wordcode
