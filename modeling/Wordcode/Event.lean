/-!
# Events

The tools report what they do as *events*: a message with named values, all text.
Events never influence a result.
-/

namespace Wordcode

/-- How much an event matters. -/
inductive Level where
  | debug
  | info
  | warn
  deriving DecidableEq, Repr

namespace Level

/-- A level as reports name it. -/
def name : Level → String
  | .debug => "DEBUG"
  | .info => "INFO"
  | .warn => "WARN"

end Level

/-- A report of something that happened. -/
structure Event where
  level : Level
  message : String
  fields : List (String × String)
  deriving DecidableEq, Repr

namespace Event

/-- A truth value as the text of a field. -/
def flag (b : Bool) : String := if b then "true" else "false"

end Event
end Wordcode
