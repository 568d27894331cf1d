/-!
# Tiers

A *tier* says how portable an operation is. Tiers are ordered from the most to the
least portable one, so a target that executes a tier executes every tier below it
as well. The position of a tier in this order is its level.
-/

namespace Wordcode

/-- How portable an operation is, most portable first. -/
inductive Tier where
  | core
  | basic
  | complex
  | custom
  | pragma
  | customPragma
  deriving DecidableEq, Repr, Inhabited

namespace Tier

/-- All tiers, most portable first. -/
def all : List Tier := [.core, .basic, .complex, .custom, .pragma, .customPragma]

/-- The position of a tier among all tiers. -/
def level : Tier → Nat
  | .core => 0
  | .basic => 1
  | .complex => 2
  | .custom => 3
  | .pragma => 4
  | .customPragma => 5

/-- The tier of a given level. -/
def ofLevel? (level : Nat) : Option Tier := all[level]?

/-- The name a tier is written by. -/
def name : Tier → String
  | .core => "Core"
  | .basic => "Basic"
  | .complex => "Complex"
  | .custom => "Custom"
  | .pragma => "Pragma"
  | .customPragma => "CustomPragma"

/-- The tier of a given name, spelled exactly. -/
def ofName? (name : String) : Option Tier := all.find? (·.name == name)

instance : LE Tier := ⟨fun s t => s.level ≤ t.level⟩

instance : LT Tier := ⟨fun s t => s.level < t.level⟩

instance (s t : Tier) : Decidable (s ≤ t) := inferInstanceAs (Decidable (s.level ≤ t.level))

instance (s t : Tier) : Decidable (s < t) := inferInstanceAs (Decidable (s.level < t.level))

/-- A tier is found again from its level. -/
theorem ofLevel?_level (t : Tier) : ofLevel? t.level = some t := by
  cases t <;> rfl

end Tier
end Wordcode
