import Wordcode.Tier
import Wordcode.Word

/-!
# Configurations

A *configuration* describes the machine a program is meant for. Every tool takes it
as an argument. Only a machine requires it to be valid.
-/

namespace Wordcode

/-- The machine that programs are written for. -/
structure Config where
  /-- The number of registers of a core, the zero register among them. -/
  registers : Nat := 8
  /-- The greatest depth of a value stack and of a call stack. -/
  maxStack : Nat := 256
  ramWords : Nat := 256
  romWords : Nat := 0
  /-- Whether programs are loaded into ROM and executed there, and not in RAM. -/
  executeFromRom : Bool := false
  /-- The width of a word. -/
  wordBits : Nat := 8
  /-- The highest tier the target executes. -/
  maxTier : Tier := .customPragma
  /-- For how many milliseconds a machine runs at most. -/
  maxRunTime : Nat := 10000
  /-- Whether a run ends after every tick. -/
  singleStep : Bool := false
  cores : Nat := 1
  deriving DecidableEq, Repr

/-- What a machine must have at least one of. -/
inductive Resource where
  | register
  | core
  | codeWord
  deriving DecidableEq, Repr

/-- Why a configuration is invalid. -/
inductive ConfigError where
  | wordWidth (bits : Nat)
  | missing (resource : Resource)
  | tierLevel (level : Nat)
  deriving DecidableEq, Repr

namespace Resource

/-- A resource as messages name it. -/
def name : Resource → String
  | .register => "register"
  | .core => "core"
  | .codeWord => "word of code memory"

end Resource

namespace ConfigError

/-- The text of an error. -/
def message : ConfigError → String
  | .wordWidth bits => "word width must be between 1 and 64 bits, not " ++ bits.repr
  | .missing resource => "at least one " ++ resource.name ++ " is required"
  | .tierLevel level => level.repr ++ " is not a tier level"

end ConfigError

namespace Config

/-- The largest value of a word. -/
def mask (config : Config) : Nat := Word.mask config.wordBits

/-- The size of the memory that programs are loaded into. -/
def codeWords (config : Config) : Nat :=
  if config.executeFromRom then config.romWords else config.ramWords

/-- The configuration for a target tier given by its level. -/
def withTierLevel (config : Config) (level : Nat) : Except ConfigError Config :=
  match Tier.ofLevel? level with
  | some tier => .ok { config with maxTier := tier }
  | none => .error (.tierLevel level)

/-- The first reason why no machine can have this configuration. -/
def invalid? (config : Config) : Option ConfigError :=
  if config.wordBits = 0 ∨ Word.maxBits < config.wordBits then some (.wordWidth config.wordBits)
  else if config.registers = 0 then some (.missing .register)
  else if config.cores = 0 then some (.missing .core)
  else if config.codeWords = 0 then some (.missing .codeWord)
  else none

/-- A configuration some machine can have. -/
structure Valid (config : Config) : Prop where
  wordBits_pos : 0 < config.wordBits
  wordBits_le : config.wordBits ≤ Word.maxBits
  registers_pos : 0 < config.registers
  cores_pos : 0 < config.cores
  codeWords_pos : 0 < config.codeWords

/-- There is no reason against a configuration exactly if it is valid. -/
theorem invalid?_eq_none_iff (config : Config) : config.invalid? = none ↔ config.Valid := by
  unfold invalid?
  constructor
  · intro h
    split at h
    · simp at h
    split at h
    · simp at h
    split at h
    · simp at h
    split at h
    · simp at h
    constructor <;> omega
  · rintro ⟨h₁, h₂, h₃, h₄, h₅⟩
    rw [if_neg (by omega), if_neg (by omega), if_neg (by omega), if_neg (by omega)]

end Config
end Wordcode
