/-!
# Labels

A *label* stands for an address that is known only once a program is placed in
memory. Labels are told apart by their identity alone: a name, where there is one,
serves only for display. A `LabelTable` hands out identities and remembers which
names it gave them to; a `Resolution` says at which address a label ended up.

* `Label.Same`: the equality of labels, by identity;
* `LabelTable.create`, `LabelTable.fresh`: the two ways to come by a label;
* `LabelTable.lookup_of_create`: a created label is found by its name;
* `Resolution.addressOf_of_bind`: a label is bound at most once and never rebound.
-/

namespace Wordcode

/-- A symbolic address. The name is for display only. -/
structure Label where
  id : Nat
  name : Option String
  deriving DecidableEq, Repr, Inhabited

namespace Label

/-- A label without a name. -/
def anonymous (id : Nat) : Label := ⟨id, none⟩

/-- Two labels are the same if they have the same identity, whatever their names. -/
def Same (a b : Label) : Prop := a.id = b.id

instance (a b : Label) : Decidable (a.Same b) := inferInstanceAs (Decidable (a.id = b.id))

/-- A label as it is written: a dot and its name, or one made up from its identity. -/
def render (label : Label) : String :=
  match label.name with
  | some name => "." ++ name
  | none => ".__" ++ label.id.repr

end Label

/-- The labels of one program: the next identity to hand out, and the identities of
    the names in use. -/
structure LabelTable where
  nextId : Nat := 0
  named : List (String × Nat) := []
  deriving DecidableEq, Repr, Inhabited

namespace LabelTable

/-- The table that has handed out nothing. -/
def empty : LabelTable := {}

/-- The label that has a given name. -/
def lookup (table : LabelTable) (name : String) : Option Label :=
  (table.named.lookup name).map fun id => ⟨id, some name⟩

/-- Hands out a label without a name. -/
def fresh (table : LabelTable) : Label × LabelTable :=
  (.anonymous table.nextId, { table with nextId := table.nextId + 1 })

/-- Hands out a label with a name. If the name is in use, the label that has it is
    given back instead. -/
def create (table : LabelTable) (name : String) : Except Label (Label × LabelTable) :=
  match table.lookup name with
  | some label => .error label
  | none =>
    .ok (⟨table.nextId, some name⟩,
      { nextId := table.nextId + 1, named := (name, table.nextId) :: table.named })

/-- The name this table gave to the identity of a label. -/
def nameOf (table : LabelTable) (label : Label) : Option String :=
  (table.named.find? fun entry => entry.2 == label.id).map (·.1)

/-- The number of labels with a name. -/
def size (table : LabelTable) : Nat := table.named.length

/-- A name is in use exactly if no label can be created for it. -/
theorem create_eq_error_iff {table : LabelTable} {name : String} {label : Label} :
    table.create name = .error label ↔ table.lookup name = some label := by
  unfold create
  cases h : table.lookup name <;> simp

/-- A created label is found by its name, and every other name is found as before. -/
theorem lookup_of_create {table table' : LabelTable} {name : String} {label : Label}
    (h : table.create name = .ok (label, table')) (other : String) :
    table'.lookup other = if other = name then some label else table.lookup other := by
  unfold create at h
  split at h
  · cases h
  · cases h
    by_cases ho : other = name
    · subst ho
      simp [lookup]
    · have hb : (other == name) = false := by simpa using ho
      simp [lookup, List.lookup_cons, hb, ho]

end LabelTable

/-- The addresses of labels, by identity. -/
structure Resolution where
  bound : List (Nat × Nat) := []
  deriving DecidableEq, Repr, Inhabited

namespace Resolution

/-- The resolution that binds no label. -/
def empty : Resolution := {}

/-- The address a label is bound to. -/
def addressOf (resolution : Resolution) (label : Label) : Option Nat :=
  resolution.bound.lookup label.id

/-- Binds a label to an address. If it is bound already, its address is given back
    instead. -/
def bind (resolution : Resolution) (label : Label) (address : Nat) : Except Nat Resolution :=
  match resolution.addressOf label with
  | some earlier => .error earlier
  | none => .ok ⟨(label.id, address) :: resolution.bound⟩

/-- The number of bound labels. -/
def size (resolution : Resolution) : Nat := resolution.bound.length

/-- A bound label has its address, and every other label the one it had. -/
theorem addressOf_of_bind {resolution resolution' : Resolution} {label : Label} {address : Nat}
    (h : resolution.bind label address = .ok resolution') (other : Label) :
    resolution'.addressOf other =
      if other.Same label then some address else resolution.addressOf other := by
  unfold bind at h
  split at h
  · cases h
  · cases h
    by_cases ho : other.id = label.id
    · simp [addressOf, Label.Same, ho]
    · have hb : (other.id == label.id) = false := by simpa using ho
      simp [addressOf, List.lookup_cons, Label.Same, hb, ho]

end Resolution
end Wordcode
