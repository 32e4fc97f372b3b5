/-!
# Identifiers

The things a program is made of are known by number: types and their fields, locals, blocks,
allocation sites. This module gives each kind of number its name and the text by which reports and
errors refer to it.
-/

set_option autoImplicit false

namespace Reclamation

/-! ## Types and fields -/

/-- A declared type, by its place in the order of declaration. -/
abbrev TypeId := Nat

/-- A field: the type that declares it and its place among that type's fields. -/
structure FieldId where
  owner : TypeId
  index : Nat
  deriving DecidableEq, Repr

/-- The text of a type in reports. -/
def TypeId.text (t : TypeId) : String :=
  "T" ++ toString t

/-- The text of a field in reports. -/
def FieldId.text (f : FieldId) : String :=
  TypeId.text f.owner ++ "." ++ toString f.index

/-! ## Parts of a body -/

/-- A local variable of a body. Local zero holds the value that the body returns. -/
abbrev LocalId := Nat

/-- A block of a body, by its place. Block zero is the entry. -/
abbrev BlockId := Nat

/-- An allocation, known by the same number through all analyses. -/
abbrev SiteId := Nat

/-- A global variable. -/
abbrev GlobalId := Nat

/-- The local that holds the value a body returns. -/
def returnLocal : LocalId := 0

/-- The block in which a body starts. -/
def entryBlock : BlockId := 0

/-- A position in a body: a statement of a block or, one past the last statement, the block's
terminator. -/
structure Location where
  block : BlockId
  index : Nat
  deriving DecidableEq, Repr

/-- The text of a local in reports. -/
def LocalId.text (l : LocalId) : String :=
  "_" ++ toString l

/-- The text of a block in reports. -/
def BlockId.text (b : BlockId) : String :=
  "bb" ++ toString b

/-- The text of an allocation in reports. -/
def SiteId.text (s : SiteId) : String :=
  "site" ++ toString s

/-- The text of a position in reports. -/
def Location.text (l : Location) : String :=
  BlockId.text l.block ++ "[" ++ toString l.index ++ "]"

end Reclamation
