import Reclamation.Ident

/-!
# Places

A place says where a value is: in a local, or in what is found from a local by taking fields and
following pointers. Statements and planned calls name places, and lowered code prints them as C
expressions: a dereference wraps what comes before it and a field is appended.
-/

set_option autoImplicit false

namespace Reclamation

/-- One step from a value to a part of it or to what it points at. -/
inductive Projection where
  | field (index : Nat)
  | deref
  deriving DecidableEq, Repr

/-- A local and the steps that are taken from it, in order. -/
structure Place where
  base : LocalId
  projection : List Projection := []
  deriving DecidableEq, Repr

namespace Place

/-- The place that is a local itself. -/
def ofLocal (l : LocalId) : Place :=
  { base := l }

/-- The local that a place is, if no step is taken from it. -/
def local? (p : Place) : Option LocalId :=
  if p.projection.isEmpty then some p.base else none

/-- Whether a pointer is followed on the way. -/
def isIndirect (p : Place) : Bool :=
  p.projection.contains .deref

/-- The text of a place after one more step. -/
def stepText (text : String) : Projection → String
  | .field index => text ++ "." ++ toString index
  | .deref => "(*" ++ text ++ ")"

/-- The text of a place. -/
def text (p : Place) : String :=
  p.projection.foldl stepText (LocalId.text p.base)

end Place

end Reclamation
