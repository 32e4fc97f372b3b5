import Reclamation.Memory.ComponentRegistry

/-!
# Objects

What memory holds: a tag that names the type, a payload, and the bookkeeping by which the object's
life is decided. Only records refer to other objects. A strong field keeps its target in memory, a
weak one does not.
-/

set_option autoImplicit false

namespace Reclamation

/-! ## Types -/

/-- The number by which the runtime knows a type. -/
abbrev TypeTag := Nat

/-- The fields of the objects of a type. -/
structure TypeLayout where
  fieldCount : Nat
  /-- The bit of a field is set if it is weak. Fields that have no bit are strong. -/
  weakMask : UInt64
  deriving DecidableEq, Repr

namespace TypeLayout

/-- Whether the field at an index is weak. -/
def isWeak (l : TypeLayout) (index : Nat) : Bool :=
  index < 64 && l.weakMask.toNat.testBit index

/-- For each field whether it is weak. -/
def weakFlags (l : TypeLayout) : List Bool :=
  (List.range l.fieldCount).map l.isWeak

theorem length_weakFlags (l : TypeLayout) : l.weakFlags.length = l.fieldCount := by
  simp [weakFlags]

end TypeLayout

/-! ## Payloads -/

/-- A field that may refer to an object. -/
structure RefField where
  weak : Bool
  target : Option Ref := none
  deriving DecidableEq, Repr

/-- The contents of an object. -/
inductive Payload where
  | int (value : Int)
  /-- A floating-point number, by its bits. -/
  | float (bits : UInt64)
  | record (fields : List RefField)
  deriving DecidableEq, Repr

/-- A record of empty fields, each weak or not as its flag says. -/
def Payload.ofFlags (weak : List Bool) : Payload :=
  .record (weak.map fun w => { weak := w })

/-! ## Objects -/

/-- What an allocation asks for. -/
structure ObjectSpec where
  tag : TypeTag
  payload : Payload := .record []
  /-- Whether several threads may count references at once. -/
  shared : Bool := false
  /-- Whether references from fields are counted apart from those of the program. -/
  symmetric : Bool := false
  deriving DecidableEq, Repr

/-- The number of an arena. -/
abbrev ArenaId := Nat

/-- Where the storage of an object comes from. -/
inductive Origin where
  | heap
  /-- A slot of the pool, so that handles can name the object. -/
  | slot
  | arena (id : ArenaId)
  deriving DecidableEq, Repr

/-- An object in memory. -/
structure Object extends ObjectSpec where
  origin : Origin := .heap
  /-- The generation of the storage when the object was placed in it. -/
  generation : Nat := 1
  /-- The references that are counted; of a symmetric object only those of the program. -/
  count : UInt32 := 1
  /-- The references from fields to a symmetric object. -/
  internal : UInt32 := 0
  /-- The frozen component that the object belongs to. -/
  component : Option ComponentId := none
  /-- Whether the fields can no longer be written. -/
  frozen : Bool := false
  deriving DecidableEq, Repr

namespace Object

/-- The fields of an object; a number has none. -/
def fields (o : Object) : List RefField :=
  match o.payload with
  | .record fields => fields
  | .int _ | .float _ => []

/-- The targets of the strong fields, in the order of the fields. -/
def strongTargets (o : Object) : List Ref :=
  o.fields.filterMap fun f => if f.weak then none else f.target

/-- The weak fields that refer to something: index and target. -/
def weakTargets (o : Object) : List (Nat × Ref) :=
  o.fields.zipIdx.filterMap fun (f, i) => if f.weak then f.target.map (i, ·) else none

/-- The arena that holds an object. -/
def arena? (o : Object) : Option ArenaId :=
  match o.origin with
  | .arena id => some id
  | .heap | .slot => none

/-- The target of the field at an index. -/
def target? (o : Object) (index : Nat) : Option Ref :=
  o.fields[index]?.bind (·.target)

/-- Write a field; an index out of range changes nothing. -/
def setTarget (o : Object) (index : Nat) (target : Option Ref) : Object :=
  match o.payload with
  | .record fields =>
    { o with payload := .record (fields.modify index fun f => { f with target }) }
  | .int _ | .float _ => o

theorem length_fields_setTarget (o : Object) (index : Nat) (target : Option Ref) :
    (o.setTarget index target).fields.length = o.fields.length := by
  unfold setTarget fields
  cases h : o.payload <;> simp [h]

/-- Writing a field leaves every other field alone. -/
theorem target?_setTarget (o : Object) (index j : Nat) (target : Option Ref) :
    (o.setTarget index target).target? j =
      if index = j then o.fields[j]?.bind fun _ => target else o.target? j := by
  unfold setTarget target? fields
  cases hp : o.payload with
  | int v => simp [hp]
  | float v => simp [hp]
  | record fields =>
    simp only [List.getElem?_modify]
    by_cases h : index = j
    · subst h
      cases fields[index]? <;> simp
    · simp [h]

end Object

end Reclamation
