import Reclamation.Analysis.Error

/-!
# The type graph

A program declares aggregate types with named fields; a field holds a plain value or refers to an
object of a type. The graph of these references is what back-edge detection and shape
classification read. A type is known by its place in the order of declaration, and a field by its
type and its place in it, so identifiers need no storage of their own.

A reference is strong when it owns what it refers to. Declaring a field gives it the strength its
annotation asks for (strong without one); only back-edge detection changes strengths afterwards.
-/

set_option autoImplicit false

namespace Reclamation

/-! ## Fields -/

/-- Whether a reference owns what it refers to. -/
inductive Strength where
  | strong
  | weak
  deriving DecidableEq, Repr

/-- What the programmer says about a field; nothing overrides it. -/
inductive Marking where
  | weak
  | strong
  deriving DecidableEq, Repr

/-- What a field holds. -/
inductive FieldTarget where
  /-- A reference to a declared type. -/
  | type (id : TypeId)
  /-- A plain value. -/
  | scalar
  /-- A reference to a type that could not be found. -/
  | unresolved (name : String)
  deriving DecidableEq, Repr

namespace FieldTarget

/-- The type referred to, if it is known. -/
def type? : FieldTarget → Option TypeId
  | type id => some id
  | scalar | unresolved _ => none

theorem eq_type_of_type? {target : FieldTarget} {id : TypeId} (h : target.type? = some id) : target = .type id := by
  cases target with
  | type _ => exact congrArg FieldTarget.type (Option.some.inj h)
  | scalar => exact absurd h (by simp [type?])
  | unresolved _ => exact absurd h (by simp [type?])

/-- Whether the field holds a reference, be its type known or not. -/
def isReference : FieldTarget → Bool
  | scalar => false
  | type _ | unresolved _ => true

/-- Whether the field holds a reference to a type that could not be found. -/
def isUnresolved : FieldTarget → Bool
  | unresolved _ => true
  | type _ | scalar => false

end FieldTarget

/-- The strength that an annotation asks for; a field without one is strong. -/
def Marking.strength : Option Marking → Strength
  | some .weak => .weak
  | some .strong | none => .strong

/-- A field of a type. -/
structure Field where
  name : String
  target : FieldTarget
  strength : Strength
  marking : Option Marking
  deriving DecidableEq, Repr

namespace Field

/-- A field as it is declared. -/
def declare (name : String) (target : FieldTarget) (marking : Option Marking) : Field :=
  { name, target, strength := Marking.strength marking, marking }

/-- Whether the field is weak. -/
def isWeak (f : Field) : Bool :=
  f.strength == .weak

/-- The type referred to by a strong field. -/
def strongTarget? (f : Field) : Option TypeId :=
  if f.isWeak then none else f.target.type?

end Field

/-! ## Types -/

/-- A declared type. -/
structure TypeNode where
  name : String
  fields : Array Field := #[]
  deriving DecidableEq, Repr

/-- How many of a type's fields hold references. -/
def TypeNode.referenceCount (n : TypeNode) : Nat :=
  n.fields.toList.countP (·.target.isReference)

/-- The declared types of a program, in order. -/
structure TypeGraph where
  nodes : Array TypeNode := #[]
  deriving DecidableEq, Repr

namespace TypeGraph

/-- The bytes in front of the fields of an object, for estimates of its size. -/
def objectHeaderSize : Nat := 48

/-- The bytes of one field of an object, for estimates of its size. -/
def fieldSize : Nat := 8

/-- How many types are declared. -/
def size (g : TypeGraph) : Nat :=
  g.nodes.size

/-- The type of a given name. -/
def lookup (g : TypeGraph) (name : String) : Option TypeId :=
  g.nodes.findIdx? (·.name == name)

/-- A declared type. -/
def node (g : TypeGraph) (id : TypeId) : Except AnalysisError TypeNode :=
  match g.nodes[id]? with
  | some n => .ok n
  | none => .error (.unknownType id)

/-- A field of a declared type. -/
def field (g : TypeGraph) (id : FieldId) : Except AnalysisError Field := do
  let n ← g.node id.owner
  match n.fields[id.index]? with
  | some f => .ok f
  | none => .error (.unknownField id)

/-- The fields of a type with their identifiers, in order; none if the type is not declared. -/
def fieldsOf (g : TypeGraph) (id : TypeId) : List (FieldId × Field) :=
  match g.nodes[id]? with
  | some n => n.fields.toList.zipIdx.map fun (f, i) => (⟨id, i⟩, f)
  | none => []

/-- The fields of all types with their identifiers, in order. -/
def fields (g : TypeGraph) : List (FieldId × Field) :=
  (List.range g.size).flatMap g.fieldsOf

/-- Declare a type. A name that is declared already keeps its type. -/
def addType (g : TypeGraph) (name : String) : TypeGraph × TypeId :=
  match g.lookup name with
  | some id => (g, id)
  | none => ({ nodes := g.nodes.push { name } }, g.size)

/-- Change a field of a declared type; elsewhere there is nothing to change. -/
def modifyField (g : TypeGraph) (id : FieldId) (change : Field → Field) : TypeGraph :=
  { nodes := g.nodes.modify id.owner fun n =>
      { n with fields := n.fields.modify id.index change } }

/-- Declare a field. What it refers to has to be declared before, then the type that gets it, and
that type must not have a field of the same name. -/
def addField (g : TypeGraph) (owner : TypeId) (name : String) (target : FieldTarget)
    (marking : Option Marking) : Except AnalysisError (TypeGraph × FieldId) := do
  if let some id := target.type? then
    let _ ← g.node id
  let n ← g.node owner
  if n.fields.any (·.name == name) then
    throw (.duplicateField n.name name)
  let declared := Field.declare name target marking
  return ({ nodes := g.nodes.modify owner fun n => { n with fields := n.fields.push declared } },
    ⟨owner, n.fields.size⟩)

/-- Declare a reference without an annotation. -/
def addRef (g : TypeGraph) (owner : TypeId) (name : String) (target : TypeId) :
    Except AnalysisError (TypeGraph × FieldId) :=
  g.addField owner name (.type target) none

/-- Declare a field that holds a plain value. -/
def addScalar (g : TypeGraph) (owner : TypeId) (name : String) :
    Except AnalysisError (TypeGraph × FieldId) :=
  g.addField owner name .scalar none

/-- Set the strength of a field. -/
def setStrength (g : TypeGraph) (id : FieldId) (s : Strength) :
    Except AnalysisError TypeGraph := do
  let _ ← g.field id
  return g.modifyField id ({ · with strength := s })

/-- The weak fields of a type, in order. -/
def weakFields (g : TypeGraph) (id : TypeId) : Except AnalysisError (List FieldId) := do
  let _ ← g.node id
  return ((g.fieldsOf id).filter (·.2.isWeak)).map (·.1)

/-- The bytes that an object of a type is expected to take. -/
def estimatedSize (g : TypeGraph) (id : TypeId) : Except AnalysisError Nat := do
  let n ← g.node id
  return objectHeaderSize + n.fields.size * fieldSize

end TypeGraph

end Reclamation
