import Reclamation.TypeGraph.Reach

/-!
# Shapes

The shape of what an allocation may lead to, read off the types reachable from its type:

* cyclic, if two of them reach each other or one has a weak reference to itself;
* a dag, if no cycle but some type may be shared: two strong references from other types, two from
  itself, or a weak one;
* a tree otherwise.

A cyclic shape is broken when its strong references alone form no cycle of several types. A
reference to a type that could not be found makes the shape unknown, which counts as cyclic.
-/

set_option autoImplicit false

namespace Reclamation

/-! ## Facts -/

/-- The shape of a graph of objects, from the simplest to the most general. -/
inductive Shape where
  | tree
  | dag
  | cyclic
  deriving DecidableEq, Repr

namespace Shape

/-- The place of a shape in the order. -/
def rank : Shape → Nat
  | tree => 0
  | dag => 1
  | cyclic => 2

/-- The more general of two shapes. -/
def join (a b : Shape) : Shape :=
  if a.rank ≤ b.rank then b else a

/-- The text of a shape in reports. -/
def text : Shape → String
  | tree => "TREE"
  | dag => "DAG"
  | cyclic => "CYCLIC"

theorem rank_join (a b : Shape) : (a.join b).rank = max a.rank b.rank := by
  cases a <;> cases b <;> rfl

end Shape

/-- What is known about the shape of an allocation. -/
structure ShapeFact where
  shape : Shape := .tree
  /-- Every cycle passes through a weak reference. -/
  broken : Bool := false
  /-- Some reference has no known target. -/
  unknown : Bool := false
  deriving DecidableEq, Repr

namespace ShapeFact

/-- The fact for a graph without cycles. -/
def acyclic (shape : Shape) : ShapeFact :=
  { shape }

/-- The cautious fact for a graph that is not fully known. -/
def unresolved : ShapeFact :=
  { shape := .cyclic, unknown := true }

/-- Whether the fact leaves no unbroken cycle. -/
def harmless (f : ShapeFact) : Bool :=
  f.shape != .cyclic || f.broken

/-- The fact for two graphs together. Their cycles stay broken only if those of both are. -/
def join (a b : ShapeFact) : ShapeFact :=
  let shape := a.shape.join b.shape
  { shape
    broken := shape == .cyclic && a.harmless && b.harmless
    unknown := a.unknown || b.unknown }

/-- The text of a fact in reports. -/
def text (f : ShapeFact) : String :=
  f.shape.text ++ (if f.broken then " (broken)" else "") ++ (if f.unknown then " (unknown)" else "")

end ShapeFact

/-! ## Classification -/

namespace TypeGraph

/-- Whether some field of the types refers to a type that could not be found. -/
def hasUnresolved (g : TypeGraph) (types : List TypeId) : Bool :=
  types.any fun t => (g.fieldsOf t).any (·.2.target.isUnresolved)

/-- Whether some of the types has a weak reference to itself. -/
def hasWeakSelf (g : TypeGraph) (types : List TypeId) : Bool :=
  types.any fun t => (g.referencesOf t).any fun r => r.isSelf && r.field.isWeak

/-- Whether objects of a type may be shared, going by the references from the given types. -/
def isShared (g : TypeGraph) (types : List TypeId) (t : TypeId) : Bool :=
  let into := (types.flatMap g.referencesOf).filter (·.target == t)
  decide (2 ≤ into.countP fun r => !r.isSelf && !r.field.isWeak)
    || decide (2 ≤ into.countP fun r => r.isSelf && !r.field.isWeak)
    || into.any fun r => !r.isSelf && r.field.isWeak

/-- The fact for the types reachable from an allocation's type. -/
def shapeOf (g : TypeGraph) (types : List TypeId) : ShapeFact :=
  if g.hasUnresolved types then .unresolved
  else if g.hasWeakSelf types || !(g.cyclicComponents types fun _ => true).isEmpty then
    { shape := .cyclic
      broken := (g.cyclicComponents types fun r => !r.field.isWeak).isEmpty }
  else if types.any (g.isShared types) then .acyclic .dag
  else .acyclic .tree

/-- The shape of what an object of a type may lead to. -/
def classify (g : TypeGraph) (t : TypeId) : Except AnalysisError ShapeFact := do
  let types ← g.reachable t
  return g.shapeOf types

end TypeGraph

end Reclamation
