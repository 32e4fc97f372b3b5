import Std.Data.HashSet
import Reclamation.Graph.Components
import Reclamation.TypeGraph.Basic

/-!
# Reachability among types

The references of a type graph as a `Digraph`, and the questions asked of it: which types can be
reached from a type, does one reach another, and which types form cycles. Reachability follows
strong and weak references alike. For cycles the caller says which references count and among
which types; a reference of a type to itself never does.
-/

set_option autoImplicit false

namespace Reclamation

/-- A reference with a known target: where it is, the field, and the type it refers to. -/
structure Reference where
  id : FieldId
  field : Field
  target : TypeId
  deriving DecidableEq, Repr

/-- Whether a type refers to itself. -/
def Reference.isSelf (r : Reference) : Bool :=
  r.target == r.id.owner

namespace TypeGraph

/-- The references of a type with known targets, in order. -/
def referencesOf (g : TypeGraph) (id : TypeId) : List Reference :=
  (g.fieldsOf id).filterMap fun (id, field) => field.target.type?.map fun target =>
    { id, field, target }

/-- The references of all types with known targets, in order. -/
def references (g : TypeGraph) : List Reference :=
  (List.range g.size).flatMap g.referencesOf

/-- The references that are accepted, as edges between types. -/
def referenceGraph (g : TypeGraph) (follow : Reference → Bool) : Digraph Reference where
  size := g.size
  out id := ((g.referencesOf id).filter follow).map fun r => (r, r.target)

/-- The types reachable from a type, itself first, in the order of a depth-first walk. -/
def reachableFrom (g : TypeGraph) (root : TypeId) : List TypeId :=
  (g.referenceGraph fun _ => true).preorder [root]

/-- Whether references lead from one type to the other. -/
def leadsTo (g : TypeGraph) (source target : TypeId) : Bool :=
  target ∈ g.reachableFrom source

/-- The types reachable from a declared type. -/
def reachable (g : TypeGraph) (root : TypeId) : Except AnalysisError (List TypeId) := do
  let _ ← g.node root
  return g.reachableFrom root

/-- Whether references lead from a declared type to another. -/
def reaches (g : TypeGraph) (source target : TypeId) : Except AnalysisError Bool := do
  let _ ← g.node source
  return g.leadsTo source target

/-- The fields of the types, followed where they hold an accepted reference to another type of a list. -/
def linksWithin (g : TypeGraph) (types : List TypeId) (follow : Reference → Bool) :
    Links (FieldId × Field) :=
  let inside := Std.HashSet.ofList types
  { size := g.size
    fields := g.fieldsOf
    target? := fun owner (id, field) => field.target.type?.filter fun target =>
      target != owner && inside.contains target && follow { id, field, target } }

/-- The sets of two or more types of a list that reach each other inside the list through accepted
references, sinks first. -/
def cyclicComponents (g : TypeGraph) (types : List TypeId) (follow : Reference → Bool) :
    List (List TypeId) :=
  (g.linksWithin types follow).componentsWhere (fun c => 1 < c.length) types

/-- Whether every type of a list is declared. -/
def declares (g : TypeGraph) (types : List TypeId) : Bool :=
  types.all fun t => decide (t < g.size)

end TypeGraph

end Reclamation
