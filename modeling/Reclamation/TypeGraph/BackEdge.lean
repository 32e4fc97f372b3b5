import Reclamation.Analysis.Options
import Reclamation.Text.Words
import Reclamation.TypeGraph.Reach

/-!
# Back edges

A reference that points backward in a hierarchy (from a child to its parent, from a node to the one
before it) must not own its target, or cycles of owners would never be freed. Three rules decide
which references are weak, the first that applies winning:

1. an annotation is final;
2. a reference with a back-edge word in its name is weak if its target leads back to its owner, so
   that a sole owning reference which happens to be called `parent` stays strong;
3. a strong reference that closes a cycle of several types on a depth-first walk is weak. The walk
   takes the types and their fields in the order of declaration.

A type's reference to itself is never weakened by the third rule: one strong reference of a type to
itself is the spine of a list.
-/

set_option autoImplicit false

namespace Reclamation

/-- Why a field was made weak. -/
inductive WeakReason where
  | annotated
  | heuristic
  | structural
  deriving DecidableEq, Repr

/-- The weak fields of a graph with the reasons, in the order in which they were decided. -/
structure BackEdgeReport where
  decided : List (FieldId × WeakReason) := []
  deriving DecidableEq, Repr

namespace BackEdgeReport

/-- Why a field was made weak, if it was. -/
def reason? (r : BackEdgeReport) (f : FieldId) : Option WeakReason :=
  (r.decided.find? (·.1 == f)).map (·.2)

/-- Whether a field was made weak. -/
def isWeak (r : BackEdgeReport) (f : FieldId) : Bool :=
  r.decided.any (·.1 == f)

end BackEdgeReport

/-- Whether a name has one of the words as a whole word, in any case. -/
def AnalysisOptions.matchesWord (o : AnalysisOptions) (name : String) : Bool :=
  let words := o.backEdgeWords.map Text.lowercaseString
  (Text.words name).any fun word => words.contains word

namespace TypeGraph

/-! ## The rules -/

/-- The graph with the strengths that the annotations ask for and no other weak field. -/
def annotatedOnly (g : TypeGraph) : TypeGraph :=
  { nodes := g.nodes.map fun n =>
      { n with fields := n.fields.map fun f =>
          { f with strength := Marking.strength f.marking } } }

/-- The graph with the given fields made weak. -/
def weaken (g : TypeGraph) (fields : List FieldId) : TypeGraph :=
  fields.foldl (fun g id => g.modifyField id ({ · with strength := .weak })) g

/-- The fields annotated as weak, in order. -/
def annotatedWeak (g : TypeGraph) : List FieldId :=
  (g.fields.filter (·.2.marking == some .weak)).map (·.1)

/-- The references that are weak for their name, in order. -/
def namedBackEdges (g : TypeGraph) (o : AnalysisOptions) : List FieldId :=
  (g.references.filter fun r =>
    r.field.marking.isNone && o.matchesWord r.field.name && g.leadsTo r.target r.id.owner).map
      (·.id)

/-- The references that close a cycle of several types on a depth-first walk along strong
references, unless an annotation keeps them, in the order in which the walk meets them. -/
def structuralBackEdges (g : TypeGraph) : List FieldId :=
  let strong := g.referenceGraph fun r => !r.field.isWeak && !r.isSelf
  ((strong.backEdges (List.range g.size)).filter (·.field.marking.isNone)).map (·.id)

/-- Decide anew which references are weak. -/
def detectBackEdges (g : TypeGraph) (o : AnalysisOptions) : TypeGraph × BackEdgeReport :=
  let g := g.annotatedOnly
  let annotated := g.annotatedWeak
  -- weak references lead on like strong ones, so these decisions do not bear on each other
  let named := g.namedBackEdges o
  let g := g.weaken named
  let structural := if o.structural then g.structuralBackEdges else []
  (g.weaken structural,
    { decided := annotated.map (·, .annotated) ++ named.map (·, .heuristic)
        ++ structural.map (·, .structural) })

end TypeGraph

end Reclamation
