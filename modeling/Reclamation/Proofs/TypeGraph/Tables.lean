import Mathlib
import Reclamation.Proofs.Graph.Tables
import Reclamation.Proofs.TypeGraph.Declarations

/-!
# Questions about types over tables

The questions that are asked of a type graph, answered with tables that have one cell for each type: which types can
be reached, which types form cycles, and what the shape of a type is. A table has no cell for a number that is not a
type's, and an answer stops where it needs one.

In a well-formed graph no answer stops there. A declared type gets the answer that the library gives, and a type that
is not declared is refused.
-/

set_option autoImplicit false

namespace Reclamation.TypeGraph

variable {g : TypeGraph} {t : TypeId} {types : List TypeId}

theorem WellFormed.closed_referenceGraph (hg : g.WellFormed) (follow : Reference → Bool) :
    (g.referenceGraph follow).Closed := by
  intro u r v hout
  obtain ⟨hr, -, rfl, -⟩ := mem_referenceGraph_out.1 hout
  exact hg.target_lt hr

theorem WellFormed.closed_linksWithin (hg : g.WellFormed) (types : List TypeId) (follow : Reference → Bool) :
    (g.linksWithin types follow).graph.Closed := by
  intro u field v hout
  obtain ⟨⟨id, f⟩, hfield, hlink⟩ := List.mem_filterMap.1 hout
  obtain ⟨w, htarget, he⟩ := Option.map_eq_some_iff.1 hlink
  obtain ⟨-, rfl⟩ := Prod.mk.inj he
  have htype := (Option.filter_eq_some_iff.1 htarget).1
  exact hg.target_lt (r := ⟨id, f, w⟩) (mem_references.2 ⟨(mem_fieldsOf.1 hfield).2, htype⟩)

/-- A declared type; another one is refused. -/
def needType (g : TypeGraph) (t : TypeId) : Except Stop TypeNode :=
  (g.node t).mapError .refused

theorem needType_of_lt (ht : t < g.size) : g.needType t = .ok g.nodes[t] := by
  rw [needType, node_of_lt ht]
  rfl

theorem needType_of_le (ht : g.size ≤ t) : g.needType t = .error (.refused (.unknownType t)) := by
  rw [needType, node_of_le ht]
  rfl

/-! ## What can be reached -/

/-- The types reachable from a declared type, with the marks in a table. -/
def reachableInTable (g : TypeGraph) (root : TypeId) : Except Stop (List TypeId) := do
  let _ ← g.needType root
  let events ← (g.referenceGraph fun _ => true).walkInTable [root]
  return events.filterMap Event.entered?

theorem reachableInTable_of_lt (hg : g.WellFormed) (ht : t < g.size) :
    g.reachableInTable t = .ok (g.reachableFrom t) := by
  have hwalk : (g.referenceGraph fun _ => true).walkInTable [t] = .ok ((g.referenceGraph fun _ => true).walk [t]) := by
    refine Digraph.walkInTable_eq_ok (hg.closed_referenceGraph _) fun r hr => ?_
    rw [List.mem_singleton.1 hr]
    exact ht
  rw [reachableInTable, needType_of_lt ht, hwalk]
  rfl

theorem reachableInTable_of_le (ht : g.size ≤ t) : g.reachableInTable t = .error (.refused (.unknownType t)) := by
  rw [reachableInTable, needType_of_le ht]
  rfl

/-- Whether references lead from a declared type to another, with the marks in a table. -/
def reachesInTable (g : TypeGraph) (source target : TypeId) : Except Stop Bool := do
  let types ← g.reachableInTable source
  return decide (target ∈ types)

theorem reachesInTable_of_lt (hg : g.WellFormed) (ht : t < g.size) (u : TypeId) :
    g.reachesInTable t u = .ok (g.leadsTo t u) := by
  rw [reachesInTable, reachableInTable_of_lt hg ht]
  rfl

/-! ## Cycles and shapes -/

/-- Look up each type of a list, and each type that its fields refer to, in a table. -/
def needCells (g : TypeGraph) (types : List TypeId) : Except Stop Unit :=
  types.forM fun t => do
    needCell g.size t
    let _ ← g.needType t
    (g.referencesOf t).forM fun r => needCell g.size r.target

theorem needCells_eq_ok (hg : g.WellFormed) (htypes : ∀ t ∈ types, t < g.size) : g.needCells types = .ok () := by
  refine forM_eq_ok fun t ht => ?_
  have htargets : (g.referencesOf t).forM (fun r => needCell g.size r.target) = .ok () := by
    refine forM_eq_ok fun r hr => needCell_eq_ok (hg.target_lt ?_)
    exact mem_references.2 (mem_referencesOf.1 hr).2
  rw [needCell_eq_ok (htypes t ht), needType_of_lt (htypes t ht), htargets]
  rfl

/-- The sets of two or more types of a list that reach each other, with what is known of the types in tables. -/
def cyclicComponentsInTable (g : TypeGraph) (types : List TypeId) (follow : Reference → Bool) :
    Except Stop (List (List TypeId)) := do
  g.needCells types
  (g.linksWithin types follow).componentsInTable (fun c => 1 < c.length) types

theorem cyclicComponentsInTable_eq_ok (hg : g.WellFormed) (htypes : ∀ t ∈ types, t < g.size)
    (follow : Reference → Bool) : g.cyclicComponentsInTable types follow = .ok (g.cyclicComponents types follow) := by
  rw [cyclicComponentsInTable, needCells_eq_ok hg htypes]
  exact Links.componentsInTable_eq_ok (hg.closed_linksWithin types follow) _ htypes

/-- The shape of what an object of a type may lead to, with what is known of the types in tables. -/
def classifyInTable (g : TypeGraph) (t : TypeId) : Except Stop ShapeFact := do
  let types ← g.reachableInTable t
  g.needCells types
  if g.hasUnresolved types then return .unresolved
  let cycles ← g.cyclicComponentsInTable types fun _ => true
  if g.hasWeakSelf types || !cycles.isEmpty then
    let strongCycles ← g.cyclicComponentsInTable types fun r => !r.field.isWeak
    return { shape := .cyclic, broken := strongCycles.isEmpty }
  if types.any (g.isShared types) then return .acyclic .dag
  return .acyclic .tree

theorem classifyInTable_of_lt (hg : g.WellFormed) (ht : t < g.size) :
    g.classifyInTable t = .ok (g.shapeOf (g.reachableFrom t)) := by
  have htypes : ∀ u ∈ g.reachableFrom t, u < g.size := by
    intro u hu
    exact (mem_reachableFrom.1 hu).2.lt_size ht
  have hcycles := cyclicComponentsInTable_eq_ok hg htypes
  rw [classifyInTable, reachableInTable_of_lt hg ht, shapeOf]
  simp only [bind, Except.bind, needCells_eq_ok hg htypes, hcycles]
  split
  · rfl
  · split
    · rfl
    · split
      · rfl
      · rfl

theorem classifyInTable_of_le (ht : g.size ≤ t) : g.classifyInTable t = .error (.refused (.unknownType t)) := by
  rw [classifyInTable, reachableInTable_of_le ht]
  rfl

end Reclamation.TypeGraph
