import Mathlib
import Reclamation.Proofs.TypeGraph.Declarations

/-!
# Setting several strengths

Detection sets the strengths of fields one after the other (`TypeGraph.assign`). If no field is set to two strengths,
the order does not matter, and a field that is not set keeps its own (`field?_assign`). So setting every strength to
what the annotation asks for leaves the annotations alone (`assign_marked`).

In between it asks where references lead, which does not depend on strengths (`leadsTo_of_allStrong`).
-/

set_option autoImplicit false

namespace Reclamation.TypeGraph

variable {g g' : TypeGraph}

/-- The graph with the strengths of some fields set, in turn. -/
def assign (g : TypeGraph) (changes : List (FieldId × Strength)) : TypeGraph :=
  changes.foldl (fun g c => g.modifyField c.1 ({ · with strength := c.2 })) g

theorem assign_weak (g : TypeGraph) (ids : List FieldId) : g.assign (ids.map (·, .weak)) = g.weaken ids := by
  rw [assign, List.foldl_map, weaken]

theorem allStrong_assign (g : TypeGraph) (changes : List (FieldId × Strength)) :
    (g.assign changes).allStrong = g.allStrong := by
  induction changes generalizing g with
  | nil => rfl
  | cons c changes ih =>
    show ((g.modifyField c.1 _).assign changes).allStrong = g.allStrong
    rw [ih, allStrong_modifyField]

/-- A field that is only set to one strength has it in the end, and another one keeps its own. -/
theorem field?_assign {id : FieldId} {s : Strength} : ∀ {changes : List (FieldId × Strength)} {g : TypeGraph},
    (∀ c ∈ changes, c.1 = id → c.2 = s) → (g.assign changes).field? id =
      if id ∈ changes.map (·.1) then (g.field? id).map ({ · with strength := s }) else g.field? id
  | [], _, _ => rfl
  | c :: changes, g, h => by
    have ih := field?_assign (g := g.modifyField c.1 ({ · with strength := c.2 })) fun c' hc' =>
      h c' (List.mem_cons_of_mem c hc')
    show ((g.modifyField c.1 _).assign changes).field? id = _
    rw [ih, field?_modifyField]
    by_cases hid : id = c.1
    · obtain rfl := h c List.mem_cons_self hid.symm
      cases g.field? id with
      | none => simp
      | some f => simp [hid]
    · simp only [hid, if_false, List.map_cons, List.mem_cons, false_or]

/-- Graphs that declare the same and have the same fields are the same. -/
theorem eq_of_field? (hall : g.allStrong = g'.allStrong) (h : ∀ id, g.field? id = g'.field? id) : g = g' := by
  obtain ⟨nodes⟩ := g
  obtain ⟨nodes'⟩ := g'
  refine congrArg TypeGraph.mk (Array.ext_getElem? fun t => ?_)
  have hnode := congrArg (·.nodes[t]?) hall
  simp only [allStrong, Array.getElem?_map] at hnode
  cases hn : nodes[t]? with
  | none =>
    rw [hn, Option.map_none] at hnode
    exact (Option.map_eq_none_iff.1 hnode.symm).symm
  | some n =>
    rw [hn, Option.map_some] at hnode
    obtain ⟨n', hn', heq⟩ := Option.map_eq_some_iff.1 hnode.symm
    have hfields : n.fields = n'.fields := by
      refine Array.ext_getElem? fun i => ?_
      have hfield := h ⟨t, i⟩
      simp only [field?, hn, hn', Option.bind_some] at hfield
      exact hfield
    obtain ⟨name, fields⟩ := n
    obtain ⟨name', fields'⟩ := n'
    obtain ⟨rfl, -⟩ := TypeNode.mk.inj heq
    obtain rfl : fields = fields' := hfields
    exact hn'.symm

/-- Setting each strength to what the annotation asks for leaves the annotations alone. -/
theorem assign_marked (g : TypeGraph) :
    g.assign (g.fields.map fun x => (x.1, Marking.strength x.2.marking)) = g.annotatedOnly := by
  refine eq_of_field? (by rw [allStrong_assign, allStrong_annotatedOnly]) fun id => ?_
  have hmarked : ∀ c ∈ g.fields.map (fun x => (x.1, Marking.strength x.2.marking)), c.1 = id →
      ∃ f, g.field? id = some f ∧ c.2 = Marking.strength f.marking := by
    intro c hc hid
    obtain ⟨x, hx, rfl⟩ := List.mem_map.1 hc
    exact ⟨x.2, hid ▸ mem_fields.1 hx, rfl⟩
  rw [field?_annotatedOnly]
  cases hf : g.field? id with
  | none =>
    rw [field?_assign (s := .strong), hf]
    · simp
    · intro c hc hid
      obtain ⟨f, hf', -⟩ := hmarked c hc hid
      exact absurd (hf.symm.trans hf') (by simp)
  | some f =>
    have hmem : id ∈ (g.fields.map fun x => (x.1, Marking.strength x.2.marking)).map (·.1) := by
      simpa using ⟨f, mem_fields.2 hf⟩
    rw [field?_assign (s := Marking.strength f.marking), if_pos hmem, hf]
    · rfl
    · intro c hc hid
      obtain ⟨f', hf', hc⟩ := hmarked c hc hid
      rw [hc, Option.some.inj (hf.symm.trans hf')]

theorem fieldsOf_annotatedOnly (g : TypeGraph) (t : TypeId) : g.annotatedOnly.fieldsOf t =
    (g.fieldsOf t).map fun x => (x.1, { x.2 with strength := Marking.strength x.2.marking }) := by
  simp only [fieldsOf, annotatedOnly, Array.getElem?_map]
  cases g.nodes[t]? with
  | none => rfl
  | some n => simp [List.zipIdx_map, Function.comp_def]

/-- What is annotated as weak does not depend on strengths. -/
theorem annotatedWeak_annotatedOnly (g : TypeGraph) : g.annotatedOnly.annotatedWeak = g.annotatedWeak := by
  have hsize : g.annotatedOnly.size = g.size := by
    simp [annotatedOnly, size]
  have hfields : g.annotatedOnly.fields =
      g.fields.map fun x => (x.1, { x.2 with strength := Marking.strength x.2.marking }) := by
    rw [fields, fields, hsize, List.map_flatMap]
    exact List.flatMap_congr fun t _ => fieldsOf_annotatedOnly g t
  rw [annotatedWeak, hfields, List.filter_map, List.map_map]
  rfl

/-- Weak references lead on like strong ones, so it does not matter which of them are weak by then. -/
theorem leadsTo_of_allStrong (h : g.allStrong = g'.allStrong) (t u : TypeId) : g.leadsTo t u = g'.leadsTo t u := by
  rw [Bool.eq_iff_iff, leadsTo_iff, leadsTo_iff, size_eq_of_allStrong h]
  exact and_congr_right fun _ => ⟨leads_of_allStrong h, leads_of_allStrong h.symm⟩

theorem detectBackEdges_snd (g : TypeGraph) (o : AnalysisOptions) :
    (g.detectBackEdges o).2 =
      { decided := g.annotatedWeak.map (·, .annotated) ++ (g.annotatedOnly.namedBackEdges o).map (·, .heuristic) ++
          (g.closing o).map (·, .structural) } := by
  rw [← annotatedWeak_annotatedOnly]
  rfl

end Reclamation.TypeGraph
