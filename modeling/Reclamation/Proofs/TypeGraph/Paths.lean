import Mathlib
import Reclamation.Proofs.Graph.Orders
import Reclamation.Proofs.Graph.Spanning
import Reclamation.Proofs.TypeGraph.BackEdges

/-!
# Where references lead

The two questions that are asked of the references of a type graph are where they lead and where the strong
ones lead: `Leads` and `Owns`. Neither looks at references of a type to itself, which lead nowhere new
(`reaches_mono`), so a walk that leaves them out finds the same.

A field is known by its identifier, and no list of fields or references has an identifier twice.

The types that a type leads to are listed in the order in which a search that goes from field to field comes to
them (`reachable_exact`).
-/

set_option autoImplicit false

namespace Reclamation.TypeGraph

variable {g : TypeGraph}

/-! ## Identifiers -/

theorem nodup_fieldsOf (g : TypeGraph) (t : TypeId) : ((g.fieldsOf t).map (·.1)).Nodup := by
  unfold fieldsOf
  cases g.nodes[t]? with
  | none => exact List.nodup_nil
  | some n =>
    have hindices : (n.fields.toList.zipIdx.map Prod.snd).Nodup := by
      rw [List.zipIdx_map_snd]
      exact List.nodup_range'
    have hids : ((n.fields.toList.zipIdx.map Prod.snd).map (FieldId.mk t)).Nodup :=
      hindices.map fun i j h => (FieldId.mk.inj h).2
    rw [List.map_map] at hids ⊢
    exact hids

theorem nodup_fields (g : TypeGraph) : (g.fields.map (·.1)).Nodup := by
  rw [fields, List.map_flatMap, List.nodup_flatMap]
  refine ⟨fun t _ => g.nodup_fieldsOf t, List.nodup_range.imp fun {t u} htu id ht hu => htu ?_⟩
  obtain ⟨⟨_, f⟩, hf, rfl⟩ := List.mem_map.1 ht
  obtain ⟨⟨_, f'⟩, hf', rfl⟩ := List.mem_map.1 hu
  exact (mem_fieldsOf.1 hf).1.symm.trans (mem_fieldsOf.1 hf').1

/-- The references among some fields have the identifiers of these fields. -/
theorem nodup_filterMap_references {fields : List (FieldId × Field)} (h : (fields.map (·.1)).Nodup) :
    ((fields.filterMap fun (id, field) => field.target.type?.map fun target =>
      ({ id, field, target } : Reference)).map (·.id)).Nodup := by
  rw [List.Nodup, List.pairwise_map] at h ⊢
  refine List.pairwise_filterMap.2 (h.imp fun {f f'} hne r hr r' hr' => ?_)
  obtain ⟨_, -, rfl⟩ := Option.map_eq_some_iff.1 hr
  obtain ⟨_, -, rfl⟩ := Option.map_eq_some_iff.1 hr'
  exact hne

theorem nodup_referencesOf (g : TypeGraph) (t : TypeId) : ((g.referencesOf t).map (·.id)).Nodup :=
  nodup_filterMap_references (g.nodup_fieldsOf t)

theorem nodup_references (g : TypeGraph) : (g.references.map (·.id)).Nodup := by
  have hall := nodup_filterMap_references g.nodup_fields
  rwa [fields, List.filterMap_flatMap] at hall

theorem eq_of_id {r s : Reference} (hr : r ∈ g.references) (hs : s ∈ g.references) (h : r.id = s.id) :
    r = s :=
  List.inj_on_of_nodup_map g.nodup_references hr hs h

/-! ## Edges -/

section Graphs

variable {follow : Reference → Bool} {t u v : TypeId}

theorem referenceGraph_edge_iff : (g.referenceGraph follow).Edge u v ↔
    v < g.size ∧ ∃ r ∈ g.references, follow r = true ∧ r.id.owner = u ∧ r.target = v := by
  refine and_congr Iff.rfl (exists_congr fun r => ?_)
  rw [mem_referenceGraph_out]
  tauto

/-- Each reference is an edge of its own. -/
theorem labelled_referenceGraph (g : TypeGraph) (follow : Reference → Bool) :
    (g.referenceGraph follow).Labelled where
  nodup t := by
    have hlabels : ((g.referenceGraph follow).out t).map Prod.fst = (g.referencesOf t).filter follow := by
      simp [referenceGraph, Function.comp_def]
    rw [hlabels]
    exact ((g.nodup_referencesOf t).of_map).filter _
  source_eq h h' := (mem_referenceGraph_out.1 h).2.1.symm.trans (mem_referenceGraph_out.1 h').2.1

/-- Paths along some references are paths along others, if these lack only references of a type to
itself. -/
theorem reaches_mono {follow' : Reference → Bool}
    (h : ∀ r ∈ g.references, follow r = true → r.isSelf = true ∨ follow' r = true)
    (huv : (g.referenceGraph follow).Reaches u v) : (g.referenceGraph follow').Reaches u v := by
  induction huv with
  | refl => exact .refl _
  | step hedge _ ih =>
    obtain ⟨hlt, r, hr, hfollow, rfl, rfl⟩ := referenceGraph_edge_iff.1 hedge
    rcases h r hr hfollow with hself | hfollow'
    · have htarget : r.target = r.id.owner := by simpa [Reference.isSelf] using hself
      rwa [htarget] at ih
    · exact .step (referenceGraph_edge_iff.2 ⟨hlt, r, hr, hfollow', rfl, rfl⟩) ih

/-! ## Leading to types -/

/-- References of any strength lead from the one type to the other. -/
def Leads (g : TypeGraph) (u v : TypeId) : Prop :=
  (g.referenceGraph fun _ => true).Reaches u v

/-- Strong references lead from the one type to the other. -/
def Owns (g : TypeGraph) (u v : TypeId) : Prop :=
  (g.referenceGraph fun r => !r.field.isWeak).Reaches u v

theorem Leads.refl (g : TypeGraph) (t : TypeId) : g.Leads t t :=
  Digraph.Reaches.refl t

theorem Leads.trans (htu : g.Leads t u) (huv : g.Leads u v) : g.Leads t v :=
  Digraph.Reaches.trans htu huv

theorem Leads.lt_size (h : g.Leads t u) (ht : t < g.size) : u < g.size :=
  Digraph.Reaches.lt_size h ht

theorem Owns.leads (h : g.Owns t u) : g.Leads t u :=
  reaches_mono (fun _ _ _ => .inr rfl) h

/-- A reference leads from its owner to its target. -/
theorem leads_of_mem_references {r : Reference} (hr : r ∈ g.references) (ht : r.target < g.size) :
    g.Leads r.id.owner r.target :=
  (referenceGraph_edge_iff.2 ⟨ht, r, hr, rfl, rfl, rfl⟩).reaches

theorem owns_of_mem_references {r : Reference} (hr : r ∈ g.references) (hstrong : r.field.isWeak = false)
    (ht : r.target < g.size) : g.Owns r.id.owner r.target :=
  (referenceGraph_edge_iff.2 ⟨ht, r, hr, by rw [hstrong]; rfl, rfl, rfl⟩).reaches

/-- The walk of the third rule leaves out references of a type to itself, and they do not matter. -/
theorem strongGraph_reaches_iff : g.strongGraph.Reaches u v ↔ g.Owns u v := by
  refine ⟨reaches_mono fun r _ h => ?_, reaches_mono fun r _ h => ?_⟩
  · simp only [Bool.and_eq_true] at h
    exact .inr h.1
  · cases hself : r.isSelf with
    | true => exact .inl rfl
    | false => exact .inr (by rw [h]; rfl)

theorem mem_reachableFrom : u ∈ g.reachableFrom t ↔ t < g.size ∧ g.Leads t u := by
  simp [reachableFrom, Digraph.mem_preorder, Leads, referenceGraph]

theorem leadsTo_iff : g.leadsTo u v = true ↔ u < g.size ∧ g.Leads u v := by
  rw [leadsTo, decide_eq_true_eq, mem_reachableFrom]

/-- Two types that refer to each other own each other. -/
theorem couple_owns : couple.Owns 0 1 ∧ couple.Owns 1 0 :=
  ⟨owns_of_mem_references (r := ⟨⟨0, 0⟩, .declare "b" (.type 1) none, 1⟩) (by decide) rfl (by decide),
    owns_of_mem_references (r := ⟨⟨1, 0⟩, .declare "a" (.type 0) none, 0⟩) (by decide) rfl (by decide)⟩

end Graphs

/-! ## In the order of the fields -/

/-- The declared types that the fields of a type refer to, in the order of the fields. -/
def targets (g : TypeGraph) (t : TypeId) : List TypeId :=
  ((g.fieldsOf t).filterMap fun (_, f) => f.target.type?).filter (· < g.size)

/-- One gets from one type to the other from field to field. -/
def LeadsAlong (g : TypeGraph) : TypeId → TypeId → Prop :=
  Relation.ReflTransGen fun u v => v ∈ g.targets u

theorem next_referenceGraph (g : TypeGraph) : (g.referenceGraph fun _ => true).next = g.targets := by
  funext t
  have htargets : ((g.referenceGraph fun _ => true).out t).map Prod.snd =
      (g.fieldsOf t).filterMap fun (_, f) => f.target.type? := by
    simp only [referenceGraph, referencesOf, List.filter_true, List.map_filterMap]
    refine List.filterMap_congr fun f _ => ?_
    cases f.2.target.type? <;> rfl
  rw [Digraph.next, htargets]
  rfl

theorem leadsAlong_iff {u v : TypeId} : g.LeadsAlong u v ↔ g.Leads u v := by
  rw [LeadsAlong, Leads, Digraph.reaches_iff_reflTransGen, ← next_referenceGraph]
  simp only [Digraph.mem_next]

/-- The search from a declared type finds exactly the types that fields of any strength lead to, each once, in the
order in which the recursion over the fields comes to them. One type reaches another exactly if fields lead there. -/
theorem reachable_exact (g : TypeGraph) {root : TypeId} (hroot : root < g.size) :
    ∃ order, g.reachable root = .ok order ∧ order.Nodup ∧
      (∀ t, t ∈ order ↔ g.LeadsAlong root t) ∧
      (∀ order', DepthFirst g.targets [root] [] order' ↔ order' = order) ∧
      ∀ t, ∃ answer, g.reaches root t = .ok answer ∧ (answer = true ↔ g.LeadsAlong root t) := by
  have hsearch : DepthFirst g.targets [root] [] (g.reachableFrom root) := by
    rw [← next_referenceGraph]
    exact Digraph.depthFirst_preorder fun r hr => (List.mem_singleton.1 hr).symm ▸ hroot
  have hnode : g.node root = .ok g.nodes[root] := by
    rw [node, Array.getElem?_eq_getElem hroot]
  refine ⟨g.reachableFrom root, reachable_eq_ok hroot, Digraph.preorder_nodup, fun t => ?_, fun order' => ?_,
    fun t => ⟨g.leadsTo root t, ?_, ?_⟩⟩
  · rw [mem_reachableFrom, leadsAlong_iff, and_iff_right hroot]
  · constructor
    · exact fun h => h.unique hsearch
    · rintro rfl
      exact hsearch
  · rw [reaches, hnode]
    rfl
  · rw [leadsTo_iff, leadsAlong_iff, and_iff_right hroot]

/-- A head that refers to its ends, of which the first refers to the last and the last to the head. -/
def triangle : TypeGraph where
  nodes := #[{ name := "Head", fields := #[.declare "first" (.type 1) none, .declare "last" (.type 2) none] },
    { name := "First", fields := #[.declare "next" (.type 2) (some .weak)] },
    { name := "Last", fields := #[.declare "head" (.type 0) none] }]

/-- The last end waits for its turn behind the first, but is entered from there, and leads back. -/
theorem reachable_exact_triangle : 0 < triangle.size ∧ triangle.reachable 0 = .ok [0, 1, 2] ∧
    triangle.reaches 0 2 = .ok true := by
  have hroot : 0 < triangle.size := by decide
  have hsearch : DepthFirst triangle.targets [0] [] [0, 1, 2] := by
    have hlast : DepthFirst triangle.targets (triangle.targets 2) [0, 1, 2] [0, 1, 2] :=
      .pass (by decide) .done
    have hfirst : DepthFirst triangle.targets (triangle.targets 1) [0, 1] [0, 1, 2] :=
      .enter (by decide) hlast .done
    have hhead : DepthFirst triangle.targets (triangle.targets 0) [0] [0, 1, 2] :=
      .enter (by decide) hfirst (.pass (by decide) .done)
    exact .enter (by decide) hhead .done
  obtain ⟨order, hok, -, hmem, horder, hreaches⟩ := reachable_exact triangle hroot
  obtain rfl := (horder _).1 hsearch
  obtain ⟨answer, hanswer, hleads⟩ := hreaches 2
  obtain rfl := hleads.2 ((hmem 2).1 (by decide))
  exact ⟨hroot, hok, hanswer⟩

end Reclamation.TypeGraph
