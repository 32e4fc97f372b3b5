import Mathlib
import Reclamation.Proofs.Graph.Components
import Reclamation.Proofs.TypeGraph.Paths

/-!
# The cyclic components of some types

The search for cycles is asked about some types and some references, and looks at nothing else: a cycle that needs
another type or another reference is none (`LeadsWithin`). It leaves out references of a type to itself and targets that
are not declared, neither of which leads anywhere that one gets back from (`leadsWithin_iff`).

So what it finds are the largest sets of two or more of the types that all lead to each other, each set once and as a
list without repetition, and none of them leads to a set that is listed later (`cyclicComponents_exact`).
-/

set_option autoImplicit false

namespace Reclamation.TypeGraph

variable {g : TypeGraph} {types : List TypeId} {follow : Reference → Bool} {u v : TypeId} {s : Finset TypeId}

/-! ## Leading within some types -/

/-- One gets from one type to the other along accepted references, from type to type of a list. -/
def LeadsWithin (g : TypeGraph) (types : List TypeId) (follow : Reference → Bool) : TypeId → TypeId → Prop :=
  Relation.ReflTransGen fun u v =>
    u ∈ types ∧ v ∈ types ∧ ∃ r ∈ g.references, follow r = true ∧ r.id.owner = u ∧ r.target = v

/-- The search gets to every declared type that one gets to within the list. -/
theorem leadsWithin_iff (hu : u ∈ types) (hv : v < g.size) :
    g.LeadsWithin types follow u v ↔ (g.linksWithin types follow).graph.Reaches u v := by
  constructor
  · intro h
    induction h with
    | refl => exact .refl u
    | @tail x v _ hstep ih =>
      obtain ⟨hx, hv', r, hr, hfollow, rfl, rfl⟩ := hstep
      -- a type with a reference is declared
      have hreach := ih (owner_lt_of_field? (mem_references.1 hr).1)
      by_cases hself : r.id.owner = r.target
      · rwa [hself] at hreach
      · exact hreach.trans (linksWithin_edge_iff.2 ⟨hself, hv, hv', r, hr, hfollow, rfl, rfl⟩).reaches
  · intro h
    induction h with
    | refl => exact .refl
    | step hedge _ ih =>
      obtain ⟨-, -, hx, hreference⟩ := linksWithin_edge_iff.1 hedge
      exact .head ⟨hu, hx, hreference⟩ (ih hx hv)

/-- A type that leads to another one is declared. -/
theorem LeadsWithin.lt_size (h : g.LeadsWithin types follow u v) (hne : u ≠ v) : u < g.size := by
  rcases Relation.ReflTransGen.cases_head h with rfl | ⟨x, ⟨-, -, r, hr, -, rfl, -⟩, -⟩
  · exact absurd rfl hne
  · exact owner_lt_of_field? (mem_references.1 hr).1

/-- Types of the list that lead to each other do so in the search. -/
theorem mutual_of_leadsWithin (hu : u ∈ types) (hv : v ∈ types) (huv : g.LeadsWithin types follow u v)
    (hvu : g.LeadsWithin types follow v u) : (g.linksWithin types follow).graph.Mutual u v := by
  by_cases hne : u = v
  · subst hne
    exact ⟨.refl u, .refl u⟩
  · exact ⟨(leadsWithin_iff hu (hvu.lt_size (Ne.symm hne))).1 huv, (leadsWithin_iff hv (huv.lt_size hne)).1 hvu⟩

/-! ## Components -/

/-- Two or more types of a list that all lead to each other within the list. -/
structure Circular (g : TypeGraph) (types : List TypeId) (follow : Reference → Bool) (s : Finset TypeId) : Prop where
  two : 2 ≤ s.card
  within : ∀ u ∈ s, u ∈ types
  leads : ∀ u ∈ s, ∀ v ∈ s, g.LeadsWithin types follow u v

/-- What the search finds are declared types of the list. -/
theorem of_mem_component {c : List TypeId} (hc : c ∈ (g.linksWithin types follow).components types) (hu : u ∈ c) :
    u ∈ types ∧ u < g.size := by
  obtain ⟨r, hr, hlt, hru⟩ := Links.exists_component_iff.1 ⟨c, hc, hu⟩
  refine ⟨?_, hru.lt_size hlt⟩
  clear hc hu hlt
  induction hru with
  | refl => exact hr
  | step hedge _ ih =>
    obtain ⟨-, -, hx, -⟩ := linksWithin_edge_iff.1 hedge
    exact ih hx

/-- The types that are found are those of the list that a cycle within the list goes through. -/
theorem exists_cyclicComponent_iff : (∃ c ∈ g.cyclicComponents types follow, u ∈ c) ↔
    u ∈ types ∧ u < g.size ∧ ∃ v, v ≠ u ∧ (g.linksWithin types follow).graph.Mutual u v := by
  constructor
  · rintro ⟨c, hc, hu⟩
    obtain ⟨hcomponent, htwo⟩ := mem_cyclicComponents.1 hc
    obtain ⟨hin, hlt⟩ := of_mem_component hcomponent hu
    rw [← List.toFinset_card_of_nodup (Links.component_nodup hcomponent)] at htwo
    obtain ⟨v, hv, hne⟩ := Finset.exists_mem_ne htwo u
    exact ⟨hin, hlt, v, hne, (Links.mem_component_iff hcomponent hu).1 (List.mem_toFinset.1 hv)⟩
  · rintro ⟨hin, hlt, v, hne, huv⟩
    obtain ⟨c, hcomponent, hu⟩ := Links.exists_component_iff.2
      ⟨u, hin, hlt, Digraph.Reaches.refl (g := (g.linksWithin types follow).graph) u⟩
    have hv : v ∈ c := (Links.mem_component_iff hcomponent hu).2 huv
    have htwo : 1 < c.toFinset.card :=
      Finset.one_lt_card.2 ⟨v, List.mem_toFinset.2 hv, u, List.mem_toFinset.2 hu, hne⟩
    exact ⟨c, mem_cyclicComponents.2 ⟨hcomponent, htwo.trans_le (List.toFinset_card_le c)⟩, hu⟩

theorem circular_of_mem {c : List TypeId} (hc : c ∈ g.cyclicComponents types follow) :
    g.Circular types follow c.toFinset := by
  obtain ⟨hcomponent, htwo⟩ := mem_cyclicComponents.1 hc
  refine ⟨?_, fun u hu => (of_mem_component hcomponent (List.mem_toFinset.1 hu)).1, fun u hu v hv => ?_⟩
  · rwa [List.toFinset_card_of_nodup (Links.component_nodup hcomponent)]
  · have hv := List.mem_toFinset.1 hv
    have hmutual := (Links.mem_component_iff hcomponent (List.mem_toFinset.1 hu)).1 hv
    have hu := (of_mem_component hcomponent (List.mem_toFinset.1 hu)).1
    exact (leadsWithin_iff hu (of_mem_component hcomponent hv).2).2 hmutual.1

/-- Types that lead to each other are in one component. -/
theorem Circular.subset (h : g.Circular types follow s) {c : List TypeId}
    (hc : c ∈ (g.linksWithin types follow).components types) (hu : u ∈ s) (huc : u ∈ c) : s ⊆ c.toFinset := by
  intro v hv
  rw [List.mem_toFinset, Links.mem_component_iff hc huc]
  exact mutual_of_leadsWithin (h.within u hu) (h.within v hv) (h.leads u hu v hv) (h.leads v hv u hu)

/-- The search finds the types that lead to each other together. -/
theorem Circular.exists_component (h : g.Circular types follow s) :
    ∃ c ∈ g.cyclicComponents types follow, s ⊆ c.toFinset := by
  obtain ⟨u, hu, v, hv, hne⟩ := Finset.one_lt_card.1 h.two
  have huv := h.leads u hu v hv
  obtain ⟨c, hc, huc⟩ := exists_cyclicComponent_iff.2
    ⟨h.within u hu, huv.lt_size hne, v, hne.symm,
      mutual_of_leadsWithin (h.within u hu) (h.within v hv) huv (h.leads v hv u hu)⟩
  exact ⟨c, hc, h.subset (mem_cyclicComponents.1 hc).1 hu huc⟩

/-- The search for cycles finds exactly the largest sets of two or more of the types that all lead to each other along
accepted references within the list, each set once and each type in it once. A set comes before every other one that
leads to it. -/
theorem cyclicComponents_exact (g : TypeGraph) (types : List TypeId) (follow : Reference → Bool) :
    let components := g.cyclicComponents types follow
    (∀ s, (∃ c ∈ components, c.toFinset = s) ↔ Maximal (g.Circular types follow) s) ∧
      (∀ c ∈ components, c.Nodup) ∧ (components.map List.toFinset).Nodup ∧
      components.Pairwise fun c d => ∀ u ∈ c, ∀ v ∈ d, ¬ g.LeadsWithin types follow u v := by
  intro components
  have hfirst : components.Pairwise fun c d => ∀ u ∈ c, ∀ v ∈ d, ¬ g.LeadsWithin types follow u v := by
    have hsinks : components.Pairwise fun c d =>
        ∀ u ∈ c, ∀ v ∈ d, ¬ (g.linksWithin types follow).graph.Reaches u v := by
      rw [show components = _ from Links.componentsWhere_eq _]
      exact Links.components_sinks_first.filter _
    refine hsinks.imp_of_mem fun {c d} hc hd hcd u hu v hv huv => ?_
    have hin := (of_mem_component (mem_cyclicComponents.1 hc).1 hu).1
    have hlt := (of_mem_component (mem_cyclicComponents.1 hd).1 hv).2
    exact hcd u hu v hv ((leadsWithin_iff hin hlt).1 huv)
  refine ⟨fun s => ⟨?_, fun hs => ?_⟩, fun c hc => Links.component_nodup (mem_cyclicComponents.1 hc).1, ?_, hfirst⟩
  · rintro ⟨c, hc, rfl⟩
    refine ⟨circular_of_mem hc, fun t ht hsubset => ?_⟩
    obtain ⟨u, hu⟩ := Links.exists_mem_of_mem_components (mem_cyclicComponents.1 hc).1
    exact ht.subset (mem_cyclicComponents.1 hc).1 (hsubset (List.mem_toFinset.2 hu)) hu
  · obtain ⟨c, hc, hsubset⟩ := hs.prop.exists_component
    exact ⟨c, hc, (hs.eq_of_le (circular_of_mem hc) hsubset).symm⟩
  · refine List.pairwise_map.2 (hfirst.imp_of_mem fun {c d} hc _ hcd he => ?_)
    obtain ⟨u, hu⟩ := Links.exists_mem_of_mem_components (mem_cyclicComponents.1 hc).1
    exact hcd u hu u (List.mem_toFinset.1 (he ▸ List.mem_toFinset.2 hu)) .refl

end Reclamation.TypeGraph
