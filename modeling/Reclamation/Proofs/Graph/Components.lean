import Mathlib
import Reclamation.Proofs.Graph.LowLinks

/-!
# What the components are

`Links.components` is what a search lists, and nothing in the search mentions mutual reachability. Here it is read off
the end of the search that it lists the classes of that relation among the nodes that the roots reach
(`mem_component_iff`, `exists_component_iff`), each once and without repetition, and that a component never reaches
one that is listed later (`components_sinks_first`).

A search that keeps some components only lists those among them (`componentsWhere_eq`).
-/

set_option autoImplicit false

namespace Reclamation

variable {φ : Type} {g : Links φ} {roots : List Nat}

/-! ## Components that are kept -/

namespace Tarjan

/-- The search with some of its components only. -/
def keeping (keep : List Nat → Bool) (s : Tarjan) : Tarjan :=
  { s with components := s.components.filter keep }

theorem close_keeping (keep : List Nat → Bool) (s : Tarjan) (v : Nat) :
    (s.keeping keep).close keep v = (s.close (fun _ => true) v).keeping keep := by
  unfold close keeping
  dsimp only
  rw [if_pos rfl, Array.filter_push]

theorem leave_keeping (keep : List Nat → Bool) (s : Tarjan) (v : Nat) (rest : List (Nat × Nat)) :
    (s.keeping keep).leave keep v rest = (s.leave (fun _ => true) v rest).keeping keep := by
  have hpass : ∀ low, ({ (s.keeping keep).passOn low rest with frames := rest } : Tarjan) =
      ({ s.passOn low rest with frames := rest } : Tarjan).keeping keep := fun low => by
    cases rest <;> rfl
  unfold leave
  dsimp only
  rw [show (s.keeping keep).low = s.low from rfl, show (s.keeping keep).index = s.index from rfl, hpass]
  split
  · rw [close_keeping]
  · rfl

theorem follow_keeping (keep : List Nat → Bool) (s : Tarjan) (v w : Nat) :
    (s.keeping keep).follow g v w = (s.follow g v w).keeping keep := by
  unfold follow
  rw [show (s.keeping keep).index = s.index from rfl, show (s.keeping keep).onStack = s.onStack from rfl]
  by_cases hw : w < g.size
  · rw [if_pos hw, if_pos hw]
    cases s.index[w]? with
    | none => rfl
    | some n =>
      dsimp only
      split <;> rfl
  · rw [if_neg hw, if_neg hw]

theorem step_keeping (keep : List Nat → Bool) (s : Tarjan) :
    step g keep (s.keeping keep) = (step g (fun _ => true) s).map (keeping keep) := by
  unfold step
  rw [show (s.keeping keep).frames = s.frames from rfl]
  rcases s.frames with - | ⟨⟨v, i⟩, rest⟩
  · rfl
  · dsimp only
    rcases (g.fields v)[i]? with - | field
    · exact congrArg some (leave_keeping keep s v rest)
    · dsimp only
      rcases g.target? v field with - | w
      · rfl
      · exact congrArg some (follow_keeping keep { s with frames := (v, i + 1) :: rest } v w)

theorem run_keeping (keep : List Nat → Bool) (s : Tarjan) :
    run g keep (s.keeping keep) = (run g (fun _ => true) s).keeping keep := by
  fun_induction run g (fun _ => true) s with
  | case1 s hstep =>
    rw [run]
    split
    · rfl
    · next hnext =>
      rw [step_keeping, hstep] at hnext
      exact absurd hnext (by simp)
  | case2 s t hstep ih =>
    rw [run]
    split
    · next hnext =>
      rw [step_keeping, hstep] at hnext
      exact absurd hnext (by simp)
    · next t' hnext =>
      rw [step_keeping, hstep] at hnext
      rw [← Option.some.inj hnext, ih]

theorem start_keeping (keep : List Nat → Bool) (s : Tarjan) (v : Nat) :
    start g keep (s.keeping keep) v = (start g (fun _ => true) s v).keeping keep := by
  unfold start
  rw [show (s.keeping keep).index = s.index from rfl]
  split
  · exact run_keeping keep (s.enter v)
  · rfl

end Tarjan

/-! ## Links that agree -/

namespace Tarjan

variable {g' : Links φ} {P : Nat → Prop}

/-- Two searches take the same step if the links agree where they are, and they stay where the links agree. -/
theorem step_congr (hsize : g.size = g'.size) (hfields : ∀ v, P v → g.fields v = g'.fields v)
    (htarget : ∀ v field, P v → g.target? v field = g'.target? v field)
    (hleads : ∀ v field w, P v → g.target? v field = some w → P w) {keep : List Nat → Bool} {s : Tarjan}
    (hs : ∀ frame ∈ s.frames, P frame.1) : step g keep s = step g' keep s ∧
      ∀ t, step g keep s = some t → ∀ frame ∈ t.frames, P frame.1 := by
  unfold step
  rcases hframes : s.frames with - | ⟨⟨v, i⟩, rest⟩
  · exact ⟨rfl, fun t ht => absurd ht (by simp)⟩
  rw [hframes] at hs
  obtain ⟨hv, hrest⟩ := List.forall_mem_cons.1 hs
  have hmoved : ∀ frame ∈ (v, i + 1) :: rest, P frame.1 := List.forall_mem_cons.2 ⟨hv, hrest⟩
  dsimp only
  rw [← hfields v hv]
  rcases (g.fields v)[i]? with - | field
  · refine ⟨rfl, fun t ht => ?_⟩
    obtain rfl := Option.some.inj ht
    rw [(leave_keeps keep s v rest).2]
    exact hrest
  · dsimp only
    rw [← htarget v field hv]
    rcases hw : g.target? v field with - | w
    · refine ⟨rfl, fun t ht => ?_⟩
      obtain rfl := Option.some.inj ht
      exact hmoved
    · dsimp only
      refine ⟨by rw [follow, follow, hsize], fun t ht => ?_⟩
      obtain rfl := Option.some.inj ht
      unfold follow
      split
      · split
        · exact List.forall_mem_cons.2 ⟨hleads v field w hv hw, hmoved⟩
        · split <;> exact hmoved
      · exact hmoved

theorem run_congr (hsize : g.size = g'.size) (hfields : ∀ v, P v → g.fields v = g'.fields v)
    (htarget : ∀ v field, P v → g.target? v field = g'.target? v field)
    (hleads : ∀ v field w, P v → g.target? v field = some w → P w) {keep : List Nat → Bool} {s : Tarjan}
    (hs : ∀ frame ∈ s.frames, P frame.1) : run g keep s = run g' keep s := by
  fun_induction run g keep s with
  | case1 s hnone =>
    obtain ⟨hsame, -⟩ := step_congr hsize hfields htarget hleads hs
    conv_rhs => rw [run]
    split
    · rfl
    · next hsome => exact absurd ((hsame.trans hsome).symm.trans hnone) (by simp)
  | case2 s t hsome ih =>
    obtain ⟨hsame, hstays⟩ := step_congr hsize hfields htarget hleads hs
    conv_rhs => rw [run]
    split
    · next hnone => exact absurd (hsome.symm.trans (hsame.trans hnone)) (by simp)
    · next t' ht' =>
      obtain rfl := Option.some.inj (hsome.symm.trans (hsame.trans ht'))
      exact ih (hstays t hsome)

end Tarjan

namespace Links

/-- The components behind a node depend only on the links from what it leads to. -/
theorem components_congr {g' : Links φ} {P : Nat → Prop} {root : Nat} (hroot : P root) (hsize : g.size = g'.size)
    (hfields : ∀ v, P v → g.fields v = g'.fields v)
    (htarget : ∀ v field, P v → g.target? v field = g'.target? v field)
    (hleads : ∀ v field w, P v → g.target? v field = some w → P w) : g.components [root] = g'.components [root] := by
  have hstart : Tarjan.start g (fun _ => true) {} root = Tarjan.start g' (fun _ => true) {} root := by
    unfold Tarjan.start
    rw [← hsize, Tarjan.run_congr hsize hfields htarget hleads]
    exact List.forall_mem_singleton.2 hroot
  exact congrArg (·.components.toList) hstart

/-- Which components are kept has no influence on the search. -/
theorem componentsWhere_eq (keep : List Nat → Bool) :
    g.componentsWhere keep roots = (g.components roots).filter keep := by
  have hfold : ∀ (roots : List Nat) (s : Tarjan), roots.foldl (Tarjan.start g keep) (s.keeping keep) =
      (roots.foldl (Tarjan.start g fun _ => true) s).keeping keep := by
    intro roots
    induction roots with
    | nil => exact fun _ => rfl
    | cons v rest ih =>
      intro s
      rw [List.foldl_cons, Tarjan.start_keeping, ih, List.foldl_cons]
  rw [components, componentsWhere, componentsWhere, ← Array.toList_filter]
  exact congrArg (·.components.toList) (hfold roots {})

/-! ## The end of the search -/

theorem exists_ended (g : Links φ) (roots : List Nat) : ∃ s, Tarjan.Ended g roots s ∧
    g.components roots = s.components.toList ∧ ∀ r ∈ roots, r < g.size → r ∈ s.index := by
  have hstart : Tarjan.Ended g roots {} := by
    refine ⟨⟨.init g roots, ⟨?_, ?_⟩⟩, rfl⟩
    · exact fun x hx => absurd hx Std.HashMap.not_mem_empty
    · exact fun x hx => absurd hx List.not_mem_nil
  obtain ⟨hended, -, hroots⟩ := hstart.foldl fun r hr => hr
  exact ⟨_, hended, rfl, hroots⟩

theorem classes_components (g : Links φ) (roots : List Nat) : Classes g (g.components roots) := by
  obtain ⟨s, hended, he, -⟩ := g.exists_ended roots
  rw [he]
  exact hended.kept.classes

theorem component_nodup {c : List Nat} (hc : c ∈ g.components roots) : c.Nodup :=
  (g.classes_components roots).nodup c hc

/-- A component is the class of one of its nodes. -/
theorem exists_of_mem_components {c : List Nat} (hc : c ∈ g.components roots) :
    ∃ r ∈ c, ∀ v, v ∈ c ↔ g.graph.Mutual r v :=
  (g.classes_components roots).isClass c hc

/-- Two nodes are in one component exactly when they reach each other. -/
theorem mem_component_iff {c : List Nat} (hc : c ∈ g.components roots) {u v : Nat} (hu : u ∈ c) :
    v ∈ c ↔ g.graph.Mutual u v := by
  obtain ⟨r, -, hmem⟩ := exists_of_mem_components hc
  have hru := (hmem u).1 hu
  rw [hmem]
  exact ⟨fun hrv => hru.symm.trans hrv, fun huv => hru.trans huv⟩

/-- The nodes in components are those that the roots reach. -/
theorem exists_component_iff {v : Nat} :
    (∃ c ∈ g.components roots, v ∈ c) ↔ ∃ r ∈ roots, r < g.size ∧ g.graph.Reaches r v := by
  obtain ⟨s, hended, he, hroots⟩ := g.exists_ended roots
  rw [he, ← hended.mem_index_iff]
  constructor
  · exact hended.kept.reached v
  · intro h
    obtain ⟨r, hr, hlt, hrv⟩ := h
    obtain ⟨c, hc, hrc⟩ := hended.mem_index_iff.1 (hroots r hr hlt)
    exact hended.mem_index_iff.2 (hended.kept.classes.closed c hc r hrc v hrv)

/-- No component reaches one that is listed later. -/
theorem components_sinks_first :
    (g.components roots).Pairwise fun c d => ∀ u ∈ c, ∀ v ∈ d, ¬ g.graph.Reaches u v :=
  (g.classes_components roots).sinksFirst

/-- No two components share a node. -/
theorem components_disjoint : (g.components roots).Pairwise List.Disjoint :=
  components_sinks_first.imp fun h u hu hv => h u hu u hv (.refl u)

theorem exists_mem_of_mem_components {c : List Nat} (hc : c ∈ g.components roots) : ∃ x, x ∈ c := by
  obtain ⟨x, hx, -⟩ := exists_of_mem_components hc
  exact ⟨x, hx⟩

theorem nodup_components : (g.components roots).Nodup :=
  components_sinks_first.imp_of_mem fun {c d} hc _ hfirst he => by
    obtain ⟨x, hx⟩ := exists_mem_of_mem_components hc
    exact hfirst x hx x (he ▸ hx) (.refl x)

/-- If the nodes that a root reaches can be listed so that each reaches those before it and none after it, each of
them is a component, in the order of that list. -/
theorem components_eq_singletons {r : Nat} {l : List Nat} (hr : r < g.size) (hmem : ∀ x, x ∈ l ↔ g.graph.Reaches r x)
    (hordered : l.Pairwise fun x y => g.graph.Reaches y x ∧ ¬ g.graph.Reaches x y) : g.components [r] = l.map ([·]) := by
  let R (x y : Nat) : Prop := (g.graph.Reaches x y ∨ g.graph.Reaches y x) ∧ ¬ g.graph.Mutual x y
  have hsymm : Std.Symm R := ⟨fun x y h => ⟨h.1.symm, fun hxy => h.2 ⟨hxy.2, hxy.1⟩⟩⟩
  have hcompare : l.Pairwise R := hordered.imp fun h => ⟨.inr h.1, fun hxy => h.2 hxy.1⟩
  have hreached : ∀ {x}, (∃ c ∈ g.components [r], x ∈ c) ↔ x ∈ l := fun {x} => by
    rw [exists_component_iff, hmem]
    simp [hr]
  have hsingle : ∀ {c x}, c ∈ g.components [r] → x ∈ c → c = [x] := fun {c x} hc hx => by
    refine List.perm_singleton.1 ((List.perm_ext_iff_of_nodup (component_nodup hc) (List.nodup_singleton x)).2
      fun y => ?_)
    rw [List.mem_singleton]
    refine ⟨fun hy => ?_, fun he => he ▸ hx⟩
    by_contra hne
    have hR := hcompare.forall (hreached.1 ⟨c, hc, hx⟩) (hreached.1 ⟨c, hc, hy⟩) (Ne.symm hne)
    exact hR.2 ((mem_component_iff hc hx).1 hy)
  have hnodup : l.Nodup := hordered.imp fun {x y} h he => h.2 (by rw [he]; exact .refl y)
  have hperm : (g.components [r]).Perm (l.map ([·])) := by
    refine (List.perm_ext_iff_of_nodup nodup_components (hnodup.map List.singleton_injective)).2 fun c => ?_
    constructor
    · intro hc
      obtain ⟨x, hx⟩ := exists_mem_of_mem_components hc
      exact List.mem_map.2 ⟨x, hreached.1 ⟨c, hc, hx⟩, (hsingle hc hx).symm⟩
    · intro hc
      obtain ⟨x, hx, rfl⟩ := List.mem_map.1 hc
      obtain ⟨d, hd, hxd⟩ := hreached.2 hx
      exact hsingle hd hxd ▸ hd
  -- in this order nothing can stand elsewhere
  refine hperm.eq_of_pairwise (fun c d hc hd hcd hdc => ?_) components_sinks_first ?_
  · obtain ⟨x, hx⟩ := exists_mem_of_mem_components hc
    obtain ⟨y, hy, rfl⟩ := List.mem_map.1 hd
    by_contra hne
    have hxy : x ≠ y := fun he => hne (he ▸ hsingle hc hx)
    rcases (hcompare.forall (hreached.1 ⟨c, hc, hx⟩) hy hxy).1 with hreach | hreach
    · exact hcd x hx y (by simp) hreach
    · exact hdc y (by simp) x hx hreach
  · refine List.pairwise_map.2 (hordered.imp fun h u hu v hv => ?_)
    rw [List.mem_singleton.1 hu, List.mem_singleton.1 hv]
    exact h.2

/-- The only node of a graph is a component. -/
theorem components_of_size_one (hsize : g.size = 1) : g.components [0] = [[0]] := by
  refine components_eq_singletons (by omega) (fun x => ?_) (List.pairwise_singleton _ 0)
  rw [List.mem_singleton]
  refine ⟨fun he => by rw [he]; exact .refl 0, fun h => ?_⟩
  have hx : x < g.size := h.lt_size (show 0 < g.size by omega)
  omega

end Links

end Reclamation
