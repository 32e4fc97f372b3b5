import Mathlib
import Reclamation.Proofs.Memory.Consistency

/-!
# Arenas beside memory

Objects of arenas have no counts, and no field leads from or to them but from objects of the same arena.
So memory with arenas is memory without them, `n`, and the objects of arenas beside it, `n.joined regions`,
and whatever counts references does with the whole what it does with `n`: there is one lemma for each
function, up to a whole release (`Release.run_joined`). All that is known of memory without arenas
carries over that way.

The decrements that wait are part of what lies beside, since those for objects of arenas wait in the same queue.
-/

set_option autoImplicit false

namespace Reclamation

/-- The objects of arenas, and the decrements that wait. -/
structure Regions where
  objects : Ref → Option Object
  deferred : List Ref

namespace Memory

/-- Memory with objects of arenas beside it. -/
def joined (n : Memory) (regions : Regions) : Memory :=
  { n with
    cells := n.cells.mapIdx fun r cell => cell <|> regions.objects r
    deferred := regions.deferred }

end Memory

namespace Release

/-- A release with objects of arenas beside it. -/
def joined (s : Release) (regions : Regions) : Release :=
  { s with memory := s.memory.joined regions }

end Release

/-- Objects of arenas lie in cells of their own, have no counts, and refer to objects of the same arena. -/
structure Regions.Apart (regions : Regions) (n : Memory) : Prop where
  arena : ∀ r o, regions.objects r = some o → o.arena?.isSome = true
  plain : ∀ r o, regions.objects r = some o → o.symmetric = false ∧ o.component = none ∧ o.frozen = false
  inside : ∀ r o i t, regions.objects r = some o → o.target? i = some t →
    ∃ o', regions.objects t = some o' ∧ o'.arena? = o.arena?
  empty : ∀ r o, regions.objects r = some o → n.object? r = none
  lt : ∀ r o, regions.objects r = some o → r < n.cells.size
  slot : ∀ r o, regions.objects r = some o → n.pool.slot? r = none

namespace Regions

variable {regions : Regions} {refs : List Ref} {r : Ref} {o : Object}

/-- The references that are not to objects of arenas. -/
def outside (regions : Regions) (refs : List Ref) : List Ref :=
  refs.filter fun r => (regions.objects r).isNone

theorem outside_cons_of_none (h : regions.objects r = none) :
    regions.outside (r :: refs) = r :: regions.outside refs :=
  List.filter_cons_of_pos (by rw [h]; rfl)

theorem outside_cons_of_some (h : regions.objects r = some o) :
    regions.outside (r :: refs) = regions.outside refs :=
  List.filter_cons_of_neg (by simp [h])

theorem outside_eq_self (h : ∀ r ∈ refs, regions.objects r = none) : regions.outside refs = refs :=
  List.filter_eq_self.2 fun r hr => by rw [h r hr]; rfl

theorem coe_outside (regions : Regions) (refs : List Ref) :
    (refs : Multiset Ref).filter (fun r => (regions.objects r).isNone) = ↑(regions.outside refs) := by
  rw [Multiset.filter_coe, outside]
  simp only [Bool.decide_eq_true]

end Regions

namespace Memory

variable {n n' : Memory} {regions : Regions} {r x : Ref} {o : Object}

/-! ## Objects -/

theorem size_joined (n : Memory) (regions : Regions) : (n.joined regions).cells.size = n.cells.size := by
  simp [joined]

theorem object?_joined_of_none (h : regions.objects r = none) : (n.joined regions).object? r = n.object? r := by
  unfold object? joined
  rw [Array.getElem?_mapIdx, h]
  cases n.cells[r]? with
  | none => rfl
  | some cell => simp

theorem object?_joined_of_some (h : regions.Apart n) (ho : regions.objects r = some o) :
    (n.joined regions).object? r = some o := by
  have hempty := h.empty r o ho
  unfold object? at hempty
  unfold object? joined
  rw [Array.getElem?_mapIdx, ho]
  rw [Array.getElem?_eq_getElem (h.lt r o ho)] at hempty ⊢
  simp only [Option.join_some] at hempty
  simp [hempty]

theorem objects_eq_none (h : regions.Apart n) (ho : n.object? r = some o) : regions.objects r = none := by
  cases hr : regions.objects r with
  | none => rfl
  | some o' => exact absurd ((h.empty r o' hr).symm.trans ho) (by simp)

theorem objects_eq_none_of_isLive (h : regions.Apart n) (hr : n.isLive r = true) : regions.objects r = none := by
  obtain ⟨o, ho⟩ := isLive_iff.1 hr
  exact objects_eq_none h ho

/-- An object is one of memory or one of an arena. -/
theorem object?_joined_cases (h : regions.Apart n) :
    (regions.objects r = none ∧ (n.joined regions).object? r = n.object? r) ∨
      ∃ o, regions.objects r = some o ∧ n.object? r = none ∧ (n.joined regions).object? r = some o := by
  cases hr : regions.objects r with
  | none => exact .inl ⟨rfl, object?_joined_of_none hr⟩
  | some o => exact .inr ⟨o, rfl, h.empty r o hr, object?_joined_of_some h hr⟩

theorem object?_joined (h : regions.Apart n) (ho : n.object? r = some o) :
    (n.joined regions).object? r = some o := by
  rw [object?_joined_of_none (objects_eq_none h ho), ho]

/-- What is in no arena is in memory without arenas. -/
theorem object?_of_outside (h : regions.Apart n) (ho : (n.joined regions).object? r = some o)
    (hnone : o.arena? = none) : n.object? r = some o := by
  rcases object?_joined_cases (r := r) h with ⟨-, he⟩ | ⟨o', hsome, -, he⟩
  · exact he.symm.trans ho
  · obtain rfl := Option.some.inj (he.symm.trans ho)
    exact absurd (h.arena r _ hsome) (by simp [hnone])

theorem isLive_joined (h : regions.Apart n) (hr : n.isLive r = true) : (n.joined regions).isLive r = true := by
  obtain ⟨o, ho⟩ := isLive_iff.1 hr
  exact isLive_of_object? (object?_joined h ho)

end Memory

namespace Regions.Apart

open Memory

variable {n n' : Memory} {regions : Regions} {r : Ref} {o : Object}

/-- Objects of arenas stay apart from memory in which nothing is new. -/
theorem of_steady (h : regions.Apart n) (hsteady : Steady n n') : regions.Apart n' where
  arena := h.arena
  plain := h.plain
  inside := h.inside
  empty r o ho := by
    cases hn : n'.object? r with
    | none => rfl
    | some o' =>
      obtain ⟨o₀, ho₀, -⟩ := hsteady.object r o' hn
      exact absurd ((h.empty r o ho).symm.trans ho₀) (by simp)
  lt r o ho := by
    rw [hsteady.aside.size]
    exact h.lt r o ho
  slot r o ho := by
    rcases hsteady.slots r with he | ⟨x, y, hx, -⟩
    · rw [he, h.slot r o ho]
    · exact absurd ((h.slot r o ho).symm.trans hx) (by simp)

theorem of_recounted (h : regions.Apart n) (hn : Recounted n n') : regions.Apart n' :=
  h.of_steady (.of_recounted hn)

/-- Where objects of arenas lie has to do with cells and slots only. -/
theorem of_cells (h : regions.Apart n) (hcells : n'.cells = n.cells)
    (hslots : ∀ r, n'.pool.slot? r = n.pool.slot? r) : regions.Apart n' where
  arena := h.arena
  plain := h.plain
  inside := h.inside
  empty r o ho := by
    rw [object?, hcells]
    exact h.empty r o ho
  lt r o ho := by
    rw [hcells]
    exact h.lt r o ho
  slot r o ho := by
    rw [hslots]
    exact h.slot r o ho

end Regions.Apart

namespace Memory

variable {n n' : Memory} {regions : Regions} {r x : Ref} {o : Object}

/-! ## Counts and weak fields -/

theorem update_joined (h : regions.objects r = none) (f : Object → Object) :
    (n.joined regions).update r f = (n.update r f).joined regions := by
  have hcells : ((n.joined regions).update r f).cells = ((n.update r f).joined regions).cells := by
    unfold update joined
    apply Array.ext_getElem?
    intro i
    simp only [Array.getElem?_modify, Array.getElem?_mapIdx]
    by_cases hi : r = i
    · subst hi
      cases n.cells[r]? with
      | none => simp
      | some cell => cases cell <;> simp [h]
    · simp [hi]
  unfold update joined at hcells ⊢
  simp only at hcells ⊢
  rw [hcells]

theorem countingComponent?_joined (n : Memory) (regions : Regions) (o : Object) :
    (n.joined regions).countingComponent? o = n.countingComponent? o :=
  rfl

theorem acquire_joined (h : regions.Apart n) (r : Ref) :
    (n.joined regions).acquire r = (n.acquire r).joined regions := by
  rcases object?_joined_cases (r := r) h with ⟨hnone, ho⟩ | ⟨o, hsome, hempty, ho⟩
  · unfold acquire
    rw [ho]
    cases n.object? r with
    | none => rfl
    | some o =>
      dsimp only
      rw [countingComponent?_joined]
      split
      · rfl
      · split
        · rfl
        · exact update_joined hnone _
  · unfold acquire
    rw [ho, hempty]
    dsimp only
    rw [if_pos (h.arena r o hsome)]

theorem acquireEdge_joined (h : regions.Apart n) (r : Ref) :
    (n.joined regions).acquireEdge r = (n.acquireEdge r).joined regions := by
  rcases object?_joined_cases (r := r) h with ⟨hnone, ho⟩ | ⟨o, hsome, hempty, ho⟩
  · unfold acquireEdge
    rw [ho]
    split
    · exact update_joined hnone _
    · exact acquire_joined h r
  · unfold acquireEdge
    rw [ho, hempty]
    simp only [Option.any_some, (h.plain r o hsome).1, Option.any_none, Bool.false_eq_true, if_false]
    exact acquire_joined h r

theorem clearAll_joined : ∀ (fields : List (Ref × Nat)) (n : Memory), (∀ f ∈ fields, regions.objects f.1 = none) →
    fields.foldl (fun m (holder, index) => m.update holder (·.setTarget index none)) (n.joined regions) =
      (fields.foldl (fun m (holder, index) => m.update holder (·.setTarget index none)) n).joined regions := by
  intro fields
  induction fields with
  | nil => exact fun n _ => rfl
  | cons f fields ih =>
    intro n hf
    obtain ⟨holder, index⟩ := f
    have hfirst := update_joined (n := n) (hf (holder, index) List.mem_cons_self) (·.setTarget index none)
    rw [List.foldl_cons, List.foldl_cons]
    dsimp only at hfirst ⊢
    rw [hfirst]
    exact ih _ fun g hg => hf g (List.mem_cons_of_mem _ hg)

theorem clearReferrers_joined (h : regions.Apart n) (hw : Wired n) (r : Ref) :
    (n.joined regions).clearReferrers r = (n.clearReferrers r).joined regions := by
  refine clearAll_joined (n.referrers.getD r [])
    { n with
      referrers := n.referrers.erase r
      stats.weakCleared := n.stats.weakCleared + (n.referrers.getD r []).length } fun f hf => ?_
  obtain ⟨o, ho, -⟩ := Option.bind_eq_some_iff.1 (hw.mem_iff.1 hf)
  exact objects_eq_none h ho

theorem unwatchAll_joined (r : Ref) : ∀ (targets : List (Nat × Ref)) (n : Memory),
    targets.foldl (fun m (index, target) => m.unwatch r index target) (n.joined regions) =
      (targets.foldl (fun m (index, target) => m.unwatch r index target) n).joined regions := by
  intro targets
  induction targets with
  | nil => exact fun n => rfl
  | cons t targets ih => exact fun n => ih (n.unwatch r t.1 t.2)

theorem vacate_joined (h : regions.objects r = none) (origin : Origin) :
    (n.joined regions).vacate r origin = (n.vacate r origin).joined regions := by
  have hcells : (n.joined regions).cells.setIfInBounds r none =
      (n.cells.setIfInBounds r none).mapIdx fun i cell => cell <|> regions.objects i := by
    unfold joined
    apply Array.ext_getElem?
    intro i
    simp only [Array.getElem?_setIfInBounds, Array.getElem?_mapIdx, Array.size_mapIdx]
    by_cases hi : r = i
    · subst hi
      by_cases hlt : r < n.cells.size
      · simp [hlt, h]
      · simp [hlt]
    · simp [hi]
  unfold vacate
  rw [hcells]
  cases origin <;> rfl

theorem remove_joined (h : regions.Apart n) (hw : Wired n) (hr : n.isLive r = true) :
    (n.joined regions).remove r = (n.remove r).joined regions := by
  obtain ⟨o, ho⟩ := isLive_iff.1 hr
  rw [remove, object?_joined h ho, remove, ho]
  dsimp only
  rw [clearReferrers_joined h hw, unwatchAll_joined, vacate_joined (objects_eq_none h ho)]

theorem removeAll?_joined {group : List Ref} {n : Memory} (h : regions.Apart n) (htidy : Tidy n)
    (hnodup : group.Nodup) (hlive : ∀ x ∈ group, n.isLive x = true) :
    (n.joined regions).removeAll? group = (n.removeAll? group).map (·.joined regions) := by
  refine Tidy.removeAll_induction (P := fun n group => regions.Apart n →
    (n.joined regions).removeAll? group = (n.removeAll? group).map (·.joined regions)) ?_ ?_ htidy hnodup hlive h
  · exact fun _ _ => rfl
  · intro n x group htidy hx _ hrest h
    have hx' : (n.joined regions).isLive x = true := isLive_joined h hx
    rw [removeAll?, List.foldlM_cons, if_pos hx', remove_joined h htidy.wired hx]
    rw [removeAll?, List.foldlM_cons, if_pos hx]
    exact hrest (h.of_steady (.of_without (Without.remove htidy.wired hx)))

theorem removeAll_joined {group : List Ref} {n : Memory} (h : regions.Apart n) (htidy : Tidy n)
    (hnodup : group.Nodup) (hlive : ∀ x ∈ group, n.isLive x = true) :
    group.foldl Memory.remove (n.joined regions) = (group.foldl Memory.remove n).joined regions := by
  have hout := removeAll?_joined h htidy hnodup hlive
  rw [htidy.removeAll?_eq hnodup hlive] at hout
  exact (removeAll?_eq_some hout).symm

theorem strongTargets_joined (h : regions.objects r = none) :
    (n.joined regions).strongTargets r = n.strongTargets r := by
  rw [strongTargets, strongTargets, object?_joined_of_none h]

/-! ## Orphans -/

theorem isUnowned_joined (h : regions.Apart n) (r : Ref) : (n.joined regions).isUnowned r = n.isUnowned r := by
  rcases object?_joined_cases (r := r) h with ⟨-, ho⟩ | ⟨o, hsome, hempty, ho⟩
  · rw [isUnowned, isUnowned, ho]
  · rw [isUnowned, isUnowned, ho, hempty]
    simp [(h.plain r o hsome).1]

end Memory

theorem Object.exists_target_of_mem {o : Object} {t : Ref} (h : t ∈ o.strongTargets) :
    ∃ i, o.target? i = some t := by
  obtain ⟨f, hf, ht⟩ := List.mem_filterMap.1 h
  obtain ⟨i, hi⟩ := List.getElem?_of_mem hf
  refine ⟨i, ?_⟩
  rw [Object.target?, hi]
  split at ht
  · exact absurd ht (by simp)
  · exact ht

namespace Memory

variable {n n' : Memory} {regions : Regions} {r x : Ref} {o : Object}

/-- What an object of an arena refers to is an object of an arena. -/
theorem objects_ne_none_of_mem (h : regions.Apart n) (ho : regions.objects r = some o)
    (hx : x ∈ (n.joined regions).strongTargets r) : ∃ o', regions.objects x = some o' := by
  rw [strongTargets_of_object? (object?_joined_of_some h ho)] at hx
  obtain ⟨i, hi⟩ := Object.exists_target_of_mem hx
  obtain ⟨o', ho', -⟩ := h.inside r o i x ho hi
  exact ⟨o', ho'⟩

/-- A condition that no object of an arena meets is met by the same targets. -/
theorem filter_strongTargets_joined (h : regions.Apart n) {p : Ref → Bool}
    (hp : ∀ x o, regions.objects x = some o → p x = false) (r : Ref) :
    ((n.joined regions).strongTargets r).filter p = (n.strongTargets r).filter p := by
  cases hr : regions.objects r with
  | none => rw [strongTargets_joined hr]
  | some o =>
    have hlive : ¬ n.isLive r = true := by
      rw [isLive, h.empty r o hr]
      decide
    rw [strongTargets_of_not_isLive hlive, List.filter_nil, List.filter_eq_nil_iff]
    intro x hx
    obtain ⟨o', ho'⟩ := objects_ne_none_of_mem h hr hx
    simp [hp x o' ho']

theorem unownedGraph_joined (h : regions.Apart n) : (n.joined regions).unownedGraph = n.unownedGraph := by
  have hp : ∀ x o, regions.objects x = some o → n.isUnowned x = false := fun x o ho => by
    rw [isUnowned, h.empty x o ho]
    rfl
  have hun : (n.joined regions).isUnowned = n.isUnowned := funext fun x => isUnowned_joined h x
  unfold unownedGraph
  rw [size_joined, hun]
  congr 1
  funext r
  rw [List.filter_reverse, List.filter_reverse, filter_strongTargets_joined h hp]

theorem orphans_joined (h : regions.Apart n) (candidates : List Ref) :
    (n.joined regions).orphans candidates = n.orphans candidates := by
  have hun : (n.joined regions).isUnowned = n.isUnowned := funext fun x => isUnowned_joined h x
  have hnone : ∀ x ∈ n.found candidates, regions.objects x = none := fun x hx =>
    objects_eq_none_of_isLive h (isLive_of_mem_found hx)
  have hcounts : (n.joined regions).referenceCounts (n.found candidates) =
      n.referenceCounts (n.found candidates) := by
    unfold referenceCounts
    rw [List.flatMap_congr fun x hx => strongTargets_joined (hnone x hx)]
  have hheld : (n.found candidates).filter (fun r => (n.joined regions).isHeldBeyond r
      ((n.referenceCounts (n.found candidates)).getD r 0)) = (n.found candidates).filter fun r =>
        n.isHeldBeyond r ((n.referenceCounts (n.found candidates)).getD r 0) := by
    refine List.filter_congr fun x hx => ?_
    rw [isHeldBeyond, isHeldBeyond, object?_joined_of_none (hnone x hx)]
  unfold orphans
  rw [unownedGraph_joined h, hun]
  show ((n.found candidates).filter _) = ((n.found candidates).filter _)
  unfold found at hcounts hheld
  rw [hcounts, hheld]

end Memory

/-! ## Releases -/

namespace Release

open Memory

variable {s t : Release} {regions : Regions} {r : Ref} {o : Object}

theorem lowerComponent_joined (s : Release) (regions : Regions) (id : ComponentId) :
    (s.joined regions).lowerComponent id = (s.lowerComponent id).joined regions := by
  unfold lowerComponent
  dsimp only
  rw [show (s.joined regions).memory.components = s.memory.components from rfl]
  split <;> rfl

theorem dropCount_joined (h : regions.objects r = none) (o : Object) :
    (s.joined regions).dropCount r o = (s.dropCount r o).map (·.joined regions) := by
  unfold dropCount
  rw [show (s.joined regions).memory.countingComponent? o = s.memory.countingComponent? o from rfl]
  split
  · rw [lowerComponent_joined]
    rfl
  · rw [Option.map_map]
    congr 1
    funext count
    have hupdate := update_joined (n := s.memory) h fun o => { o with count }
    unfold joined
    dsimp only [Function.comp_apply]
    rw [hupdate]
    split <;> rfl

theorem dropEdge_joined (h : regions.objects r = none) :
    (s.joined regions).dropEdge r = (s.dropEdge r).map (·.joined regions) := by
  unfold dropEdge
  rw [show (s.joined regions).memory.object? r = s.memory.object? r from object?_joined_of_none h]
  cases s.memory.object? r with
  | none => rfl
  | some o =>
    dsimp only
    split
    · rfl
    · split
      · rw [Option.map_map]
        congr 1
        funext internal
        have hupdate := update_joined (n := s.memory) h fun o => { o with internal }
        unfold joined
        dsimp only [Function.comp_apply]
        rw [hupdate]
        split <;> rfl
      · exact dropCount_joined h o

theorem dropRef_joined (h : regions.objects r = none) :
    (s.joined regions).dropRef r = (s.dropRef r).map (·.joined regions) := by
  unfold dropRef
  rw [show (s.joined regions).memory.object? r = s.memory.object? r from object?_joined_of_none h]
  cases s.memory.object? r with
  | none => rfl
  | some o =>
    dsimp only
    split
    · rfl
    · split
      · rw [Option.map_map]
        congr 1
        funext count
        have hupdate := update_joined (n := s.memory) h fun o => { o with count }
        unfold joined
        dsimp only [Function.comp_apply]
        rw [hupdate]
        split <;> rfl
      · exact dropCount_joined h o

/-- A reference to an object of an arena is given up without effect. -/
theorem dropRef_joined_of_some (h : regions.Apart s.memory) (hr : regions.objects r = some o) :
    (s.joined regions).dropRef r = some (s.joined regions) := by
  unfold dropRef
  rw [show (s.joined regions).memory.object? r = some o from object?_joined_of_some h hr]
  dsimp only
  rw [if_pos (h.arena r o hr)]

/-- References of fields are given up with arenas beside memory as without them. -/
theorem dropEdges_joined : ∀ {rs : List Ref} {s : Release}, (∀ r ∈ rs, regions.objects r = none) →
    rs.foldlM dropEdge (s.joined regions) = (rs.foldlM dropEdge s).map (·.joined regions)
  | [], _, _ => rfl
  | r :: rs, s, h => by
    rw [List.foldlM_cons, List.foldlM_cons, dropEdge_joined (h r List.mem_cons_self)]
    cases s.dropEdge r with
    | none => rfl
    | some t => exact dropEdges_joined fun x hx => h x (List.mem_cons_of_mem r hx)

/-- Of the references of the program those to objects of arenas come to nothing. -/
theorem dropRefs_joined : ∀ (rs : List Ref) {s : Release}, regions.Apart s.memory →
    rs.foldlM dropRef (s.joined regions) = ((regions.outside rs).foldlM dropRef s).map (·.joined regions)
  | [], _, _ => rfl
  | r :: rs, s, h => by
    cases hr : regions.objects r with
    | none =>
      rw [Regions.outside_cons_of_none hr, List.foldlM_cons, List.foldlM_cons, dropRef_joined hr]
      cases hs : s.dropRef r with
      | none => rfl
      | some t => exact dropRefs_joined rs (h.of_recounted (recounted_dropRef hs))
    | some o =>
      rw [Regions.outside_cons_of_some hr, List.foldlM_cons, dropRef_joined_of_some h hr]
      exact dropRefs_joined rs h

theorem discard_joined (h : regions.Apart s.memory) (htidy : s.memory.Tidy) {group : List Ref}
    (hnodup : group.Nodup) (hlive : ∀ x ∈ group, s.memory.isLive x = true)
    (htargets : ∀ x ∈ group.flatMap s.memory.strongTargets, s.memory.isLive x = true) :
    (s.joined regions).discard group = (s.discard group).map (·.joined regions) := by
  have hnone : ∀ x ∈ group, regions.objects x = none := fun x hx => objects_eq_none_of_isLive h (hlive x hx)
  have hremove : (s.joined regions).memory.removeAll? group =
      (s.memory.removeAll? group).map (·.joined regions) := removeAll?_joined h htidy hnodup hlive
  have hsame : (s.joined regions).targetsOutside group = s.targetsOutside group := by
    rw [targetsOutside_eq, targetsOutside_eq]
    exact congrArg _ (List.flatMap_congr fun x hx => strongTargets_joined (hnone x hx))
  have houtside : ∀ x ∈ s.targetsOutside group, regions.objects x = none := by
    intro x hx
    rw [targetsOutside_eq] at hx
    exact objects_eq_none_of_isLive h (htargets x (List.mem_filter.1 hx).1)
  unfold discard
  rw [hremove, hsame]
  cases s.memory.removeAll? group with
  | none => rfl
  | some m =>
    exact dropEdges_joined (s := { s with memory := m, freed := s.freed + group.length }) houtside

end Release

namespace Release

open Memory

variable {s t : Release} {regions : Regions} {outer extra : Multiset Ref}

/-- A step with arenas beside memory. -/
theorem Step.joined (h : Balanced s outer extra) (hapart : regions.Apart s.memory) (hstep : Step s t) :
    Step (s.joined regions) (t.joined regions) := by
  cases hstep with
  | @object _ r work hw hd =>
    have hclosed := h.closed_object (r := r) (by rw [hw]; simp)
    refine .object hw ?_
    have hjoined := discard_joined (s := { s with work }) hapart h.tidy hclosed.nodup hclosed.live
      (h.targets_of_group [r])
    exact hjoined.trans (congrArg _ hd)
  | @component _ id work hw hl hd =>
    obtain ⟨e, he⟩ := ComponentRegistry.isLive_iff.1 hl
    have hclosed := h.closed_component (by rw [hw]; simp) he
    have htidy := h.tidy.of_components (h.tidy.registry.take id)
    have hjoined := discard_joined
      (s := { s with memory := { s.memory with components := s.memory.components.take id }, work })
      (hapart.of_cells rfl fun _ => rfl) htidy hclosed.nodup hclosed.live (h.targets_of_group e.members)
    refine .component hw hl ?_
    unfold endComponent at hd ⊢
    dsimp only at hd ⊢
    rw [ComponentRegistry.members?, he, Option.map_some, Option.getD_some] at hd
    rw [show (s.joined regions).memory.components = s.memory.components from rfl,
      ComponentRegistry.members?, he, Option.map_some, Option.getD_some]
    obtain ⟨u, hu, rfl⟩ := Option.map_eq_some_iff.1 hd
    rw [hu] at hjoined
    exact congrArg _ hjoined
  | @ended id work hw hl => exact .ended (s := s.joined regions) hw hl
  | @orphans _ r rest hw hc hd =>
    have hclosed := h.closed_orphans (r :: rest)
    refine .orphans hw hc ?_
    have horphans : (s.joined regions).memory.orphans (r :: rest) = s.memory.orphans (r :: rest) :=
      orphans_joined hapart (r :: rest)
    have hjoined := discard_joined (s := { s with candidates := [] }) hapart h.tidy hclosed.nodup hclosed.live
      (h.targets_of_group _)
    rw [horphans]
    exact hjoined.trans (congrArg _ hd)

theorem Steps.joined (h : Balanced s outer extra) (hapart : regions.Apart s.memory) (hsteps : Steps s t) :
    Steps (s.joined regions) (t.joined regions) := by
  induction hsteps with
  | refl => exact .refl
  | tail hsteps hstep ih =>
    exact ih.tail (hstep.joined (h.steps hsteps) (hapart.of_steady (Steps.steady h hsteps)))

/-- A release with arenas beside memory does what it does without them. -/
theorem run_joined (h : Balanced s outer extra) (hapart : regions.Apart s.memory) :
    (s.joined regions).run = s.run.map (·.joined regions) := by
  obtain ⟨t, hsteps, hfinished, hrun, -⟩ := h.run
  rw [hrun, run_of_steps (hsteps.joined h hapart)]
  exact run_of_finished (s := t.joined regions) hfinished

end Release

end Reclamation
