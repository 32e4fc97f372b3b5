import Mathlib
import Reclamation.Proofs.Memory.Changes
import Reclamation.Proofs.Memory.Regions

/-!
# Operations with arenas beside memory

An operation on objects that are counted does with arenas beside memory what it does without them: the
outcome is the same up to `Outcome.joined` (`Operation.outcome_joined`). The operations that apply decrements
from the queue are not among them, because decrements for objects of arenas wait in it too.

Nothing that an operation places in memory is placed where an object of an arena is, so objects of arenas
stay apart (`Regions.Apart.of_effect`).
-/

set_option autoImplicit false

namespace Reclamation

/-! ## Outcomes -/

namespace Outcome

variable {α β : Type} {regions : Regions}

/-- What an operation comes to, with objects of arenas beside the memory that it leaves. -/
def joined (outcome : Outcome α) (regions : Regions) : Outcome α :=
  match outcome with
  | .done m a => .done (m.joined regions) a
  | .refused m f => .refused (m.joined regions) f
  | .broken => .broken
  | .outOfMemory => .outOfMemory

theorem eq_done_of_joined {outcome : Outcome α} {m : Memory} {a : α} (h : outcome.joined regions = .done m a) :
    ∃ n, outcome = .done n a ∧ m = n.joined regions := by
  cases outcome with
  | done n b =>
    obtain ⟨rfl, rfl⟩ := Outcome.done.inj h
    exact ⟨n, rfl, rfl⟩
  | refused n f => exact absurd h (by simp [joined])
  | broken => exact absurd h (by simp [joined])
  | outOfMemory => exact absurd h (by simp [joined])

theorem eq_done_of_bind {outcome : Outcome α} {next : Memory → α → Outcome β} {m : Memory} {b : β}
    (h : outcome.bind next = .done m b) : ∃ m' a, outcome = .done m' a ∧ next m' a = .done m b := by
  cases outcome with
  | done m' a => exact ⟨m', a, rfl, h⟩
  | refused m' f => exact absurd h (by simp [Outcome.bind])
  | broken => exact absurd h (by simp [Outcome.bind])
  | outOfMemory => exact absurd h (by simp [Outcome.bind])

theorem bind_joined {next next' : Memory → α → Outcome β}
    (h : ∀ m a, next' (m.joined regions) a = (next m a).joined regions) (outcome : Outcome α) :
    (outcome.joined regions).bind next' = (outcome.bind next).joined regions := by
  cases outcome with
  | done m a => exact h m a
  | refused m f => rfl
  | broken => rfl
  | outOfMemory => rfl

theorem ofRelease_joined {value : Release → α} (h : ∀ s : Release, value (s.joined regions) = value s)
    (s? : Option Release) :
    ofRelease value (s?.map (·.joined regions)) = (ofRelease value s?).joined regions := by
  cases s? with
  | none => rfl
  | some s =>
    show Outcome.done (s.memory.joined regions) (value (s.joined regions)) = _
    rw [h]
    rfl

end Outcome

/-! ## Releases -/

namespace Release

variable {s : Release} {regions : Regions} {held lost : Multiset Ref}

theorem Completes.run_joined (h : s.Completes held lost) (hapart : regions.Apart s.memory) :
    (s.joined regions).run = s.run.map (·.joined regions) := by
  obtain ⟨_, -, -, -, hbal⟩ := h.ends
  exact Release.run_joined hbal hapart

end Release

namespace Memory

variable {n n' : Memory} {regions : Regions} {held lost : Multiset Ref} {r : Ref} {o : Object}

theorem release_joined (hapart : regions.Apart n) {s : Release}
    (hs : ({ memory := n } : Release).dropRef r = some s) (hcompletes : s.Completes held lost) :
    (n.joined regions).release r = (n.release r).joined regions := by
  have hlive : n.isLive r = true := Release.isLive_of_dropRef hs (hcompletes.clean .refl).stale
  have hdrop := Release.dropRef_joined (s := { memory := n }) (objects_eq_none_of_isLive hapart hlive)
  rw [hs] at hdrop
  have hdrop' : ({ memory := n.joined regions } : Release).dropRef r = some (s.joined regions) := hdrop
  unfold release
  rw [hdrop', hs, Option.bind_some, Option.bind_some,
    hcompletes.run_joined (hapart.of_recounted (Release.recounted_dropRef hs))]
  exact Outcome.ofRelease_joined (fun s => rfl) s.run

theorem freeTree_joined (h : n.Consistent held lost) (hapart : regions.Apart n) (hr : r ∈ held)
    (honly : n.isPlain r = true → r ∉ n.deferred ∧ r ∉ n.references) :
    (n.joined regions).freeTree r = (n.freeTree r).joined regions := by
  obtain ⟨o, ho⟩ := isLive_iff.1 (h.isLive_of_mem (x := r) (by simp [hr]))
  have harena : ¬ o.arena?.isSome = true := by simp [h.tidy.no_arena r o ho]
  unfold freeTree
  rw [object?_joined hapart ho, ho]
  dsimp only
  rw [if_neg harena, if_neg harena]
  by_cases hplain : n.isPlain r = true
  · obtain ⟨o', ho', hsym, hcomp⟩ := isPlain_iff.1 hplain
    obtain rfl := Option.some.inj (ho.symm.trans ho')
    obtain ⟨hdeferred, hrefs⟩ := honly hplain
    have hfreed := h.freeTree ho hsym hcomp hdeferred hrefs
    have hrun := hfreed.run_joined hapart
    have halone : ¬ (o.component.isSome || o.symmetric) = true := by simp [hsym, hcomp]
    rw [if_neg halone, if_neg halone]
    have hrun' : ({ memory := n.joined regions, work := [.object r] } : Release).run =
        ({ memory := n, work := [.object r] } : Release).run.map (·.joined regions) := hrun
    rw [hrun']
    exact Outcome.ofRelease_joined (fun s => rfl) _
  · have hother : (o.component.isSome || o.symmetric) = true := by
      by_contra hnone
      rw [Bool.not_eq_true, Bool.or_eq_false_iff] at hnone
      exact hplain (isPlain_iff.2 ⟨o, ho, hnone.2, by simpa using hnone.1⟩)
    rw [if_pos hother, if_pos hother]
    obtain ⟨s, hs, hcompletes⟩ := Operation.drop_of_mem h hr
    exact release_joined hapart hs hcompletes

/-! ## Scopes -/

theorem exitScopeIn_joined (h : n.Consistent held lost) (hapart : regions.Apart n) {entries : Scope}
    (hperm : entries.Perm n.innermost) :
    (n.joined regions).exitScopeIn entries = (n.exitScopeIn entries).joined regions := by
  unfold exitScopeIn
  rw [show (n.joined regions).scopes = n.scopes from rfl]
  cases hscopes : n.scopes with
  | nil => rfl
  | cons scope scopes =>
    obtain ⟨s, hs, hcompletes⟩ := (h.leaveScope hscopes hperm).drops
    have hapart' : regions.Apart { n with scopes } := hapart.of_cells rfl fun _ => rfl
    have hdrops := Release.dropRefs_joined (n.owned entries) (s := { memory := { n with scopes } }) hapart'
    have hlive : ∀ x ∈ n.owned entries, n.isLive x = true := fun x hx => h.isLive_of_innermost hscopes hperm hx
    rw [Regions.outside_eq_self fun x hx => objects_eq_none_of_isLive hapart (hlive x hx), hs] at hdrops
    have hdrops' : ((n.joined regions).owned entries).foldlM Release.dropRef
        { memory := { n.joined regions with scopes } } = some (s.joined regions) := hdrops
    have hend := hapart'.of_recounted (Release.recounted_foldlM Release.recounted_dropRef hs)
    dsimp only
    rw [hdrops', hs, Option.bind_some, Option.bind_some, hcompletes.run_joined hend]
    exact Outcome.ofRelease_joined (fun s => rfl) s.run

theorem disown_joined (n : Memory) (regions : Regions) (r : Ref) :
    ∀ scopes, (n.joined regions).disown r scopes = n.disown r scopes := by
  intro scopes
  induction scopes with
  | nil => rfl
  | cons scope outer ih =>
    rw [disown, disown, ih]
    rfl

theorem releaseScoped_joined (h : n.Consistent held lost) (hapart : regions.Apart n)
    (hr : r ∈ held ∨ r ∈ n.scopeRefs) :
    (n.joined regions).releaseScoped r = (n.releaseScoped r).joined regions := by
  have hdisowned := h.disown r
  obtain ⟨held', s, hs, hcompletes⟩ : ∃ held' s, ({ memory := { n with scopes := n.disown r n.scopes } } :
      Release).dropRef r = some s ∧ s.Completes held' lost := by
    by_cases hscoped : r ∈ n.scopeRefs
    · rw [if_pos hscoped] at hdisowned
      exact ⟨held, hdisowned.drop⟩
    · rw [if_neg hscoped] at hdisowned
      exact ⟨held.erase r, Operation.drop_of_mem hdisowned (hr.resolve_right hscoped)⟩
  unfold releaseScoped
  rw [disown_joined]
  exact release_joined (n := { n with scopes := n.disown r n.scopes }) (hapart.of_cells rfl fun _ => rfl) hs
    hcompletes

/-! ## Allocation -/

theorem place_joined (n : Memory) (regions : Regions) (o : Object) :
    (n.joined regions).place o = ((n.place o).1.joined regions, (n.place o).2) := by
  have hcells : (n.joined regions).cells.push (some o) =
      (n.cells.push (some o)).mapIdx fun r cell => cell <|> regions.objects r := by
    unfold joined
    rw [Array.mapIdx_push]
    rfl
  unfold place
  dsimp only
  rw [hcells, size_joined]
  rfl

theorem allocate_joined (n : Memory) (regions : Regions) (spec : ObjectSpec) :
    (n.joined regions).allocate spec = ((n.allocate spec).1.joined regions, (n.allocate spec).2) :=
  place_joined n.countAllocation regions { spec with }

/-- Filling a slot in cells that were made more. -/
theorem setIfInBounds_append_mapIdx {cells : Array (Option Object)} {objects : Ref → Option Object}
    (hbeyond : ∀ i, cells.size ≤ i → objects i = none) (k r : Nat) (o : Object) :
    ((cells.mapIdx fun i cell => cell <|> objects i) ++ Array.replicate k none).setIfInBounds r (some o) =
      ((cells ++ Array.replicate k none).setIfInBounds r (some o)).mapIdx fun i cell =>
        cell <|> objects i := by
  apply Array.ext_getElem?
  intro i
  simp only [Array.getElem?_setIfInBounds, Array.getElem?_mapIdx, Array.getElem?_append, Array.size_append,
    Array.size_mapIdx, Array.size_replicate, Array.getElem?_replicate]
  by_cases hi : r = i
  · subst hi
    by_cases hlt : r < cells.size + k <;> simp [hlt]
  · simp only [hi, if_false]
    by_cases hlt : i < cells.size
    · simp [hlt]
    · simp only [hlt, if_false]
      split <;> simp [hbeyond i (Nat.le_of_not_lt hlt)]

theorem fillSlot_joined (hapart : regions.Apart n) (pool : SlotPool) (r : Ref) (spec : ObjectSpec) :
    (n.joined regions).fillSlot pool r spec = (n.fillSlot pool r spec).joined regions := by
  have hbeyond : ∀ i, n.cells.size ≤ i → regions.objects i = none := fun i hi => by
    cases hr : regions.objects i with
    | none => rfl
    | some o => exact absurd (hapart.lt i o hr) (Nat.not_lt.2 hi)
  have hcells := setIfInBounds_append_mapIdx hbeyond (pool.limit - n.cells.size) r
  unfold fillSlot
  rw [size_joined]
  unfold joined
  dsimp only
  rw [hcells]
  rfl

theorem allocateSlot_eq (n : Memory) (spec : ObjectSpec) : n.allocateSlot spec =
    if n.pool.exceedsMemory (n.cells.size + 1) then .outOfMemory
    else
      match (n.pool.take (n.cells.size + 1)).2 with
      | none => .refused { n with pool := (n.pool.take (n.cells.size + 1)).1 }
          (.poolExhausted (n.pool.take (n.cells.size + 1)).1.maxSlots)
      | some r => .done (n.fillSlot (n.pool.take (n.cells.size + 1)).1 r spec) r := by
  rfl

theorem allocateSlot_joined (hapart : regions.Apart n) (spec : ObjectSpec) :
    (n.joined regions).allocateSlot spec = (n.allocateSlot spec).joined regions := by
  rw [allocateSlot_eq, allocateSlot_eq, size_joined, show (n.joined regions).pool = n.pool from rfl]
  split
  · rfl
  · split
    · rfl
    · rw [fillSlot_joined hapart]
      rfl

theorem allocateScoped_joined (hapart : regions.Apart n) (spec : ObjectSpec) :
    (n.joined regions).allocateScoped spec = (n.allocateScoped spec).joined regions := by
  unfold allocateScoped
  rw [show (n.joined regions).scopes = n.scopes from rfl]
  cases n.scopes with
  | nil => rfl
  | cons scope scopes =>
    dsimp only
    rw [allocateSlot_joined hapart]
    refine Outcome.bind_joined (fun m r => ?_) _
    rw [show (m.joined regions).handle r = m.handle r from rfl]
    cases m.handle r with
    | ok h => rfl
    | error f => rfl

/-! ## Fields -/

theorem fieldFault?_joined (hapart : regions.Apart n) (o : Object) (index : Nat) {target : Option Ref}
    (htarget : ∀ t, target = some t → n.isLive t = true) :
    (n.joined regions).fieldFault? o index target = n.fieldFault? o index target := by
  have hobject : target.map (n.joined regions).object? = target.map n.object? := by
    cases target with
    | none => rfl
    | some t =>
      obtain ⟨o', ho'⟩ := isLive_iff.1 (htarget t rfl)
      rw [Option.map_some, Option.map_some, object?_joined hapart ho', ho']
  unfold fieldFault?
  rw [hobject]

theorem writeWeak_joined (hr : regions.objects r = none) (index : Nat) (old target : Option Ref) :
    (n.joined regions).writeWeak r index old target = (n.writeWeak r index old target).joined regions := by
  unfold writeWeak
  rw [update_joined hr]
  cases old <;> cases target <;> rfl

theorem strongRelease_joined (hapart : regions.Apart n) (hr : regions.objects r = none) (index : Nat)
    {old : Option Ref} (hold : ∀ t, old = some t → n.isLive t = true) (target : Option Ref) :
    (n.joined regions).strongRelease r index old target =
      (n.strongRelease r index old target).map (·.joined regions) := by
  have hacquired : target.elim (n.joined regions) (n.joined regions).acquireEdge =
      (target.elim n n.acquireEdge).joined regions := by
    cases target with
    | none => rfl
    | some t => exact acquireEdge_joined hapart t
  unfold strongRelease
  dsimp only
  rw [hacquired, update_joined hr]
  cases old with
  | none => rfl
  | some t => exact Release.dropEdge_joined (s := { memory := _ }) (objects_eq_none_of_isLive hapart (hold t rfl))

theorem setField_joined (h : n.Consistent held lost) (hapart : regions.Apart n) {index : Nat}
    {target : Option Ref} (hr : n.isLive r = true)
    (htarget : ∀ t, target = some t → n.isLive t = true ∧
      ∀ o f, n.object? r = some o → o.frozen = false → o.fields[index]? = some f → f.weak = false →
        n.CanRefer t) :
    (n.joined regions).setField r index target = (n.setField r index target).joined regions := by
  obtain ⟨o, ho⟩ := isLive_iff.1 hr
  have hnone := objects_eq_none hapart ho
  unfold setField
  rw [object?_joined hapart ho, ho]
  dsimp only
  rw [fieldFault?_joined hapart o index fun t ht => (htarget t ht).1]
  rcases Operation.fieldFault?_cases n o index target with ⟨fault, hfault⟩ | ⟨hfault, hfrozen, f, hf⟩
  · rw [hfault]
    rfl
  · have harena : ¬ o.arena?.isSome = true := by simp [h.tidy.no_arena r o ho]
    rw [hfault]
    dsimp only
    rw [if_neg harena, if_neg harena]
    by_cases hweak : f.weak = true
    · have hweak? : o.fields[index]?.any (·.weak) = true := by rw [hf]; exact hweak
      rw [if_pos hweak?, if_pos hweak?, writeWeak_joined hnone]
      rfl
    · have hstrong : f.weak = false := by simpa using hweak
      have hweak? : ¬ o.fields[index]?.any (·.weak) = true := by rw [hf]; exact hweak
      obtain ⟨s, hs, hcompletes⟩ := h.writeStrong ho hf hstrong hfrozen fun t ht =>
        ⟨(htarget t ht).1, (htarget t ht).2 o f ho hfrozen hf hstrong⟩
      obtain ⟨s', hs', -, hsteady⟩ := h.settled.strongRelease ho hf hstrong
        (h.component_eq_none ho hfrozen) fun t ht => ⟨(htarget t ht).1, (htarget t ht).2 o f ho hfrozen hf hstrong⟩
      obtain rfl := Option.some.inj (hs.symm.trans hs')
      have hold : ∀ t, f.target = some t → n.isLive t = true := fun t ht =>
        h.isLive_of_target ho ((Object.target?_of_field hf).trans ht)
      rw [if_neg hweak?, if_neg hweak?, Object.target?_of_field hf, writeStrong_eq, writeStrong_eq,
        strongRelease_joined hapart hnone index hold, hs, Option.map_some, Option.bind_some, Option.bind_some,
        hcompletes.run_joined (hapart.of_steady hsteady)]
      exact Outcome.ofRelease_joined (fun s => rfl) s.run

/-! ## Freezing -/

theorem isEligible_joined (hapart : regions.Apart n) (r : Ref) :
    (n.joined regions).isEligible r = n.isEligible r := by
  rcases object?_joined_cases (r := r) hapart with ⟨-, ho⟩ | ⟨o, hsome, hempty, ho⟩
  · rw [isEligible, isEligible, ho]
  · rw [isEligible, isEligible, ho, hempty]
    have harena := hapart.arena r o hsome
    cases ha : o.arena? with
    | none => rw [ha] at harena; exact absurd harena (by decide)
    | some id => simp [ha]

/-- From an eligible object the search for cycles sees no difference. -/
theorem components_joined (hapart : regions.Apart n) {root : Ref} (hroot : n.isEligible root = true) :
    (n.joined regions).eligibleLinks.components [root] = n.eligibleLinks.components [root] := by
  have heligible : (n.joined regions).isEligible = n.isEligible := funext (isEligible_joined hapart)
  refine Links.components_congr (P := fun x => n.isEligible x = true) hroot (size_joined n regions) (fun x hx => ?_)
    (fun x f _ => ?_) fun x f y _ hy => ?_
  · obtain ⟨o, ho, -⟩ := isEligible_iff.1 hx
    unfold eligibleLinks
    dsimp only
    rw [object?_joined_of_none (objects_eq_none hapart ho)]
  · unfold eligibleLinks
    dsimp only
    rw [heligible]
  · simp only [eligibleLinks, Option.ite_none_left_eq_some, Option.filter_eq_some_iff, heligible] at hy
    exact hy.2.2

variable {members : List Ref}

theorem innerReferences_joined (hnone : ∀ x ∈ members, regions.objects x = none) :
    (n.joined regions).innerReferences members = n.innerReferences members := by
  unfold innerReferences
  rw [List.flatMap_congr fun x hx => strongTargets_joined (hnone x hx)]

theorem totalCount_joined (hnone : ∀ x ∈ members, regions.objects x = none) :
    (n.joined regions).totalCount members = n.totalCount members := by
  unfold totalCount
  refine List.foldl_ext _ _ _ fun k x hx => ?_
  rw [object?_joined_of_none (hnone x hx)]

theorem objects_eq_none_of_mem_cyclesFrom (hapart : regions.Apart n) {root : Ref}
    (hmembers : members ∈ n.cyclesFrom root) : ∀ x ∈ members, regions.objects x = none := by
  intro x hx
  unfold cyclesFrom at hmembers
  split at hmembers
  · next hroot =>
    obtain ⟨r, hr, -, hreach⟩ := Links.exists_component_iff.1 ⟨members, (List.mem_filter.1 hmembers).1, hx⟩
    rw [List.mem_singleton.1 hr] at hreach
    obtain ⟨o, ho, -⟩ := isEligible_iff.1 (isEligible_of_reaches hreach hroot)
    exact objects_eq_none hapart ho
  · exact absurd hmembers (by simp)

theorem cyclesFrom_joined (hapart : regions.Apart n) (root : Ref) :
    (n.joined regions).cyclesFrom root = n.cyclesFrom root := by
  unfold cyclesFrom
  rw [isEligible_joined hapart]
  split
  · next hroot =>
    rw [components_joined hapart hroot]
    refine List.filter_congr fun g hg => ?_
    have hnone : ∀ x ∈ g, regions.objects x = none := fun x hx => by
      obtain ⟨r, hr, -, hreach⟩ := Links.exists_component_iff.1 ⟨g, hg, hx⟩
      rw [List.mem_singleton.1 hr] at hreach
      obtain ⟨o, ho, -⟩ := isEligible_iff.1 (isEligible_of_reaches hreach hroot)
      exact objects_eq_none hapart ho
    rw [isCycle, isCycle, innerReferences_joined hnone]
  · rfl

theorem markFrozen_joined (id : ComponentId) : ∀ {members : List Ref} {n : Memory},
    (∀ x ∈ members, regions.objects x = none) →
      (n.joined regions).markFrozen members id = (n.markFrozen members id).joined regions := by
  intro members
  induction members with
  | nil => exact fun _ => rfl
  | cons x members ih =>
    intro n hnone
    rw [markFrozen, markFrozen, List.foldl_cons, List.foldl_cons, update_joined (hnone x List.mem_cons_self)]
    exact ih fun y hy => hnone y (List.mem_cons_of_mem _ hy)

end Memory

namespace Release

open Memory

variable {regions : Regions}

theorem freezeAll_cons_of_register {members : List Ref} {s : Release} {components : ComponentRegistry}
    {id : ComponentId}
    (hreg : s.memory.components.register? members (s.memory.externalCount members) = some (components, id))
    (rest : List (List Ref)) :
    freezeAll (members :: rest) s =
      ((freezeAll rest (s.frozen members components id)).1,
        id :: (freezeAll rest (s.frozen members components id)).2.1,
        (freezeAll rest (s.frozen members components id)).2.2) := by
  rw [freezeAll]
  dsimp only
  rw [hreg]
  unfold frozen
  dsimp only
  split <;> rfl

theorem freezeAll_cons_of_full {members : List Ref} {s : Release}
    (hreg : s.memory.components.register? members (s.memory.externalCount members) = none)
    (rest : List (List Ref)) :
    freezeAll (members :: rest) s =
      (s, [], some (.componentsExhausted s.memory.components.capacity)) := by
  rw [freezeAll]
  dsimp only
  rw [hreg]

theorem externalCount_joined {s : Release} {members : List Ref}
    (hnone : ∀ x ∈ members, regions.objects x = none) :
    (s.joined regions).memory.externalCount members = s.memory.externalCount members := by
  have hinner := innerReferences_joined (n := s.memory) hnone
  have htotal := totalCount_joined (n := s.memory) hnone
  exact congrArg₂ (fun a b => min (a - b) 0xffffffff) htotal hinner

theorem frozen_joined {s : Release} {members : List Ref} (hnone : ∀ x ∈ members, regions.objects x = none)
    (components : ComponentRegistry) (id : ComponentId) :
    (s.joined regions).frozen members components id = (s.frozen members components id).joined regions := by
  have hmark := markFrozen_joined (n := { s.memory with components }) id hnone
  unfold frozen
  rw [externalCount_joined hnone]
  dsimp only
  rw [show ({ (s.joined regions).memory with components } : Memory) =
    ({ s.memory with components } : Memory).joined regions from rfl, hmark]
  rfl

theorem freezeAll_joined : ∀ {groups : List (List Ref)} {s : Release},
    (∀ g ∈ groups, ∀ x ∈ g, regions.objects x = none) →
      freezeAll groups (s.joined regions) =
        ((freezeAll groups s).1.joined regions, (freezeAll groups s).2) := by
  intro groups
  induction groups with
  | nil => exact fun _ => rfl
  | cons members groups ih =>
    intro s hnone
    have hmembers := hnone members List.mem_cons_self
    have hexternal := externalCount_joined (s := s) hmembers
    cases hreg : s.memory.components.register? members (s.memory.externalCount members) with
    | none =>
      rw [freezeAll_cons_of_full hreg, freezeAll_cons_of_full (s := s.joined regions) (by rw [hexternal]; exact hreg)]
      rfl
    | some new =>
      obtain ⟨components, id⟩ := new
      rw [freezeAll_cons_of_register hreg,
        freezeAll_cons_of_register (s := s.joined regions) (by rw [hexternal]; exact hreg),
        frozen_joined hmembers, ih fun g hg => hnone g (List.mem_cons_of_mem _ hg)]

end Release

namespace Memory

variable {n : Memory} {regions : Regions} {held lost : Multiset Ref} {r : Ref}

theorem freeze_joined (h : n.Consistent held lost) (hapart : regions.Apart n) {root : Ref}
    (hfits : ∀ g ∈ n.cyclesFrom root, n.totalCount g - n.innerReferences g < UInt32.size)
    (hroom : n.config.componentCapacity < UInt32.size ∨
      n.components.entries.size + (n.cyclesFrom root).length < UInt32.size) :
    (n.joined regions).freeze root = (n.freeze root).joined regions := by
  have hcompletes := h.freeze hfits hroom
  rw [← h.capacity, ← min_lt_iff] at hroom
  obtain ⟨-, hsteady⟩ := h.settled.freeze hfits hroom
  have hnone : ∀ g ∈ n.cyclesFrom root, ∀ x ∈ g, regions.objects x = none := fun _ =>
    objects_eq_none_of_mem_cyclesFrom hapart
  have hall := Release.freezeAll_joined (s := { memory := n }) hnone
  have hrun := hcompletes.run_joined (hapart.of_steady hsteady)
  have hall' : Release.freezeAll (n.cyclesFrom root) { memory := n.joined regions } = _ := hall
  unfold freeze
  rw [cyclesFrom_joined hapart, hall']
  dsimp only
  rw [hrun]
  cases (Release.freezeAll (n.cyclesFrom root) { memory := n }).1.run with
  | none => rfl
  | some t => cases (Release.freezeAll (n.cyclesFrom root) { memory := n }).2.2 <;> rfl

theorem acquireComponent_joined (hapart : regions.Apart n) (hr : n.isLive r = true) :
    (n.joined regions).acquireComponent r = (n.acquireComponent r).joined regions := by
  obtain ⟨o, ho⟩ := isLive_iff.1 hr
  unfold acquireComponent
  rw [object?_joined hapart ho, ho, Option.bind_some, Option.bind_some, countingComponent?_joined,
    acquire_joined hapart]
  split <;> rfl

theorem acquired_joined (hapart : regions.Apart n) (r : Ref) (made : Option Ref) :
    Outcome.done ((n.joined regions).acquire r) made = (Outcome.done (n.acquire r) made).joined regions := by
  rw [acquire_joined hapart]
  rfl

end Memory

/-! ## All of them -/

namespace Operation

open Memory

variable {n n' : Memory} {regions : Regions} {held lost : Multiset Ref}

/-- With arenas beside memory an operation comes to what it comes to without them. -/
theorem outcome_joined {op : Operation} (h : n.Consistent held lost) (hapart : regions.Apart n)
    (hop : op.Allowed n held) (hqueue : op.isQueued = false) :
    op.outcome (n.joined regions) = (op.outcome n).joined regions := by
  -- what an operation adds to the outcome of a function is the same with arenas
  have hwrap : ∀ {α : Type} {value : α → Option Ref} {out out' : Outcome α}, out' = out.joined regions →
      (out'.bind fun m a => .done m (value a)) = (out.bind fun m a => .done m (value a)).joined regions := by
    rintro α value out - rfl
    exact Outcome.bind_joined (fun m a => rfl) out
  cases op with
  | registerType tag layout => rfl
  | allocate spec =>
    rw [outcome, allocate_joined]
    rfl
  | allocateType tag shared =>
    refine hwrap ?_
    unfold Memory.allocateType
    rw [show (n.joined regions).spec tag = n.spec tag from rfl]
    cases n.spec tag with
    | error fault => rfl
    | ok spec =>
      dsimp only
      rw [allocate_joined]
      rfl
  | allocateSlot spec => exact hwrap (allocateSlot_joined hapart spec)
  | allocateSlotType tag shared =>
    refine hwrap ?_
    unfold Memory.allocateSlotType
    rw [show (n.joined regions).spec tag = n.spec tag from rfl]
    cases n.spec tag with
    | error fault => rfl
    | ok spec => exact allocateSlot_joined hapart _
  | acquire r => exact acquired_joined hapart r none
  | release r =>
    obtain ⟨s, hs, hcompletes⟩ := drop_of_mem h hop
    exact hwrap (release_joined hapart hs hcompletes)
  | defer r => exact absurd hqueue (by simp [isQueued])
  | safePoint => exact absurd hqueue (by simp [isQueued])
  | drain => exact absurd hqueue (by simp [isQueued])
  | setField r index target => exact hwrap (setField_joined h hapart hop.1 hop.2)
  | freeze r => exact hwrap (freeze_joined h hapart hop.2.1 hop.2.2)
  | acquireComponent r => exact hwrap (acquireComponent_joined hapart hop)
  | freeTree r => exact hwrap (freeTree_joined h hapart hop.1 hop.2)
  | enterScope => rfl
  | exitScope entries => exact hwrap (exitScopeIn_joined h hapart hop)
  | allocateScoped spec => exact hwrap (allocateScoped_joined hapart spec)
  | allocateScopedType tag shared =>
    refine hwrap ?_
    unfold Memory.allocateScopedType
    rw [show (n.joined regions).spec tag = n.spec tag from rfl]
    cases n.spec tag with
    | error fault => rfl
    | ok spec => exact allocateScoped_joined hapart _
  | releaseScoped r => exact hwrap (releaseScoped_joined h hapart hop)

end Operation

/-! ## Objects of arenas stay apart -/

namespace Regions.Apart

open Memory

variable {m m' : Memory} {regions : Regions} {r : Ref} {o : Object}

theorem of_change (h : regions.Apart m) (hchange : Change m m') : regions.Apart m' := by
  cases hchange with
  | recount hm _ => exact h.of_recounted hm
  | rearrange _ types scopes applied => exact h.of_cells rfl fun _ => rfl
  | search _ htake => exact h.of_cells rfl (SlotPool.slot?_take_none htake)
  | @freeze s members components id hreg =>
    have hregistered : regions.Apart { s.memory with components } := h.of_cells rfl fun _ => rfl
    exact (hregistered.of_steady (.markFrozen id members _)).of_cells rfl fun _ => rfl
  | step hbal hstep => exact h.of_steady (Release.Step.steady hbal hstep)

theorem of_changes (h : regions.Apart m) (hchanges : Changes m m') : regions.Apart m' := by
  induction hchanges with
  | refl => exact h
  | tail _ hlast ih => exact ih.of_change hlast

theorem of_placed (h : regions.Apart m) (hplaced : Placed r o m m') : regions.Apart m' where
  arena := h.arena
  plain := h.plain
  inside := h.inside
  empty x o' ho' := by
    rw [hplaced.object, if_neg, h.empty x o' ho']
    rintro rfl
    rcases hplaced.cell with hle | ⟨y, hy⟩
    · exact absurd (h.lt x o' ho') (Nat.not_lt.2 hle)
    · exact absurd ((h.slot x o' ho').symm.trans hy) (by simp)
  lt x o' ho' := Nat.lt_of_lt_of_le (h.lt x o' ho') hplaced.size
  slot x o' ho' := hplaced.slots x (h.lt x o' ho') (h.slot x o' ho')

theorem of_written (h : regions.Apart m) (op : Operation) : regions.Apart (op.written m) := by
  rcases Operation.written_cases m op with he | ⟨r, index, target, referrers, he⟩
  · rwa [he]
  · have hset : regions.Apart (m.update r (·.setTarget index target)) := by
      refine h.of_steady (.update m r fun o => ?_)
      obtain ⟨payload, he⟩ := o.setTarget_eq index target
      rw [he]
    rw [he]
    exact hset.of_cells rfl fun _ => rfl

theorem of_effect {op : Operation} (h : regions.Apart m) (heffect : op.Effect m m') : regions.Apart m' := by
  cases heffect with
  | changed hchanges => exact (h.of_written op).of_changes hchanges
  | placed _ hplaced => exact h.of_placed hplaced

end Regions.Apart

end Reclamation
