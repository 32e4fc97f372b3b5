import Mathlib
import Reclamation.Proofs.Memory.FullRegistry
import Reclamation.Proofs.Memory.Isolation
import Reclamation.Proofs.Memory.Remnants

/-!
# Freezing again what a full registry has left

A freeze that a full registry stops has made the first cycles behind an object components and has left the others as
they were. Nothing leads from a cycle to a later one, so the way from the object to a cycle that is left avoids the
members of the new components (`Registered.behind_of_avoids`). Giving up references takes out other objects, but none
to which the object leads, as long as it is held (`Thins.behind_of_isLive`). So when there are places again the cycles
behind the object are those that were left (`Registered.perm_left`).
-/

set_option autoImplicit false

namespace Reclamation

/-! ## Objects that are left -/

/-- An object plays the part that it played before: only its counts and its weak fields may be others. -/
structure Object.PlaysPart (o o' : Object) : Prop where
  strongTargets : o'.strongTargets = o.strongTargets
  symmetric : o'.symmetric = o.symmetric
  origin : o'.origin = o.origin
  component : o'.component = o.component
  frozen : o'.frozen = o.frozen

namespace Memory

variable {n n' m m' m'' : Memory} {regions : Regions} {root x y : Ref} {g : List Ref} {ids : List ComponentId}
  {o : Object}

/-- No object is new, and those that are left play the parts that they played. -/
def Thins (m m' : Memory) : Prop :=
  ∀ x o', m'.object? x = some o' → ∃ o, m.object? x = some o ∧ o.PlaysPart o'

theorem Remnant.thins (h : Remnant m m') : m.Thins m' := by
  intro x o' ho'
  obtain ⟨o, ho, he⟩ := h x o' ho'
  exact ⟨o, ho, Object.strongTargets_eq_of_uncounted he, congrArg (·.symmetric) he, congrArg (·.origin) he,
    congrArg (·.component) he, congrArg (·.frozen) he⟩

namespace Thins

theorem refl (m : Memory) : m.Thins m :=
  fun _ o ho => ⟨o, ho, rfl, rfl, rfl, rfl, rfl⟩

theorem trans (h : m.Thins m') (h' : m'.Thins m'') : m.Thins m'' := by
  intro x o'' ho''
  obtain ⟨o', ho', hlast⟩ := h' x o'' ho''
  obtain ⟨o, ho, hfirst⟩ := h x o' ho'
  exact ⟨o, ho, hlast.strongTargets.trans hfirst.strongTargets, hlast.symmetric.trans hfirst.symmetric,
    hlast.origin.trans hfirst.origin, hlast.component.trans hfirst.component, hlast.frozen.trans hfirst.frozen⟩

theorem joined (h : n.Thins n') (hapart : regions.Apart n) (hapart' : regions.Apart n') :
    (n.joined regions).Thins (n'.joined regions) := by
  intro x o' ho'
  rcases object?_joined_cases (r := x) hapart' with ⟨-, he⟩ | ⟨o, hsome, -, he⟩
  · obtain ⟨o, ho, hpart⟩ := h x o' (he.symm.trans ho')
    exact ⟨o, object?_joined hapart ho, hpart⟩
  · obtain rfl := Option.some.inj (he.symm.trans ho')
    exact ⟨o, object?_joined_of_some hapart hsome, rfl, rfl, rfl, rfl, rfl⟩

theorem strongTargets (h : m.Thins m') (hx : m'.isLive x = true) : m'.strongTargets x = m.strongTargets x := by
  obtain ⟨o', ho'⟩ := isLive_iff.1 hx
  obtain ⟨o, ho, hpart⟩ := h x o' ho'
  rw [strongTargets_of_object? ho', strongTargets_of_object? ho, hpart.strongTargets]

theorem isEligible (h : m.Thins m') (hx : m'.isLive x = true) : m'.isEligible x = m.isEligible x := by
  obtain ⟨o', ho'⟩ := isLive_iff.1 hx
  obtain ⟨o, ho, hpart⟩ := h x o' ho'
  have harena : o'.arena? = o.arena? := by rw [Object.arena?, Object.arena?, hpart.origin]
  rw [Memory.isEligible, Memory.isEligible, ho', ho, Option.any_some, Option.any_some, hpart.symmetric,
    hpart.component, harena]

/-- Where one gets one got before. -/
theorem behind (h : m.Thins m') (hxy : m'.Behind x y) : m.Behind x y := by
  refine Relation.ReflTransGen.mono (fun a b hlead => ?_) x y hxy
  obtain ⟨o, ho, -⟩ := isEligible_iff.1 hlead.2
  have ha : m'.isLive a = true := isLive_of_mem_strongTargets hlead.1
  exact ⟨h.strongTargets ha ▸ hlead.1, h.isEligible (isLive_of_object? ho) ▸ hlead.2⟩

/-- What an object that is left leads to is left. -/
theorem behind_of_isLive (h : m.Thins m') (hisolated : m'.Isolated) (hx : m'.isLive x = true)
    (hxy : m.Behind x y) : m'.Behind x y ∧ m'.isLive y = true := by
  induction hxy using Relation.ReflTransGen.head_induction_on with
  | refl => exact ⟨.refl, hx⟩
  | @head a b hlead _ ih =>
    have hfield : b ∈ m'.strongTargets a := h.strongTargets hx ▸ hlead.1
    obtain ⟨o, ho⟩ := isLive_iff.1 hx
    rw [strongTargets_of_object? ho] at hfield
    obtain ⟨i, hi⟩ := Object.exists_target_of_mem hfield
    obtain ⟨o', ho', -⟩ := hisolated.exists_target ho hi
    have hb : m'.isLive b = true := isLive_of_object? ho'
    obtain ⟨hbehind, hlive⟩ := ih hb
    refine ⟨.head ⟨?_, (h.isEligible hb).trans hlead.2⟩ hbehind, hlive⟩
    rw [strongTargets_of_object? ho]
    exact hfield

end Thins

/-! ## Frozen objects -/

/-- Only the members of components are frozen. -/
def FrozenTogether (m : Memory) : Prop :=
  ∀ x o, m.object? x = some o → o.frozen = true → o.component ≠ none

theorem FrozenTogether.of_thins (hm : m.FrozenTogether) (h : m.Thins m') : m'.FrozenTogether := by
  intro x o' ho' hfrozen
  obtain ⟨o, ho, hpart⟩ := h x o' ho'
  rw [hpart.component]
  exact hm x o ho (hpart.frozen ▸ hfrozen)

theorem Recounted.thins (h : Recounted m m') : m.Thins m' := by
  intro x o' ho'
  rcases h.object? x with ⟨-, hnone⟩ | ⟨o, count, internal, ho, he⟩
  · exact absurd (hnone.symm.trans ho') (by simp)
  · obtain rfl := Option.some.inj (he.symm.trans ho')
    exact ⟨o, ho, rfl, rfl, rfl, rfl, rfl⟩

theorem Change.frozenTogether (h : Change m m') (hm : m.FrozenTogether) : m'.FrozenTogether := by
  cases h with
  | recount hrecounted _ => exact hm.of_thins hrecounted.thins
  | rearrange _ types scopes applied => exact hm
  | search _ _ => exact hm
  | @freeze s members components id _ =>
    intro x o ho hfrozen
    have hobject : (s.frozen members components id).memory.object? x = _ :=
      object?_markFrozen id x members { s.memory with components }
    rw [hobject] at ho
    split at ho
    · obtain ⟨o', -, rfl⟩ := Option.map_eq_some_iff.1 ho
      exact Option.some_ne_none id
    · exact hm x o ho hfrozen
  | step hbalanced hstep => exact hm.of_thins (hstep.takes hbalanced).remnant.thins

theorem FrozenTogether.advance {c : Command} (h : c.Advance m m') (hm : m.FrozenTogether) : m'.FrozenTogether := by
  cases h with
  | changed deferred hchanges =>
    refine hchanges.keeps Change.frozenTogether ?_
    rcases Command.written_cases m c with he | ⟨r, index, target, referrers, he⟩
    · rw [he]
      exact hm
    · rw [he]
      intro x o' ho' hfrozen
      obtain ⟨o, payload, ho, rfl⟩ := object?_setTarget_back ho'
      exact hm x o ho hfrozen
  | @placed r o _ hplaced =>
    intro x o' ho' hfrozen
    rw [hplaced.object] at ho'
    split at ho'
    · obtain rfl := Option.some.inj ho'
      exact absurd (hplaced.unfrozen.symm.trans hfrozen) (by decide)
    · exact hm x o' ho' hfrozen
  | beside _ hbeside => exact fun x o ho => hm x o ((hbeside.object x).symm.trans ho)

end Memory

open Memory

variable {config : Config} {secret : UInt64} {m m' m'' : Memory} {held heldNow : Multiset Ref} {root : Ref}

/-- Wherever a program gets, only the members of components are frozen. -/
theorem Attained.frozenTogether (h : Attained config secret m held) : m.FrozenTogether := by
  obtain ⟨n, regions, lost, rfl, hdivided, hn⟩ := h.induction (P := FrozenTogether)
    (fun _ x o ho => by simp [object?, ofConfigOn] at ho) fun _ _ hadvance hn => hn.advance hadvance
  intro x o ho hfrozen
  rcases object?_joined_cases (r := x) hdivided.apart with ⟨-, he⟩ | ⟨o', hsome, -, he⟩
  · exact hn x o (he.symm.trans ho) hfrozen
  · obtain rfl := Option.some.inj (he.symm.trans ho)
    exact absurd ((hdivided.apart.plain x _ hsome).2.2.symm.trans hfrozen) (by decide)

/-! ## References that are given up -/

/-- A program gives up references that it holds, one after the other. -/
inductive GivesUp (m : Memory) (held : Multiset Ref) : Memory → Multiset Ref → Prop
  | start : GivesUp m held m held
  | release {n n' : Memory} {heldNow : Multiset Ref} {made : Option Ref} (r : Ref) :
      GivesUp m held n heldNow → (Command.operation (.release r)).Allowed n heldNow →
        (Command.operation (.release r)).outcome n = .done n' made →
          GivesUp m held n' ((Command.operation (.release r)).heldAfter n heldNow made)

theorem GivesUp.attained (h : GivesUp m held m' heldNow) (hm : Attained config secret m held) :
    Attained config secret m' heldNow := by
  induction h with
  | start => exact hm
  | release r _ hc hout ih => exact ih.done _ hc hout

theorem ComponentRegistry.size_take (t : ComponentRegistry) (id : ComponentId) :
    (t.take id).entries.size = t.entries.size := by
  unfold take
  split
  · exact Array.size_modify
  · rfl

/-- A release takes components off the registry but no entries. -/
theorem Release.Step.size_entries {s t : Release} (h : Step s t) :
    t.memory.components.entries.size = s.memory.components.entries.size := by
  cases h with
  | object _ hd => exact (sameTally_discard hd).extent.size
  | component _ _ hd =>
    unfold endComponent at hd
    obtain ⟨u, hu, rfl⟩ := Option.map_eq_some_iff.1 hd
    exact (sameTally_discard hu).extent.size.trans (ComponentRegistry.size_take _ _)
  | ended _ _ => rfl
  | orphans _ _ hd => exact (sameTally_discard hd).extent.size

theorem Release.Steps.size_entries {s t : Release} (h : Steps s t) :
    t.memory.components.entries.size = s.memory.components.entries.size := by
  induction h with
  | refl => rfl
  | tail _ hstep ih => exact hstep.size_entries.trans ih

/-- Giving up a reference takes objects out and leaves those that are left in the parts that they play. -/
theorem Attained.thins_release {r : Ref} {made : Option Ref} (h : Attained config secret m held)
    (hc : (Command.operation (.release r)).Allowed m held)
    (hout : (Command.operation (.release r)).outcome m = .done m' made) :
    m.Thins m' ∧ m'.components.entries.size = m.components.entries.size := by
  obtain ⟨n, regions, lost, rfl, hdivided⟩ := h.divided
  rcases hc with hon | hr
  · obtain ⟨r', o, hr, ho⟩ := (Command.isOnArena_iff hdivided).1 hon
    obtain rfl := Option.some.inj hr
    have hinert := hdivided.inert (object?_joined_of_some hdivided.apart ho) (hdivided.apart.arena r o ho)
    rw [Command.outcome, Operation.outcome, hinert.release] at hout
    obtain ⟨rfl, -⟩ := Outcome.done.inj hout
    exact ⟨.refl _, rfl⟩
  · obtain ⟨s, hs, hcompletes⟩ := Operation.drop_of_mem hdivided.consistent hr
    obtain ⟨t, hsteps, hrun, -, hbalanced⟩ := hcompletes.ends
    have hrelease : n.release r = .done t.memory t.freed := by
      rw [Memory.release, hs, Option.bind_some, hrun]
      rfl
    have hchanges : n.Changes t.memory := Operation.changes_release hdivided.consistent hr (by
      rw [Operation.outcome, hrelease]
      rfl)
    have hdrop : [r].foldlM Release.dropRef { memory := n } = some s := by simpa using hs
    have hdropped := Release.takes_dropRefs hdivided.consistent.balanced hdrop
    obtain ⟨group, htaken⟩ := hsteps.takes hbalanced
    have hthins : n.Thins t.memory := (hdropped.remnant.trans htaken.remnant).thins
    have hsize : t.memory.components.entries.size = n.components.entries.size :=
      hsteps.size_entries.trans (Release.lowers_dropRef hs).sameExtent.size
    rw [Command.outcome, Operation.outcome, release_joined hdivided.apart hs hcompletes, hrelease] at hout
    obtain ⟨rfl, -⟩ := Outcome.done.inj hout
    exact ⟨hthins.joined hdivided.apart (hdivided.apart.of_changes hchanges), hsize⟩

theorem GivesUp.thins (h : GivesUp m held m' heldNow) (hm : Attained config secret m held) :
    m.Thins m' ∧ m'.components.entries.size = m.components.entries.size := by
  induction h with
  | start => exact ⟨.refl m, rfl⟩
  | release r hgives hc hout ih =>
    obtain ⟨hthins, hsize⟩ := (hgives.attained hm).thins_release hc hout
    exact ⟨ih.1.trans hthins, hsize.trans ih.2⟩

theorem Attained.config_eq (h : Attained config secret m held) : m.config = config := by
  obtain ⟨n, regions, lost, rfl, -, hconfig, -⟩ := h.tallied
  exact hconfig

theorem Attained.capacity (h : Attained config secret m held) : m.components.capacity = config.componentCapacity := by
  obtain ⟨n, regions, lost, rfl, hdivided, hconfig, -⟩ := h.tallied
  exact hconfig ▸ hdivided.consistent.capacity

theorem Attained.isLive_of_mem {r : Ref} (h : Attained config secret m held) (hr : r ∈ held) : m.isLive r = true := by
  obtain ⟨n, regions, lost, rfl, hdivided⟩ := h.divided
  exact isLive_joined hdivided.apart (hdivided.consistent.isLive_of_mem (by simp [hr]))

theorem Attained.isolated (h : Attained config secret m held) : m.Isolated := by
  obtain ⟨n, regions, lost, rfl, hdivided⟩ := h.divided
  exact hdivided.isolated

namespace Memory

variable {root x y : Ref} {g : List Ref} {ids : List ComponentId}

/-! ## Cycles that are left -/

/-- Different classes behind an object are different sets. -/
theorem nodup_classes {groups : List (List Ref)} (hroot : m.isEligible root = true)
    (hsub : groups.Sublist (m.cyclesFrom root)) : (groups.map List.toFinset).Nodup := by
  refine List.pairwise_map.2 (((cyclesFrom_sinks_first hroot).sublist hsub).imp_of_mem fun {g g'} hg _ hfirst he => ?_)
  obtain ⟨x, hx, -⟩ := exists_mem_of_mem_cyclesFrom hroot (hsub.subset hg)
  have hx' : x ∈ g' := List.mem_toFinset.1 (he ▸ List.mem_toFinset.2 hx)
  exact hfirst x hx x hx' .refl

theorem mem_classes_iff {groups : List (List Ref)} {F : Finset Ref} (hroot : m.isEligible root = true)
    (hsub : groups.Sublist (m.cyclesFrom root)) :
    F ∈ groups.map List.toFinset ↔ ∃ x, (∃ g ∈ groups, x ∈ g) ∧ ∀ y, y ∈ F ↔ m.Knotted x y := by
  have hclass : ∀ {g x}, g ∈ groups → x ∈ g → ∀ y, y ∈ g ↔ m.Knotted x y := fun hg hx _ =>
    mem_component_iff ((mem_cyclesFrom hroot).1 (hsub.subset hg)).1 hx
  constructor
  · intro hF
    obtain ⟨g, hg, rfl⟩ := List.mem_map.1 hF
    obtain ⟨x, hx, -⟩ := exists_mem_of_mem_cyclesFrom hroot (hsub.subset hg)
    exact ⟨x, ⟨g, hg, hx⟩, fun y => List.mem_toFinset.trans (hclass hg hx y)⟩
  · rintro ⟨x, ⟨g, hg, hx⟩, hF⟩
    refine List.mem_map.2 ⟨g, hg, Finset.ext fun y => ?_⟩
    rw [List.mem_toFinset, hclass hg hx, hF]

/-- Classes of the same objects in which the same objects are knotted are the same sets. -/
theorem perm_classes {groups groups' : List (List Ref)} (hroot : m.isEligible root = true)
    (hroot' : m'.isEligible root = true) (hsub : groups.Sublist (m.cyclesFrom root))
    (hsub' : groups'.Sublist (m'.cyclesFrom root)) (hmem : ∀ x, (∃ g ∈ groups, x ∈ g) ↔ ∃ g ∈ groups', x ∈ g)
    (hknotted : ∀ g ∈ groups, ∀ x ∈ g, ∀ y, m.Knotted x y ↔ m'.Knotted x y) :
    (groups.map List.toFinset).Perm (groups'.map List.toFinset) := by
  refine (List.perm_ext_iff_of_nodup (nodup_classes hroot hsub) (nodup_classes hroot' hsub')).2 fun F => ?_
  rw [mem_classes_iff hroot hsub, mem_classes_iff hroot' hsub']
  refine exists_congr fun x => ?_
  rw [← hmem]
  refine and_congr_right fun ⟨g, hg, hx⟩ => forall_congr' fun y => ?_
  rw [hknotted g hg x hx]

/-- What leads to no new member can be reached as before. -/
theorem Registered.behind_of_avoids {groups : List (List Ref)} (h : Registered m groups ids m')
    (havoids : ∀ g ∈ groups, ∀ z ∈ g, ¬ m.Behind z y) (hxy : m.Behind x y) : m'.Behind x y := by
  induction hxy using Relation.ReflTransGen.head_induction_on with
  | refl => exact .refl
  | @head a b hlead hrest ih =>
    refine .head ⟨h.strongTargets a ▸ hlead.1, ?_⟩ ih
    rw [Memory.isEligible, h.unmarked b fun g hg hb => havoids g hg b hb hrest]
    exact hlead.2

section Left

variable {k : Nat} (hroot : m.isEligible root = true) (h : Registered m ((m.cyclesFrom root).take k) ids m')

include hroot

/-- The members of the first components do not lead to the cycles after them. -/
theorem not_behind_of_mem_drop (hg : g ∈ (m.cyclesFrom root).drop k) (hy : y ∈ g) :
    ∀ g' ∈ (m.cyclesFrom root).take k, ∀ z ∈ g', ¬ m.Behind z y := by
  intro g' hg' z hz
  have hfirst := cyclesFrom_sinks_first hroot
  rw [← List.take_append_drop k (m.cyclesFrom root)] at hfirst
  exact (List.pairwise_append.1 hfirst).2.2 g' hg' g hg z hz y hy

include h

/-- The object itself has not become a member, since it leads to the cycles that are left. -/
theorem Registered.isEligible_root (hk : k < (m.cyclesFrom root).length) : m'.isEligible root = true := by
  have hlast : (m.cyclesFrom root)[k] ∈ (m.cyclesFrom root).drop k :=
    List.mem_drop_iff_getElem.2 ⟨0, by simpa using hk, by simp⟩
  obtain ⟨x, hx, hcycle⟩ := exists_mem_of_mem_cyclesFrom hroot (List.mem_of_mem_drop hlast)
  have havoids := not_behind_of_mem_drop hroot hlast hx
  rw [Memory.isEligible, h.unmarked root fun g hg hmem => havoids g hg root hmem hcycle.1]
  exact hroot

variable (hthins : m'.Thins m'') (hisolated : m''.Isolated)

include hthins hisolated

/-- To an object on a cycle that is left the same objects lead as before. -/
theorem Registered.behind_left (hg : g ∈ (m.cyclesFrom root).drop k) (hy : y ∈ g) (hx : m''.isLive x = true)
    (hxy : m.Behind x y) : m''.Behind x y ∧ m''.isLive y = true :=
  hthins.behind_of_isLive hisolated hx (h.behind_of_avoids (not_behind_of_mem_drop hroot hg hy) hxy)

variable (hlive : m''.isLive root = true)

include hlive

theorem Registered.knotted_left (hg : g ∈ (m.cyclesFrom root).drop k) (hx : x ∈ g) :
    m.Knotted x y ↔ m''.Knotted x y := by
  constructor
  · intro hxy
    have hcycle := (onCycle_iff hroot).2 ⟨g, List.mem_of_mem_drop hg, hx⟩
    have hy : y ∈ g := (mem_component_iff ((mem_cyclesFrom hroot).1 (List.mem_of_mem_drop hg)).1 hx).2 hxy
    have hlivex := (h.behind_left hroot hthins hisolated hg hx hlive hcycle.1).2
    obtain ⟨hforth, hlivey⟩ := h.behind_left hroot hthins hisolated hg hy hlivex hxy.1
    exact ⟨hforth, (h.behind_left hroot hthins hisolated hg hx hlivey hxy.2).1⟩
  · exact fun hxy => ⟨h.behind (hthins.behind hxy.1), h.behind (hthins.behind hxy.2)⟩

/-- The cycles behind the object are now those that are left. -/
theorem Registered.onCycle_iff_left (hk : k < (m.cyclesFrom root).length) :
    m''.OnCycle root x ↔ ∃ g ∈ (m.cyclesFrom root).drop k, x ∈ g := by
  have hroot' := h.isEligible_root hroot hk
  constructor
  · intro hcycle
    have heligible : m'.isEligible x = true := isEligible_of_behind (hthins.behind hcycle.1) hroot'
    have hbefore : m.OnCycle root x := by
      refine hcycle.of_behind (fun hxy => h.behind (hthins.behind hxy)) fun hself => ?_
      rwa [hthins.strongTargets (isLive_of_mem_strongTargets hself), h.strongTargets] at hself
    obtain ⟨g, hg, hx⟩ := (onCycle_iff hroot).1 hbefore
    rw [← List.take_append_drop k (m.cyclesFrom root)] at hg
    exact ⟨g, (List.mem_append.1 hg).resolve_left fun hfirst => h.not_isEligible hfirst hx heligible, hx⟩
  · rintro ⟨g, hg, hx⟩
    have hbefore := (onCycle_iff hroot).2 ⟨g, List.mem_of_mem_drop hg, hx⟩
    obtain ⟨hbehind, hlivex⟩ := h.behind_left hroot hthins hisolated hg hx hlive hbefore.1
    refine ⟨hbehind, ?_⟩
    rcases hbefore.2 with ⟨y, hne, hxy⟩ | hself
    · exact .inl ⟨y, hne, (h.knotted_left hroot hthins hisolated hlive hg hx).1 hxy⟩
    · rw [← h.strongTargets, ← hthins.strongTargets hlivex] at hself
      exact .inr hself

theorem Registered.perm_left (hk : k < (m.cyclesFrom root).length) : m''.isEligible root = true ∧
    ((m''.cyclesFrom root).map List.toFinset).Perm (((m.cyclesFrom root).drop k).map List.toFinset) := by
  have hroot'' : m''.isEligible root = true := (hthins.isEligible hlive).trans (h.isEligible_root hroot hk)
  refine ⟨hroot'', (perm_classes hroot hroot'' (List.drop_sublist k _) (List.Sublist.refl _) (fun x => ?_)
    fun g hg x hx y => h.knotted_left hroot hthins hisolated hlive hg hx).symm⟩
  rw [← onCycle_iff hroot'', h.onCycle_iff_left hroot hthins hisolated hlive hk]

end Left

/-- What becomes of memory when the registry is full before all cycles behind an object are components. -/
structure Stopped (m : Memory) (root : Ref) (ids : List ComponentId) (m' : Memory) : Prop where
  classes : ∀ F : Finset Ref, F ∈ (m.cyclesFrom root).map List.toFinset ↔
    ∃ x, m.OnCycle root x ∧ ∀ y, y ∈ F ↔ m.Knotted x y
  sinksFirst : (m.cyclesFrom root).Pairwise fun g g' => ∀ x ∈ g, ∀ y ∈ g', ¬ m.Behind x y
  /-- The first cycles, as many as there were places, are components, and nothing else was done. -/
  registered : Registered m ((m.cyclesFrom root).take m.components.places) ids m'
  /-- If there had been places for all cycles, these would be the same components. -/
  large : ∀ c, m.components.liveCount + (m.cyclesFrom root).length ≤ c →
    min c (m.components.entries.size + (m.cyclesFrom root).length) < UInt32.size →
      ∃ large ids', (m.withCapacity c).freeze root = .done large ids' ∧
        FirstOf ((m.cyclesFrom root).take m.components.places) ids m' ids' large
  left : ∀ g ∈ (m.cyclesFrom root).drop m.components.places, ∀ x ∈ g, ∃ o, m.object? x = some o ∧
    m'.object? x = some o ∧ o.symmetric = false ∧ o.component = none ∧ o.frozen = false

theorem Ready.stopped (h : m.Ready root) (hroot : m.isEligible root = true) (hfrozen : m.FrozenTogether)
    (hmore : m.components.places < (m.cyclesFrom root).length)
    (hregistered : Registered m ((m.cyclesFrom root).take m.components.places) ids m')
    (hids : ids = (Release.freezeAll (m.cyclesFrom root) { memory := m }).2.1) : Stopped m root ids m' where
  classes F := by
    rw [mem_classes_iff hroot (List.Sublist.refl _)]
    exact exists_congr fun x => and_congr_left fun _ => (onCycle_iff hroot).symm
  sinksFirst := cyclesFrom_sinks_first hroot
  registered := hregistered
  large c hc hroom := by
    have hplaces : (m.cyclesFrom root).length ≤ (m.withCapacity c).components.places := Nat.le_sub_of_add_le' hc
    refine h.firstOf ?_ hroom hplaces hregistered hids
    unfold ComponentRegistry.places at hmore
    omega
  left g hg x hx := by
    obtain ⟨o, ho, hsym, -, hcomp⟩ := isEligible_iff.1
      (isEligible_of_mem_cyclesFrom (List.mem_of_mem_drop hg) hx)
    have hsame : m'.object? x = m.object? x := hregistered.unmarked x fun g' hg' hx' =>
      not_behind_of_mem_drop hroot hg hx g' hg' x hx' .refl
    refine ⟨o, ho, hsame.trans ho, hsym, hcomp, ?_⟩
    exact Bool.eq_false_iff.2 fun he => hfrozen x o ho he hcomp

end Memory

/-! ## The result -/

variable {ids : List ComponentId}

/-- Wherever a program gets, freezing an eligible object that it holds with more cycles behind it than the registry
has places for is refused. It makes the first cycles components, as freezing them all would have done, and leaves the
members of the others as they are. When references have been given up, the object is still held and there are places
enough, freezing it again makes components of exactly the cycles that were left. -/
theorem freeze_resumes (h : Attained config secret m held) (hop : (Operation.freeze root).Allowed m held)
    (hroot : m.isEligible root = true) (hheld : root ∈ held)
    (hmore : m.components.places < (m.cyclesFrom root).length) :
    ∃ m' ids, m.freeze root = .refused m' (.componentsExhausted m.components.capacity) ∧
      Attained config secret m' held ∧ Stopped m root ids m' ∧
      ∀ m'' heldNow, GivesUp m' held m'' heldNow → root ∈ heldNow →
        ((m.cyclesFrom root).drop m.components.places).length ≤ m''.components.places →
          ∃ last ids', m''.freeze root = .done last ids' ∧ Registered m'' (m''.cyclesFrom root) ids' last ∧
            ((m''.cyclesFrom root).map List.toFinset).Perm
              (((m.cyclesFrom root).drop m.components.places).map List.toFinset) := by
  have hroom := hop.2.2
  rw [h.config_eq, ← h.capacity, ← min_lt_iff] at hroom
  have hready := h.ready hroot hheld hroom
  obtain ⟨m', ids, hregistered, hfreeze, hids⟩ := hready.freeze_eq
  rw [freezeOutcome, if_neg (Nat.not_le.2 hmore)] at hfreeze
  have hout : (Command.operation (.freeze root)).outcome m =
      .refused m' (.componentsExhausted m.components.capacity) := by
    rw [Command.outcome, Operation.outcome, hfreeze]
    rfl
  have hm' : Attained config secret m' held := h.refused (.operation (.freeze root)) (.inr hop) hout
  refine ⟨m', ids, hfreeze, hm', hready.stopped hroot h.frozenTogether hmore hregistered hids, ?_⟩
  intro m'' heldNow hgives hheld' hplaces
  have hm'' := hgives.attained hm'
  obtain ⟨hthins, hsize⟩ := hgives.thins hm'
  obtain ⟨hroot'', hperm⟩ := hregistered.perm_left hroot hthins hm''.isolated (hm''.isLive_of_mem hheld') hmore
  have hlength : (m''.cyclesFrom root).length = ((m.cyclesFrom root).drop m.components.places).length := by
    simpa using hperm.length_eq
  have henough := hlength.le.trans hplaces
  -- the entries that the first freeze added are no more than the cycles that it made components
  have hroom'' : min m''.components.capacity (m''.components.entries.size + (m''.cyclesFrom root).length) <
      UInt32.size := by
    have hadded := hregistered.size
    have hcount := hregistered.length_eq
    rw [List.length_take] at hcount
    rw [List.length_drop] at hlength
    rw [hm''.capacity, ← h.capacity]
    omega
  obtain ⟨last, ids', hlast, hfreeze', -⟩ := (hm''.ready hroot'' hheld' hroom'').freeze_eq
  rw [freezeOutcome, if_pos henough] at hfreeze'
  rw [List.take_of_length_le henough] at hlast
  exact ⟨last, ids', hfreeze', hlast, hperm⟩

/-- What has two strong fields. -/
def twin : ObjectSpec :=
  { tag := 0, payload := .ofFlags [false, false] }

/-- Two objects, in a memory whose registry has one place. -/
def Memory.twoLoops (count count' : UInt32) (targets : List (Option Ref)) (targets' : List (Option Ref)) : Memory :=
  { (((Memory.ofConfig { componentCapacity := 1 } 0).allocate cell).1.allocate twin).1 with
    cells := #[some { cell with payload := .record (targets.map ({ weak := false, target := · })), count },
      some { twin with payload := .record (targets'.map ({ weak := false, target := · })), count := count' }] }

/-- Both refer to themselves, and the second refers to the first. -/
def Memory.chain : Memory :=
  .twoLoops 3 2 [some 0] [some 1, some 0]

theorem reachable_chain : Reachable { componentCapacity := 1 } 0 .chain (1 ::ₘ {0}) := by
  have hcell : cell.IsBlank := ObjectSpec.isBlank_ofFlags 0 [false] false false
  have htwin : twin.IsBlank := ObjectSpec.isBlank_ofFlags 0 [false, false] false false
  have hone := (@Reachable.start { componentCapacity := 1 } 0 .flat).done (.allocate cell) hcell rfl
  have htwo := hone.done (.allocate twin) htwin rfl
  have hthree := htwo.done (.setField 0 0 (some 0)) ⟨rfl, fun t ht => ?_⟩
    (outcome_of_finished (s := { memory := .twoLoops 2 1 [some 0] [none, none] }) rfl ⟨rfl, rfl⟩)
  have hfour := hthree.done (.setField 1 0 (some 1)) ⟨rfl, fun t ht => ?_⟩
    (outcome_of_finished (s := { memory := .twoLoops 2 2 [some 0] [some 1, none] }) rfl ⟨rfl, rfl⟩)
  refine hfour.done (.setField 1 1 (some 0)) ⟨rfl, fun t ht => ?_⟩
    (outcome_of_finished (s := { memory := .chain }) rfl ⟨rfl, rfl⟩)
  all_goals
    obtain rfl := Option.some.inj ht
    refine ⟨rfl, fun _ _ _ _ _ _ o ho _ => ?_⟩
    obtain rfl := Option.some.inj ho
    decide

theorem cyclesFrom_chain : Memory.chain.cyclesFrom 1 = [[0], [1]] := by
  have hcycle : ∀ x ∈ [0, 1], Memory.chain.isCycle [x] = true := by
    intro x hx
    have hinner : Memory.chain.innerReferences [x] = 1 := by
      rw [innerReferences_eq_countP]
      rcases List.mem_cons.1 hx with rfl | hx
      · rfl
      · obtain rfl := List.mem_singleton.1 hx
        rfl
    rw [isCycle, hinner]
    rfl
  have hforth : Memory.chain.eligibleLinks.graph.Reaches 1 0 :=
    reaches_eligibleLinks_iff.2 (.single ⟨by decide, rfl⟩)
  have hback : ∀ x, Memory.chain.Behind 0 x → x = 0 := by
    intro x hx
    induction hx with
    | refl => rfl
    | tail _ hlead ih =>
      subst ih
      exact List.mem_singleton.1 hlead.1
  have hcomponents : Memory.chain.eligibleLinks.components [1] = [[0], [1]] := by
    refine Links.components_eq_singletons (by decide) (fun x => ?_) (List.pairwise_pair.2 ⟨hforth, fun h => ?_⟩)
    · constructor
      · intro hx
        rcases List.mem_cons.1 hx with rfl | hx
        · exact hforth
        · rw [List.mem_singleton.1 hx]
          exact .refl 1
      · intro hx
        have hlt : x < 2 := hx.lt_size (by decide)
        interval_cases x <;> simp
    · exact absurd (hback 1 (reaches_eligibleLinks_iff.1 h)) (by decide)
  have heligible : Memory.chain.isEligible 1 = true := rfl
  rw [cyclesFrom, if_pos heligible, hcomponents, List.filter_cons_of_pos (hcycle 0 (by simp)),
    List.filter_cons_of_pos (hcycle 1 (by simp)), List.filter_nil]

theorem allowed_freeze_chain : (Operation.freeze 1).Allowed .chain (1 ::ₘ {0}) := by
  refine ⟨rfl, fun g hg => ?_, .inl (by decide)⟩
  rw [cyclesFrom_chain] at hg
  refine (Nat.sub_le _ _).trans_lt ?_
  rcases List.mem_cons.1 hg with rfl | hg
  · decide
  · obtain rfl := List.mem_singleton.1 hg
    decide

/-- The first object becomes a component, and the second is left until there is a place for it. -/
theorem freeze_resumes_chain : ∃ (m' : Memory) (ids : List ComponentId),
    Memory.chain.freeze 1 = .refused m' (.componentsExhausted 1) ∧
      ids.map m'.components.members? = [some [0]] ∧ m'.object? 1 = Memory.chain.object? 1 ∧
      ∀ m'' heldNow, GivesUp m' (1 ::ₘ {0}) m'' heldNow → 1 ∈ heldNow → 1 ≤ m''.components.places →
        ∃ last ids', m''.freeze 1 = .done last ids' ∧ (m''.cyclesFrom 1).map List.toFinset = [{1}] := by
  have hmore : Memory.chain.components.places < (Memory.chain.cyclesFrom 1).length := by
    rw [cyclesFrom_chain]
    decide
  obtain ⟨m', ids, hfreeze, -, hstopped, hagain⟩ :=
    freeze_resumes reachable_chain.attained allowed_freeze_chain rfl (by simp) hmore
  have hplaces : Memory.chain.components.places = 1 := rfl
  have hmembers := hstopped.registered.members
  obtain ⟨o, ho, ho', -⟩ := hstopped.left [1] (by rw [cyclesFrom_chain, hplaces]; simp) 1 (by simp)
  rw [cyclesFrom_chain, hplaces] at hmembers hagain
  refine ⟨m', ids, hfreeze, hmembers, ho'.trans ho.symm, fun m'' heldNow hgives hheld hroom => ?_⟩
  obtain ⟨last, ids', hfreeze', -, hperm⟩ := hagain m'' heldNow hgives hheld hroom
  exact ⟨last, ids', hfreeze', List.perm_singleton.1 hperm⟩

end Reclamation
