import Mathlib
import Reclamation.Proofs.Memory.Programs

/-!
# Which objects belong to which component

The members of a component know the component and the registry knows its members, wherever a program gets
(`Memory.Partitioned`). How many components are live is what was frozen less what was released, and no more than
the registry has room for (`Memory.Tallied`): only a group that becomes a component and a component that ends move
this tally, everything else is `Memory.SameTally`.
-/

set_option autoImplicit false

namespace Reclamation

/-! ## Live components -/

namespace ComponentRegistry

variable {t t' : ComponentRegistry} {id : ComponentId}

theorem liveEntries_le_size (t : ComponentRegistry) : t.liveEntries ≤ t.entries.size :=
  Array.countP_le_size

/-- The id that an entry has in its epoch. -/
def idAt (t : ComponentRegistry) (i : Nat) : ComponentId :=
  .ofParts i (t.entries[i]?.getD {}).epoch

/-- The ids of the live components. -/
def liveIds (t : ComponentRegistry) : List ComponentId :=
  ((List.range t.entries.size).filter fun i => (t.entries[i]?.getD {}).live).map t.idAt

theorem Sound.index?_idAt (h : t.Sound) {i : Nat} (hi : i < t.entries.size) : (t.idAt i).index? = some i :=
  ComponentId.index?_ofParts i _ (Nat.lt_of_le_of_lt hi h.size_lt)

theorem Sound.epoch_idAt (h : t.Sound) {i : Nat} (hi : i < t.entries.size) :
    (t.idAt i).epoch = (t.entries[i]?.getD {}).epoch :=
  ComponentId.epoch_ofParts i _ (Nat.lt_of_le_of_lt hi h.size_lt)

theorem Sound.mem_liveIds (h : t.Sound) : id ∈ t.liveIds ↔ t.isLive id = true := by
  simp only [liveIds, List.mem_map, List.mem_filter, List.mem_range]
  rw [t.entry?_isSome_iff id]
  constructor
  · rintro ⟨i, ⟨hi, hlive⟩, rfl⟩
    have hepoch := h.epoch_idAt hi
    rw [Array.getElem?_eq_getElem hi, Option.getD_some] at hlive hepoch
    exact ⟨i, t.entries[i], h.index?_idAt hi, Array.getElem?_eq_getElem hi, hlive, hepoch.symm⟩
  · rintro ⟨i, e, hindex, he, hlive, hepoch⟩
    have hi := (Array.getElem?_eq_some_iff.1 he).1
    have hepoch' := h.epoch_idAt hi
    rw [he, Option.getD_some] at hepoch'
    refine ⟨i, ⟨hi, by rwa [he]⟩, ?_⟩
    exact ComponentId.eq_of_index?_of_epoch (h.index?_idAt hi) hindex (hepoch'.trans hepoch)

theorem Sound.nodup_liveIds (h : t.Sound) : t.liveIds.Nodup := by
  refine List.Nodup.map_on (fun i hi j hj he => ?_) (List.nodup_range.filter _)
  simp only [List.mem_filter, List.mem_range] at hi hj
  have hindex := h.index?_idAt hi.1
  rw [he, h.index?_idAt hj.1] at hindex
  exact (Option.some.inj hindex).symm

theorem length_liveIds (t : ComponentRegistry) : t.liveIds.length = t.liveEntries := by
  have hentries : t.entries.toList = (List.range t.entries.size).map fun i => t.entries[i]?.getD {} := by
    apply List.ext_getElem (by simp)
    intro i hi _
    rw [Array.length_toList] at hi
    simp [hi]
  rw [liveIds, List.length_map, ← List.countP_eq_length_filter, liveEntries, ← Array.countP_toList, hentries,
    List.countP_map]
  rfl

/-! ## The tally -/

/-- What was frozen is live or was released, and the table has room for it. As many components are live as the table
says, and the free list has the entries that have no live component, each once. -/
structure Tallied (t : ComponentRegistry) (frozen released : Nat) : Prop where
  free_nodup : t.free.Nodup
  free_dead : ∀ i ∈ t.free, (t.entries[i]?).map (·.live) = some false
  free_of_dead : ∀ i, t.entries[i]?.map (·.live) = some false → i ∈ t.free
  size : t.entries.size ≤ t.capacity
  liveCount_eq : t.liveCount = t.liveEntries
  count : t.liveCount + released = frozen

namespace Tallied

variable {frozen released : Nat}

theorem empty (capacity : Nat) : Tallied { capacity } 0 0 where
  free_nodup := List.nodup_nil
  free_dead := by simp
  free_of_dead := by simp
  size := Nat.zero_le _
  liveCount_eq := rfl
  count := rfl

theorem liveCount_le_size (h : t.Tallied frozen released) : t.liveCount ≤ t.entries.size :=
  h.liveCount_eq.trans_le t.liveEntries_le_size

theorem of_sameExtent (h : t.Tallied frozen released) (hsame : t.SameExtent t') : t'.Tallied frozen released where
  free_nodup := hsame.free ▸ h.free_nodup
  free_dead i hi := by
    rw [← Array.getElem?_map, hsame.live, Array.getElem?_map]
    exact h.free_dead i (hsame.free ▸ hi)
  free_of_dead i hi := by
    rw [← Array.getElem?_map, hsame.live, Array.getElem?_map] at hi
    exact hsame.free ▸ h.free_of_dead i hi
  size := by
    rw [hsame.size, hsame.capacity]
    exact h.size
  liveCount_eq := by
    rw [hsame.liveCount, hsame.liveEntries, h.liveCount_eq]
  count := by
    rw [hsame.liveCount]
    exact h.count

/-- A new component is one more that was frozen. -/
theorem register (h : t.Tallied frozen released) {members : List Ref} {external : Nat}
    (hreg : t.register? members external = some (t', id)) : t'.Tallied (frozen + 1) released := by
  have hcount := h.count
  rcases register?_cases hreg with ⟨i, free, hfree, -, rfl⟩ | ⟨hfree, hlt, -, rfl⟩
  · obtain ⟨hnot, hnodup⟩ := List.nodup_cons.1 (hfree ▸ h.free_nodup)
    obtain ⟨e, he, hdead⟩ := Option.map_eq_some_iff.1 (h.free_dead i (hfree ▸ List.mem_cons_self))
    obtain ⟨hi, rfl⟩ := Array.getElem?_eq_some_iff.1 he
    refine ⟨hnodup, fun j hj => ?_, fun j hj => ?_, by simpa using h.size, ?_, ?_⟩
    · have hne : i ≠ j := fun hij => hnot (hij ▸ hj)
      rw [Array.getElem?_modify, if_neg hne]
      exact h.free_dead j (hfree ▸ List.mem_cons_of_mem _ hj)
    · by_cases hij : i = j
      · rw [Array.getElem?_modify, if_pos hij, Option.map_map] at hj
        obtain ⟨e, -, hdead'⟩ := Option.map_eq_some_iff.1 hj
        exact absurd hdead' (by simp [ComponentEntry.renew])
      · rw [Array.getElem?_modify, if_neg hij] at hj
        have hmem := h.free_of_dead j hj
        rw [hfree] at hmem
        exact (List.mem_cons.1 hmem).resolve_left (Ne.symm hij)
    · show t.liveCount + 1 = (t.entries.modify i (·.renew members external)).countP (·.live)
      rw [h.liveCount_eq]
      simp only [Array.modify, Array.modifyM, hi, ↓reduceDIte]
      simp [Array.countP_set, hdead, ComponentEntry.renew, liveEntries]
    · dsimp only
      omega
  · refine ⟨h.free_nodup, fun j hj => ?_, fun j hj => ?_, by simpa using hlt, ?_, ?_⟩
    · rw [hfree] at hj
      exact absurd hj (by simp)
    · by_cases hlast : j = t.entries.size
      · rw [hlast, Array.getElem?_push_size] at hj
        exact absurd hj (by simp [ComponentEntry.renew])
      · rw [Array.getElem?_push, if_neg hlast] at hj
        exact h.free_of_dead j hj
    · show t.liveCount + 1 = (t.entries.push (.renew {} members external)).countP (·.live)
      rw [h.liveCount_eq]
      simp [liveEntries, ComponentEntry.renew]
    · dsimp only
      omega

/-- The end of a component is the release of one. -/
theorem take (h : t.Tallied frozen released) (hlive : t.isLive id = true) :
    (t.take id).Tallied frozen (released + 1) := by
  have hcount := h.count
  have hless := liveEntries_take hlive
  have hkept : (t.take id).liveCount + 1 = t.liveCount := by
    have hpos : 0 < t.liveCount := by
      rw [h.liveCount_eq]
      omega
    rw [ComponentRegistry.take, if_pos hlive]
    exact Nat.sub_add_cancel hpos
  obtain ⟨e, he⟩ := isLive_iff.1 hlive
  obtain ⟨i, hindex, hi, hl, -⟩ := entry?_eq_some_iff.1 he
  have hdead : ∀ j ∈ t.free, i ≠ j := by
    rintro j hj rfl
    have := h.free_dead i hj
    rw [hi, Option.map_some, hl] at this
    exact absurd this (by decide)
  have hsame := h.liveCount_eq
  refine ⟨?_, fun j hj => ?_, fun j hj => ?_, ?_, by omega, by omega⟩
  · rw [take_of_entry he hindex]
    exact List.nodup_cons.2 ⟨fun hmem => hdead i hmem rfl, h.free_nodup⟩
  · rw [take_of_entry he hindex] at hj ⊢
    rcases List.mem_cons.1 hj with rfl | hj
    · simp [Array.getElem?_modify, hi]
    · rw [Array.getElem?_modify, if_neg (hdead j hj)]
      exact h.free_dead j hj
  · rw [take_of_entry he hindex] at hj ⊢
    by_cases hij : i = j
    · exact hij ▸ List.mem_cons_self
    · rw [Array.getElem?_modify, if_neg hij] at hj
      exact List.mem_cons_of_mem _ (h.free_of_dead j hj)
  · rw [take_of_entry he hindex]
    simpa using h.size

/-- There is no room exactly if as many components are live as there may be. -/
theorem register?_eq_none_iff (h : t.Tallied frozen released) (members : List Ref) (external : Nat) :
    t.register? members external = none ↔ t.liveCount = t.capacity := by
  rw [ComponentRegistry.register?_eq_none_iff]
  have hsize := h.size
  have hle := h.liveCount_le_size
  have hall : t.free = [] ↔ t.liveCount = t.entries.size := by
    rw [h.liveCount_eq, liveEntries, Array.countP_eq_size, List.eq_nil_iff_forall_not_mem]
    constructor
    · intro hfree e he
      obtain ⟨i, hi, rfl⟩ := Array.mem_iff_getElem.1 he
      by_contra hdead
      exact hfree i (h.free_of_dead i (by simpa [Array.getElem?_eq_getElem hi] using hdead))
    · intro hlive i hi
      obtain ⟨e, he, hdead⟩ := Option.map_eq_some_iff.1 (h.free_dead i hi)
      rw [hlive e (Array.mem_of_getElem? he)] at hdead
      exact absurd hdead (by decide)
  rw [hall]
  omega

end Tallied

end ComponentRegistry

namespace Memory

/-- All components that were frozen are accounted for. -/
def Tallied (m : Memory) : Prop :=
  m.components.Tallied m.stats.componentsFrozen m.stats.componentsReleased

/-- No component begins or ends. -/
structure SameTally (m m' : Memory) : Prop where
  extent : m.components.SameExtent m'.components
  frozen : m'.stats.componentsFrozen = m.stats.componentsFrozen
  released : m'.stats.componentsReleased = m.stats.componentsReleased

namespace SameTally

variable {m m' m'' : Memory}

theorem refl (m : Memory) : SameTally m m :=
  ⟨.refl _, rfl, rfl⟩

theorem trans (h : SameTally m m') (h' : SameTally m' m'') : SameTally m m'' :=
  ⟨h.extent.trans h'.extent, h'.frozen.trans h.frozen, h'.released.trans h.released⟩

theorem of_components (hcomponents : m'.components = m.components)
    (hfrozen : m'.stats.componentsFrozen = m.stats.componentsFrozen)
    (hreleased : m'.stats.componentsReleased = m.stats.componentsReleased) : SameTally m m' :=
  ⟨hcomponents ▸ .refl _, hfrozen, hreleased⟩

theorem of_recounted (h : Recounted m m') (hextent : m.components.SameExtent m'.components) : SameTally m m' :=
  ⟨hextent, congrArg (·.componentsFrozen) h.stats, congrArg (·.componentsReleased) h.stats⟩

theorem tallied (h : SameTally m m') (hm : m.Tallied) : m'.Tallied := by
  unfold Tallied
  rw [h.frozen, h.released]
  exact hm.of_sameExtent h.extent

/-- One change after the other. -/
theorem foldl {α : Type} {f : Memory → α → Memory} (hf : ∀ m a, SameTally m (f m a)) :
    ∀ (l : List α) (m : Memory), SameTally m (l.foldl f m)
  | [], m => .refl m
  | a :: l, m => (hf m a).trans (foldl hf l (f m a))

theorem clearReferrers (m : Memory) (r : Ref) : SameTally m (m.clearReferrers r) := by
  unfold Memory.clearReferrers
  dsimp only
  refine .trans ?_ (foldl (fun m field => ?_) (m.referrers.getD r []) _) <;> exact .of_components rfl rfl rfl

theorem vacate (m : Memory) (r : Ref) (origin : Origin) : SameTally m (m.vacate r origin) := by
  cases origin <;> exact .of_components rfl rfl rfl

theorem remove (m : Memory) (r : Ref) : SameTally m (m.remove r) := by
  unfold Memory.remove
  split
  · exact .refl m
  · next o _ =>
    refine ((clearReferrers m r).trans (foldl (fun m field => ?_) o.weakTargets _)).trans (vacate _ r o.origin)
    exact .of_components rfl rfl rfl

theorem markFrozen (members : List Ref) (m : Memory) (id : ComponentId) :
    SameTally m (m.markFrozen members id) := by
  unfold Memory.markFrozen
  refine foldl (fun m r => ?_) members m
  exact .of_components rfl rfl rfl

end SameTally

end Memory

namespace Release

open Memory

variable {s t : Release}

theorem sameTally_dropEdges {targets : List Ref} (h : targets.foldlM dropEdge s = some t) :
    SameTally s.memory t.memory :=
  foldlM_induction (P := fun u => SameTally s.memory u.memory)
    (fun _ hd hu => hu.trans (.of_recounted (recounted_dropEdge hd) (lowers_dropEdge hd).sameExtent)) h (.refl _)

theorem sameTally_discard {group : List Ref} (h : s.discard group = some t) : SameTally s.memory t.memory := by
  have hremoved := SameTally.foldl SameTally.remove group s.memory
  exact hremoved.trans (sameTally_dropEdges (discard_eq_some h))

theorem tallied_endComponent {id : ComponentId} (hlive : s.memory.components.isLive id = true)
    (h : s.endComponent id = some t) (hs : s.memory.Tallied) : t.memory.Tallied := by
  unfold endComponent at h
  obtain ⟨u, hu, rfl⟩ := Option.map_eq_some_iff.1 h
  have hsame := sameTally_discard hu
  have htaken := (hs.take hlive).of_sameExtent hsame.extent
  unfold Memory.Tallied
  rw [hsame.frozen, hsame.released]
  exact htaken

theorem Step.tallied (h : Step s t) (hs : s.memory.Tallied) : t.memory.Tallied := by
  cases h with
  | object _ hd => exact (sameTally_discard hd).tallied hs
  | @component _ _ work _ hlive hd => exact tallied_endComponent (s := { s with work }) hlive hd hs
  | ended _ _ => exact hs
  | orphans _ _ hd => exact (sameTally_discard hd).tallied hs

end Release

namespace Memory

variable {m m' : Memory} {config : Config}

theorem Change.tallied (h : Change m m') (hm : m.Tallied) : m'.Tallied := by
  cases h with
  | recount hrecounted hextent => exact (SameTally.of_recounted hrecounted hextent).tallied hm
  | rearrange _ types scopes applied => exact hm
  | search _ _ => exact hm
  | @freeze s members components id hreg =>
    have hmarked := SameTally.markFrozen members { s.memory with components } id
    have hregistered := (hm.register hreg).of_sameExtent hmarked.extent
    unfold Tallied Release.frozen
    dsimp only
    rw [hmarked.frozen, hmarked.released]
    exact hregistered
  | step _ hstep => exact hstep.tallied hm

theorem Changes.tallied (h : Changes m m') (hm : m.Tallied) : m'.Tallied :=
  h.keeps Change.tallied hm

/-- What a command does keeps the tally. -/
theorem Tallied.advance {c : Command} (h : c.Advance m m') (hm : m.Tallied) : m'.Tallied := by
  cases h with
  | changed deferred hchanges =>
    refine hchanges.tallied ?_
    rcases Command.written_cases m c with he | ⟨r, index, target, referrers, he⟩ <;> rw [he] <;> exact hm
  | placed _ hplaced =>
    have hfrozen := congrArg (·.componentsFrozen) hplaced.stats
    have hreleased := congrArg (·.componentsReleased) hplaced.stats
    exact (SameTally.of_components hplaced.components hfrozen hreleased).tallied hm
  | beside _ hbeside =>
    obtain ⟨arenasDestroyed, hstats⟩ := hbeside.stats
    have hfrozen := congrArg (·.componentsFrozen) hstats
    have hreleased := congrArg (·.componentsReleased) hstats
    exact (SameTally.of_components hbeside.components hfrozen hreleased).tallied hm

/-! ## Membership -/

/-- The members of a component and what the registry says of it. -/
structure Partitioned (m : Memory) : Prop where
  nodup : ∀ id e, m.components.entry? id = some e → e.members.Nodup
  disjoint : ∀ id id' e e', m.components.entry? id = some e → m.components.entry? id' = some e' → id ≠ id' →
    List.Disjoint e.members e'.members
  members : ∀ id e, m.components.entry? id = some e → ∀ r ∈ e.members, ∃ o, m.object? r = some o ∧
    o.frozen = true ∧ o.symmetric = false ∧ o.arena? = none ∧ o.component = some id
  owned : ∀ r o id, m.object? r = some o → o.component = some id →
    ∃ e, m.components.entry? id = some e ∧ r ∈ e.members

end Memory

open Memory

theorem Balanced.partitioned {s : Release} {outer extra : Multiset Ref} (h : Balanced s outer extra) :
    s.memory.Partitioned where
  nodup id e he := (h.component id e he).nodup
  disjoint id id' e e' he he' hne r hr hr' := hne (h.eq_of_mem_members he he' hr hr')
  members id e he r hr := by
    obtain ⟨o, ho, hsym, hcomp, hfrozen⟩ := (h.component id e he).frozen r hr
    exact ⟨o, ho, hfrozen, hsym, h.tidy.no_arena r o ho, hcomp⟩
  owned := h.member

/-- Objects of arenas are in no component. -/
theorem Memory.Partitioned.joined {n : Memory} {regions : Regions} (h : n.Partitioned) (hapart : regions.Apart n) :
    (n.joined regions).Partitioned where
  nodup := h.nodup
  disjoint := h.disjoint
  members id e he r hr := by
    obtain ⟨o, ho, hrest⟩ := h.members id e he r hr
    exact ⟨o, object?_joined hapart ho, hrest⟩
  owned r o id ho hc := by
    rcases object?_joined_cases (r := r) hapart with ⟨-, he⟩ | ⟨o', hsome, -, he⟩
    · exact h.owned r o id (he.symm.trans ho) hc
    · obtain rfl := Option.some.inj (he.symm.trans ho)
      exact absurd (hc.symm.trans (hapart.plain r _ hsome).2.1) (by simp)

variable {config : Config} {secret : UInt64} {m : Memory} {held : Multiset Ref}

/-- What a program was configured with stays, and the tally with it. -/
theorem Attained.tallied (h : Attained config secret m held) : ∃ n regions lost, m = Memory.joined n regions ∧
    Divided n regions held lost ∧ n.config = config ∧ n.Tallied := by
  refine h.induction (P := fun n => n.config = config ∧ n.Tallied) (fun _ => ⟨rfl, .empty _⟩) ?_
  rintro c n n' held held' lost lost' - - hadvance ⟨hconfig, htallied⟩
  exact ⟨hadvance.config.trans hconfig, htallied.advance hadvance⟩

/-- Wherever a program gets, be its freezes carried out or stopped by a full registry: the members of different
components are different objects, each knows its component, and whoever has a component is a member of it; as many
components are live as were frozen and not released, and no more than the registry may hold. -/
theorem components_conserved (h : Attained config secret m held) :
    m.Partitioned ∧ ∃ ids : List ComponentId, ids.Nodup ∧ (∀ id, id ∈ ids ↔ m.components.isLive id = true) ∧
      ids.length = m.components.liveCount ∧ m.stats.componentsReleased ≤ m.stats.componentsFrozen ∧
      ids.length = m.stats.componentsFrozen - m.stats.componentsReleased ∧ ids.length ≤ config.componentCapacity := by
  obtain ⟨n, regions, lost, rfl, hdivided, hconfig, htallied⟩ := h.tallied
  have hbalanced := hdivided.consistent.balanced
  have hsound := hbalanced.tidy.registry
  have hlength : n.components.liveIds.length = n.components.liveCount :=
    n.components.length_liveIds.trans htallied.liveCount_eq.symm
  refine ⟨hbalanced.partitioned.joined hdivided.apart, n.components.liveIds, hsound.nodup_liveIds,
    fun id => hsound.mem_liveIds, hlength, ?_, ?_, ?_⟩
  · exact Nat.le_of_add_left_le htallied.count.le
  · exact hlength.trans (Nat.eq_sub_of_add_eq htallied.count)
  · rw [hlength, ← hconfig, ← hdivided.consistent.capacity]
    exact htallied.liveCount_le_size.trans htallied.size

theorem components_conserved_loop : Memory.frozenLoop.Partitioned ∧
    ∃ id, ∀ id', Memory.frozenLoop.components.isLive id' = true ↔ id' = id := by
  obtain ⟨hpartitioned, ids, -, hids, hlength, -⟩ := components_conserved attained_frozenLoop
  obtain ⟨id, rfl⟩ := List.length_eq_one_iff.1 (hlength.trans rfl)
  exact ⟨hpartitioned, id, fun id' => by rw [← hids, List.mem_singleton]⟩

end Reclamation
