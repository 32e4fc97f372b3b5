import Mathlib
import Reclamation.Proofs.Memory.Cycles
import Reclamation.Proofs.Memory.Membership

/-!
# Freezing more cycles than the registry has places for

Groups become components one after the other. So a registry that is full in between has taken the first of them, as
many as it had places (`Release.freezeAll_eq_take`). Had it had more places, these would have become the same
components (`Release.ids_isPrefix_freezeAll`). If the object stays referenced, freezing it does this and nothing else,
be there enough places or not (`Memory.Ready.freeze_eq`).
-/

set_option autoImplicit false

namespace Reclamation

theorem map_eq_map_of_isPrefix {α β γ : Type} {f : α → γ} {g : β → γ} {l l' : List α} {k k' : List β}
    (hl : l <+: l') (hk : k <+: k') (hlength : l.length = k.length) (h : l'.map f = k'.map g) : l.map f = k.map g := by
  have hl' : l.map f <+: k'.map g := h ▸ hl.map f
  have hlength' : (l.map f).length = (k.map g).length := by rw [List.length_map, List.length_map, hlength]
  exact (List.prefix_of_prefix_length_le hl' (hk.map g) hlength'.le).eq_of_length hlength'

/-! ## Places -/

namespace ComponentRegistry

variable {t t' : ComponentRegistry} {id : ComponentId} {members : List Ref} {external frozen released c : Nat}

/-- How many more components the registry can hold. -/
def places (t : ComponentRegistry) : Nat :=
  t.capacity - t.liveCount

theorem Tallied.register?_eq_none_iff_places (h : t.Tallied frozen released) :
    t.register? members external = none ↔ t.places = 0 := by
  have hle := h.liveCount_le_size.trans h.size
  rw [h.register?_eq_none_iff, places]
  omega

theorem Tallied.places_register (h : t.Tallied frozen released)
    (hreg : t.register? members external = some (t', id)) : t.places = t'.places + 1 := by
  have h' := h.register hreg
  have hcount := h.count
  have hcount' := h'.count
  have hle := h'.liveCount_le_size.trans h'.size
  have hcapacity := Memory.capacity_register hreg
  unfold places
  omega

theorem Tallied.of_capacity_le (h : t.Tallied frozen released) (hle : t.capacity ≤ c) :
    ({ t with capacity := c } : ComponentRegistry).Tallied frozen released :=
  { h with size := h.size.trans hle }

/-- A larger registry enters a component in the same way. -/
theorem register?_of_capacity_le (hle : t.capacity ≤ c) (hreg : t.register? members external = some (t', id)) :
    ({ t with capacity := c } : ComponentRegistry).register? members external =
      some ({ t' with capacity := c }, id) := by
  unfold register? at hreg ⊢
  dsimp only
  cases hfree : t.free with
  | cons i free =>
    rw [hfree] at hreg
    obtain ⟨rfl, rfl⟩ := Prod.mk.inj (Option.some.inj hreg)
    rfl
  | nil =>
    rw [hfree] at hreg
    dsimp only at hreg ⊢
    by_cases hlt : t.entries.size < t.capacity
    · rw [if_pos hlt] at hreg
      rw [if_pos (hlt.trans_le hle)]
      obtain ⟨rfl, rfl⟩ := Prod.mk.inj (Option.some.inj hreg)
      rfl
    · rw [if_neg hlt] at hreg
      exact absurd hreg (by simp)

end ComponentRegistry

/-! ## Groups that become components -/

namespace Memory

/-- Memory whose registry has another capacity. -/
def withCapacity (m : Memory) (c : Nat) : Memory :=
  { m with components.capacity := c }

theorem markFrozen_withComponents (id : ComponentId) (components : ComponentRegistry) :
    ∀ (members : List Ref) (m : Memory), ({ m with components } : Memory).markFrozen members id =
      { m.markFrozen members id with components } := by
  intro members
  induction members with
  | nil => exact fun m => rfl
  | cons r members ih => exact fun m => ih (m.update r (marked id))

end Memory

namespace Release

open Memory

variable {s : Release}

/-- Groups are frozen until there is no place left. -/
theorem freezeAll_eq_take : ∀ (groups : List (List Ref)) {s : Release}, s.memory.Tallied →
    (freezeAll (groups.take s.memory.components.places) s).2.2 = none ∧
      freezeAll groups s = ((freezeAll (groups.take s.memory.components.places) s).1,
        (freezeAll (groups.take s.memory.components.places) s).2.1,
        if groups.length ≤ s.memory.components.places then none
        else some (.componentsExhausted s.memory.components.capacity)) := by
  intro groups
  induction groups with
  | nil =>
    intro s _
    rw [List.take_nil, List.length_nil, if_pos (Nat.zero_le _)]
    exact ⟨rfl, rfl⟩
  | cons g groups ih =>
    intro s hs
    cases hreg : s.memory.components.register? g (s.memory.externalCount g) with
    | none =>
      rw [hs.register?_eq_none_iff_places.1 hreg, freezeAll_cons_of_full hreg, List.take_zero]
      exact ⟨rfl, by rw [if_neg (by simp)]; rfl⟩
    | some new =>
      obtain ⟨components, id⟩ := new
      obtain ⟨hdone, hrest⟩ := ih ((Change.freeze hreg).tallied hs)
      rw [components_frozen] at hdone hrest
      rw [hs.places_register hreg, List.take_succ_cons, freezeAll_cons_of_register hreg,
        freezeAll_cons_of_register hreg]
      refine ⟨hdone, ?_⟩
      rw [hrest, capacity_register hreg, List.length_cons]
      simp only [Nat.add_le_add_iff_right]

theorem frozen_withCapacity (c : Nat) (g : List Ref) (components : ComponentRegistry) (id : ComponentId) :
    ({ s with memory := s.memory.withCapacity c } : Release).frozen g { components with capacity := c } id =
      { s.frozen g components id with memory := (s.frozen g components id).memory.withCapacity c } := by
  have hmark := markFrozen_withComponents id { components with capacity := c } g s.memory
  have hmark' := markFrozen_withComponents id components g s.memory
  unfold frozen
  dsimp only
  rw [show ({ s.memory.withCapacity c with components := { components with capacity := c } } : Memory) =
    { s.memory with components := { components with capacity := c } } from rfl, hmark, hmark']
  rfl

/-- In a larger registry the groups that become components get the same ids, and other groups may follow. -/
theorem ids_isPrefix_freezeAll {c : Nat} : ∀ {groups : List (List Ref)} {s : Release},
    s.memory.components.capacity ≤ c →
      (freezeAll groups s).2.1 <+: (freezeAll groups { s with memory := s.memory.withCapacity c }).2.1 := by
  intro groups
  induction groups with
  | nil => exact fun _ => List.prefix_refl []
  | cons g groups ih =>
    intro s hle
    cases hreg : s.memory.components.register? g (s.memory.externalCount g) with
    | none =>
      rw [freezeAll_cons_of_full hreg]
      exact List.nil_prefix
    | some new =>
      obtain ⟨components, id⟩ := new
      have hreg' := ComponentRegistry.register?_of_capacity_le hle hreg
      rw [freezeAll_cons_of_register hreg,
        freezeAll_cons_of_register (s := { s with memory := s.memory.withCapacity c }) hreg', frozen_withCapacity]
      refine List.cons_prefix_cons.2 ⟨rfl, ih ?_⟩
      rw [components_frozen, capacity_register hreg]
      exact hle

end Release

/-! ## Freezing an object that stays referenced -/

namespace Memory

variable {m m' : Memory} {held : Multiset Ref} {root x : Ref} {ids : List ComponentId} {c : Nat}

/-- All that is asked of memory for the cycles behind an object to become components, as long as there are places. -/
structure Ready (m : Memory) (root : Ref) : Prop where
  tallied : m.Tallied
  registry : m.components.Sound
  /-- The numbers of the entries are words. -/
  room : min m.components.capacity (m.components.entries.size + (m.cyclesFrom root).length) < UInt32.size
  external : ∀ g ∈ m.cyclesFrom root, m.externalCount g ≠ 0

/-- What a freeze that comes to an end or is stopped has to say. -/
def freezeOutcome (m : Memory) (root : Ref) (m' : Memory) (ids : List ComponentId) : Outcome (List ComponentId) :=
  if (m.cyclesFrom root).length ≤ m.components.places then .done m' ids
  else .refused m' (.componentsExhausted m.components.capacity)

theorem Ready.freeze_eq (h : m.Ready root) : ∃ m' ids,
    Registered m ((m.cyclesFrom root).take m.components.places) ids m' ∧
      m.freeze root = m.freezeOutcome root m' ids ∧
        ids = (Release.freezeAll (m.cyclesFrom root) { memory := m }).2.1 := by
  obtain ⟨hdone, hall⟩ := Release.freezeAll_eq_take (m.cyclesFrom root) (s := { memory := m }) h.tallied
  have hroom : min m.components.capacity
      (m.components.entries.size + ((m.cyclesFrom root).take m.components.places).length) < UInt32.size := by
    have hall := h.room
    have hlength := List.length_take_le' m.components.places (m.cyclesFrom root)
    omega
  obtain ⟨hregistered, hsame⟩ := Release.registered_freezeAll (s := { memory := m }) h.registry
    ((disjoint_cyclesFrom m root).sublist (List.take_sublist _ _)) hroom
    (fun g hg => h.external g (List.mem_of_mem_take hg)) hdone
  have hfinished : (Release.freezeAll (m.cyclesFrom root) { memory := m }).1.Finished := by
    rw [hall, hsame]
    exact ⟨rfl, rfl⟩
  refine ⟨_, _, hregistered, ?_, by rw [hall]⟩
  unfold Memory.freeze freezeOutcome
  dsimp only
  rw [Release.run_of_finished hfinished, hall]
  by_cases hle : (m.cyclesFrom root).length ≤ m.components.places
  · rw [if_pos hle, if_pos hle]
  · rw [if_neg hle, if_neg hle]

theorem Ready.of_capacity_le (h : m.Ready root) (hle : m.components.capacity ≤ c)
    (hroom : min c (m.components.entries.size + (m.cyclesFrom root).length) < UInt32.size) :
    (m.withCapacity c).Ready root where
  tallied := h.tallied.of_capacity_le hle
  registry := { h.registry with }
  room := hroom
  external := h.external

/-- The ids are those that a larger registry gives out first, for the same groups with the same counts. -/
structure FirstOf (groups : List (List Ref)) (ids : List ComponentId) (m' : Memory)
    (ids' : List ComponentId) (large : Memory) : Prop where
  isPrefix : ids <+: ids'
  members : ∀ id ∈ ids, large.components.members? id = m'.components.members? id
  external : ∀ id ∈ ids, large.components.external? id = m'.components.external? id
  objects : ∀ g ∈ groups, ∀ x ∈ g, large.object? x = m'.object? x

/-- Had the registry been large enough, the groups that it had places for would have become the same components. -/
theorem Ready.firstOf (h : m.Ready root) (hle : m.components.capacity ≤ c)
    (hroom : min c (m.components.entries.size + (m.cyclesFrom root).length) < UInt32.size)
    (hplaces : (m.cyclesFrom root).length ≤ (m.withCapacity c).components.places)
    (hregistered : Registered m ((m.cyclesFrom root).take m.components.places) ids m')
    (hids : ids = (Release.freezeAll (m.cyclesFrom root) { memory := m }).2.1) :
    ∃ large ids', (m.withCapacity c).freeze root = .done large ids' ∧
      FirstOf ((m.cyclesFrom root).take m.components.places) ids m' ids' large := by
  obtain ⟨large, ids', hlarge, hfreeze, hids'⟩ := (h.of_capacity_le hle hroom).freeze_eq
  have hcycles : (m.withCapacity c).cyclesFrom root = m.cyclesFrom root := rfl
  rw [hcycles, List.take_of_length_le hplaces] at hlarge
  rw [freezeOutcome, hcycles, if_pos hplaces] at hfreeze
  have hinitial : ids <+: ids' := by
    rw [hids, hids']
    exact Release.ids_isPrefix_freezeAll (s := { memory := m }) hle
  have hlength := hregistered.length_eq
  have htake := List.take_prefix m.components.places (m.cyclesFrom root)
  have hmembers : ∀ id ∈ ids, large.components.members? id = m'.components.members? id :=
    List.map_inj_left.1 ((map_eq_map_of_isPrefix hinitial htake hlength hlarge.members).trans hregistered.members.symm)
  have hexternal : ∀ id ∈ ids, large.components.external? id = m'.components.external? id :=
    List.map_inj_left.1
      ((map_eq_map_of_isPrefix hinitial htake hlength hlarge.external).trans hregistered.external.symm)
  refine ⟨large, ids', hfreeze, hinitial, hmembers, hexternal, fun g hg x hx => ?_⟩
  obtain ⟨id, hid, hg'⟩ := hregistered.exists_id hg
  rw [hregistered.marked id hid g hg' x hx,
    hlarge.marked id (hinitial.subset hid) g ((hmembers id hid).trans hg') x hx]
  rfl

end Memory

open Memory

variable {config : Config} {secret : UInt64} {m : Memory} {held : Multiset Ref} {root : Ref}

/-- Wherever a program gets, the cycles behind an object that it holds can become components. -/
theorem Attained.ready (h : Attained config secret m held) (hroot : m.isEligible root = true) (hheld : root ∈ held)
    (hroom : min m.components.capacity (m.components.entries.size + (m.cyclesFrom root).length) < UInt32.size) :
    m.Ready root := by
  obtain ⟨n, regions, lost, rfl, hdivided, -, htallied⟩ := h.tallied
  have hapart := hdivided.apart
  have hconsistent := hdivided.consistent
  refine ⟨htallied, hconsistent.balanced.tidy.registry, hroom, fun g hg => ?_⟩
  rw [cyclesFrom_joined hapart] at hg
  have hnone : ∀ x ∈ g, regions.objects x = none := fun x hx => by
    obtain ⟨o, ho, -⟩ := isEligible_iff.1 (isEligible_of_mem_cyclesFrom hg hx)
    exact objects_eq_none hapart ho
  have hsame : (n.joined regions).externalCount g = n.externalCount g :=
    Release.externalCount_joined (s := { memory := n }) hnone
  have hstays : n.StaysReferenced held root :=
    ⟨root, ⟨.refl, .refl⟩, .inl (Multiset.mem_add.2 (.inl hheld))⟩
  rw [hsame]
  exact hconsistent.externalCount_ne_zero ((isEligible_joined hapart root).symm.trans hroot) hstays hg

end Reclamation
