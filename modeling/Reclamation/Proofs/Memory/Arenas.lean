import Mathlib
import Reclamation.Memory.Region
import Reclamation.Proofs.Memory.Framing

/-!
# Arenas and the memory beside them

What the operations on arenas do, in terms of memory without arenas and the objects of arenas beside it. An object
that is placed in an arena is new among the objects of arenas, and memory without arenas gets one more empty cell
(`Memory.place_joined_put`). Taking out an arena takes out its objects, which are all that refer to each other
(`Divided.emptyArena_joined`).

`Divided` says that the two parts fit: the lists of the arenas name their objects, and the decrements that wait for
objects outside arenas are those that memory without arenas knows of.
-/

set_option autoImplicit false

namespace Reclamation

/-! ## One more cell -/

namespace Memory

variable {n : Memory} {held lost : Multiset Ref}

/-- Memory with one more cell, in which nothing is. -/
def addCell (n : Memory) : Memory :=
  { n with cells := n.cells.push none }

theorem object?_addCell (n : Memory) (x : Ref) : n.addCell.object? x = n.object? x := by
  unfold object? addCell
  dsimp only
  rw [Array.getElem?_push]
  split
  · next hx =>
    rw [hx, Array.getElem?_eq_none (Nat.le_refl _)]
    rfl
  · rfl

theorem Consistent.addCell (h : n.Consistent held lost) : n.addCell.Consistent held lost := by
  have hobject := object?_addCell n
  have hsize : n.cells.size ≤ n.addCell.cells.size := (Array.size_push _).symm ▸ Nat.le_succ _
  have hages : Ages n n.addCell := by
    refine ⟨rfl, rfl, fun y x hx => ⟨x, hx, .inl rfl⟩, fun y _ _ => rfl, fun y o _ ho => ⟨o, ?_, rfl⟩⟩
    rwa [hobject] at ho
  exact h.next hages rfl rfl rfl
    (h.settled.of_objects hobject rfl (h.tidy.of_objects hobject hsize rfl rfl rfl))

end Memory

/-! ## The objects of arenas -/

namespace Regions

variable {n : Memory} {regions : Regions} {r x : Ref} {o : Object} {arenas : Array Arena} {id : ArenaId}
  {a a' : Arena}

/-- Whether an object is one of an arena. -/
def Holds (regions : Regions) (id : ArenaId) (r : Ref) : Prop :=
  ∃ o, regions.objects r = some o ∧ o.arena? = some id

/-- One more object of an arena, or another one in its place. -/
def put (regions : Regions) (r : Ref) (o : Object) : Regions :=
  { regions with objects := fun x => if x = r then some o else regions.objects x }

/-- The objects of arenas but for some. -/
def without (regions : Regions) (group : List Ref) : Regions :=
  { regions with objects := fun x => if x ∈ group then none else regions.objects x }

theorem objects_put (regions : Regions) (r : Ref) (o : Object) (x : Ref) :
    (regions.put r o).objects x = if x = r then some o else regions.objects x :=
  rfl

theorem objects_without (regions : Regions) (group : List Ref) (x : Ref) :
    (regions.without group).objects x = if x ∈ group then none else regions.objects x :=
  rfl

/-- An object is one of its own arena only. -/
theorem holds_iff (ho : regions.objects r = some o) : regions.Holds id r ↔ o.arena? = some id := by
  constructor
  · rintro ⟨o', ho', hid⟩
    obtain rfl := Option.some.inj (ho.symm.trans ho')
    exact hid
  · exact fun hid => ⟨o, ho, hid⟩

/-- The lists of the arenas name the objects of arenas, and an arena that is destroyed has none. -/
structure Listed (regions : Regions) (arenas : Array Arena) : Prop where
  holds : ∀ id r, regions.Holds id r ↔ ∃ a, arenas[id]? = some a ∧ r ∈ a.objects
  ended : ∀ (id : ArenaId) (a : Arena), arenas[id]? = some a → a.destroyed = true → a.objects = []

namespace Listed

theorem mem_iff (h : regions.Listed arenas) (ha : arenas[id]? = some a) : r ∈ a.objects ↔ regions.Holds id r := by
  rw [h.holds id r]
  constructor
  · exact fun hr => ⟨a, ha, hr⟩
  · rintro ⟨b, hb, hr⟩
    obtain rfl := Option.some.inj (ha.symm.trans hb)
    exact hr

/-- Nothing is in an arena that is destroyed. -/
theorem not_holds_of_destroyed (h : regions.Listed arenas) (ha : arenas[id]? = some a) (hdestroyed : a.destroyed = true) :
    ¬ regions.Holds id r := by
  rw [← h.mem_iff ha, h.ended id a ha hdestroyed]
  exact List.not_mem_nil

/-- Nothing is in an arena that there is not. -/
theorem not_holds_of_none (h : regions.Listed arenas) (ha : arenas[id]? = none) : ¬ regions.Holds id r := by
  rw [h.holds id r, ha]
  rintro ⟨a, ha', -⟩
  exact absurd ha' (by simp)

/-- What waits does not matter. -/
theorem of_deferred (h : regions.Listed arenas) (deferred : List Ref) :
    Regions.Listed { regions with deferred } arenas :=
  ⟨h.holds, h.ended⟩

/-- One arena is replaced. -/
theorem replace (h : regions.Listed arenas) (ha : arenas[id]? = some a) {regions' : Regions}
    (hother : ∀ i, i ≠ id → ∀ r, regions'.Holds i r ↔ regions.Holds i r)
    (hself : ∀ r, regions'.Holds id r ↔ r ∈ a'.objects) (hended : a'.destroyed = true → a'.objects = []) :
    regions'.Listed (arenas.setIfInBounds id a') := by
  have hlt := (Array.getElem?_eq_some_iff.1 ha).1
  constructor
  · intro i r
    rw [Array.getElem?_setIfInBounds]
    by_cases hi : id = i
    · subst hi
      rw [if_pos rfl, if_pos hlt, hself]
      simp
    · rw [if_neg hi, hother i (Ne.symm hi)]
      exact h.holds i r
  · intro i b hb hdestroyed
    rw [Array.getElem?_setIfInBounds] at hb
    by_cases hi : id = i
    · rw [if_pos hi, if_pos hlt] at hb
      obtain rfl := Option.some.inj hb
      exact hended hdestroyed
    · rw [if_neg hi] at hb
      exact h.ended i b hb hdestroyed

/-- An arena is replaced by one with the same objects, which is destroyed if the other one is. -/
theorem set (h : regions.Listed arenas) (ha : arenas[id]? = some a) (hobjects : a'.objects = a.objects)
    (hdestroyed : a'.destroyed = a.destroyed) : regions.Listed (arenas.setIfInBounds id a') := by
  refine h.replace ha (fun _ _ _ => Iff.rfl) (fun r => by rw [hobjects, h.mem_iff ha]) fun hend => ?_
  rw [hobjects]
  exact h.ended id a ha (hdestroyed ▸ hend)

/-- An arena is started. -/
theorem push (h : regions.Listed arenas) (hempty : a.objects = []) : regions.Listed (arenas.push a) := by
  constructor
  · intro i r
    rw [h.holds i r, Array.getElem?_push]
    split
    · next hi =>
      rw [hi, Array.getElem?_eq_none (Nat.le_refl _)]
      simp [hempty]
    · rfl
  · intro i b hb hdestroyed
    rw [Array.getElem?_push] at hb
    split at hb
    · obtain rfl := Option.some.inj hb
      exact hempty
    · exact h.ended i b hb hdestroyed

/-- An object is placed in an arena. -/
theorem put (h : regions.Listed arenas) (ha : arenas[id]? = some a) (hfree : regions.objects r = none)
    (ho : o.arena? = some id) (hobjects : a'.objects = r :: a.objects) (hopen : a'.destroyed = false) :
    (regions.put r o).Listed (arenas.setIfInBounds id a') := by
  have hcases : ∀ i x, (regions.put r o).Holds i x ↔ (x = r ∧ i = id) ∨ regions.Holds i x := by
    intro i x
    unfold Holds
    rw [objects_put]
    by_cases hx : x = r
    · subst hx
      simp [ho, hfree, eq_comm]
    · simp [hx]
  refine h.replace ha (fun i hi x => ?_) (fun x => ?_) fun hdestroyed => ?_
  · rw [hcases]
    simp [hi]
  · rw [hcases, hobjects, List.mem_cons, h.mem_iff ha]
    simp
  · rw [hopen] at hdestroyed
    exact absurd hdestroyed (by decide)

/-- An object of an arena is changed. -/
theorem write (h : regions.Listed arenas) {o' : Object} (ho : regions.objects r = some o)
    (hsame : o'.arena? = o.arena?) : (regions.put r o').Listed arenas := by
  refine ⟨fun i x => ?_, h.ended⟩
  rw [← h.holds i x]
  unfold Holds
  rw [objects_put]
  by_cases hx : x = r
  · subst hx
    simp [ho, hsame]
  · simp [hx]

/-- The objects of an arena are gone. -/
theorem without (h : regions.Listed arenas) (ha : arenas[id]? = some a) (hempty : a'.objects = []) :
    (regions.without a.objects).Listed (arenas.setIfInBounds id a') := by
  have hcases : ∀ i x, (regions.without a.objects).Holds i x ↔ x ∉ a.objects ∧ regions.Holds i x := by
    intro i x
    unfold Holds
    rw [objects_without]
    by_cases hx : x ∈ a.objects <;> simp [hx]
  refine h.replace ha (fun i hi x => ?_) (fun x => ?_) fun _ => hempty
  · rw [hcases, and_iff_right_iff_imp]
    rintro ⟨o, ho, hid⟩ hx
    obtain hid' := (holds_iff ho).1 ((h.mem_iff ha).1 hx)
    exact hi (Option.some.inj (hid.symm.trans hid'))
  · rw [hcases, hempty, h.mem_iff ha]
    simp

end Listed

/-! ### They stay apart -/

namespace Apart

/-- What waits does not matter. -/
theorem of_deferred (h : regions.Apart n) (deferred : List Ref) : Regions.Apart { regions with deferred } n :=
  ⟨h.arena, h.plain, h.inside, h.empty, h.lt, h.slot⟩

/-- A new object of an arena, in a cell behind all others. -/
theorem put (h : regions.Apart n) (ho : o.arena?.isSome = true) (hsym : o.symmetric = false)
    (hcomp : o.component = none) (hfrozen : o.frozen = false) (hblank : ∀ i, o.target? i = none)
    (hhoused : n.Housed) : (regions.put n.cells.size o).Apart n.addCell := by
  have hcases : ∀ x o', (regions.put n.cells.size o).objects x = some o' →
      (x = n.cells.size ∧ o' = o) ∨ regions.objects x = some o' := by
    intro x o' hx
    rw [objects_put] at hx
    split at hx
    · next he => exact .inl ⟨he, (Option.some.inj hx).symm⟩
    · exact .inr hx
  have hsize : n.addCell.cells.size = n.cells.size + 1 := Array.size_push _
  refine ⟨fun x o' hx => ?_, fun x o' hx => ?_, fun x o' i t hx ht => ?_, fun x o' hx => ?_,
    fun x o' hx => ?_, fun x o' hx => ?_⟩
  · rcases hcases x o' hx with ⟨-, rfl⟩ | hx
    · exact ho
    · exact h.arena x o' hx
  · rcases hcases x o' hx with ⟨-, rfl⟩ | hx
    · exact ⟨hsym, hcomp, hfrozen⟩
    · exact h.plain x o' hx
  · rcases hcases x o' hx with ⟨-, rfl⟩ | hx
    · exact absurd ((hblank i).symm.trans ht) (by simp)
    · obtain ⟨o'', ht', hid⟩ := h.inside x o' i t hx ht
      refine ⟨o'', ?_, hid⟩
      rw [objects_put, if_neg (Nat.ne_of_lt (h.lt t o'' ht')), ht']
  · rw [Memory.object?_addCell]
    rcases hcases x o' hx with ⟨rfl, -⟩ | hx
    · exact n.object?_size
    · exact h.empty x o' hx
  · rw [hsize]
    rcases hcases x o' hx with ⟨rfl, -⟩ | hx
    · exact Nat.lt_succ_self _
    · exact Nat.lt_succ_of_lt (h.lt x o' hx)
  · rcases hcases x o' hx with ⟨rfl, -⟩ | hx
    · show n.pool.slot? n.cells.size = none
      rw [Option.eq_none_iff_forall_ne_some]
      exact fun y hy => absurd (hhoused.slot_lt _ y hy) (Nat.lt_irrefl _)
    · exact h.slot x o' hx

/-- A field of an object of an arena is written. -/
theorem write (h : regions.Apart n) (ho : regions.objects r = some o) {index : Nat} {target : Option Ref}
    (htarget : ∀ t, target = some t → ∃ o', regions.objects t = some o' ∧ o'.arena? = o.arena?) :
    (regions.put r (o.setTarget index target)).Apart n := by
  obtain ⟨payload, he⟩ := o.setTarget_eq index target
  have harena : (o.setTarget index target).arena? = o.arena? := by rw [he]; rfl
  have hcases : ∀ x o', (regions.put r (o.setTarget index target)).objects x = some o' →
      ∃ o₀, regions.objects x = some o₀ ∧ ((x = r ∧ o₀ = o ∧ o' = o.setTarget index target) ∨ o' = o₀) := by
    intro x o' hx
    rw [objects_put] at hx
    split at hx
    · next hxr =>
      subst hxr
      exact ⟨o, ho, .inl ⟨rfl, rfl, (Option.some.inj hx).symm⟩⟩
    · exact ⟨o', hx, .inr rfl⟩
  have hstays : ∀ {t o'}, regions.objects t = some o' →
      ∃ o'', (regions.put r (o.setTarget index target)).objects t = some o'' ∧ o''.arena? = o'.arena? := by
    intro t o' ht
    rw [objects_put]
    split
    · next htr =>
      subst htr
      obtain rfl := Option.some.inj (ho.symm.trans ht)
      exact ⟨_, rfl, harena⟩
    · exact ⟨o', ht, rfl⟩
  refine ⟨fun x o' hx => ?_, fun x o' hx => ?_, fun x o' i t hx ht => ?_, fun x o' hx => ?_,
    fun x o' hx => ?_, fun x o' hx => ?_⟩
  · obtain ⟨o₀, hx₀, ⟨-, rfl, rfl⟩ | rfl⟩ := hcases x o' hx
    · rw [harena]
      exact h.arena x o₀ hx₀
    · exact h.arena x o' hx₀
  · obtain ⟨o₀, hx₀, ⟨-, rfl, rfl⟩ | rfl⟩ := hcases x o' hx
    · rw [he]
      exact h.plain x o₀ hx₀
    · exact h.plain x o' hx₀
  · obtain ⟨o₀, hx₀, ⟨-, rfl, rfl⟩ | rfl⟩ := hcases x o' hx
    · have hlead : ∃ o', regions.objects t = some o' ∧ o'.arena? = o₀.arena? := by
        rw [Object.target?_setTarget] at ht
        split at ht
        · obtain ⟨f, -, hf⟩ := Option.bind_eq_some_iff.1 ht
          exact htarget t hf
        · exact h.inside x o₀ i t hx₀ ht
      obtain ⟨o', ht', hid⟩ := hlead
      obtain ⟨o'', ht'', hid'⟩ := hstays ht'
      exact ⟨o'', ht'', by rw [hid', hid, harena]⟩
    · obtain ⟨o'', ht', hid⟩ := h.inside x o' i t hx₀ ht
      obtain ⟨o₃, ht'', hid'⟩ := hstays ht'
      exact ⟨o₃, ht'', by rw [hid', hid]⟩
  all_goals obtain ⟨o₀, hx₀, -⟩ := hcases x o' hx
  · exact h.empty x o₀ hx₀
  · exact h.lt x o₀ hx₀
  · exact h.slot x o₀ hx₀

/-- The objects of one arena are gone. Nothing that is left refers to them. -/
theorem without (h : regions.Apart n) {group : List Ref} (hgroup : ∀ x, x ∈ group ↔ regions.Holds id x) :
    (regions.without group).Apart n := by
  have hcases : ∀ x o, (regions.without group).objects x = some o → x ∉ group ∧ regions.objects x = some o := by
    intro x o hx
    rw [objects_without] at hx
    split at hx
    · exact absurd hx (by simp)
    · next hnot => exact ⟨hnot, hx⟩
  refine ⟨fun x o hx => h.arena x o (hcases x o hx).2, fun x o hx => h.plain x o (hcases x o hx).2,
    fun x o i t hx ht => ?_, fun x o hx => h.empty x o (hcases x o hx).2, fun x o hx => h.lt x o (hcases x o hx).2,
    fun x o hx => h.slot x o (hcases x o hx).2⟩
  obtain ⟨hnot, hx⟩ := hcases x o hx
  obtain ⟨o', ht', hid⟩ := h.inside x o i t hx ht
  refine ⟨o', ?_, hid⟩
  rw [objects_without, if_neg, ht']
  intro hmem
  have hid' := (holds_iff ht').1 ((hgroup t).1 hmem)
  exact hnot ((hgroup x).2 ((holds_iff hx).2 (hid ▸ hid')))

end Apart

end Regions

/-! ## What the operations on arenas do -/

/-- Space is taken in an arena that is not destroyed, and nothing but its store is different then. -/
theorem Arena.eq_of_reserve {a a' : Arena} {count : Nat} (h : a.reserve count = .ok a') :
    a.destroyed = false ∧ ∃ store, a' = { a with store } := by
  unfold reserve at h
  split at h
  · exact absurd h (by simp)
  · next hopen =>
    split at h
    · exact ⟨by simpa using hopen, _, (Except.ok.inj h).symm⟩
    · exact absurd h (by simp)

namespace Memory

variable {n : Memory} {regions : Regions} {r : Ref} {o : Object} {id : ArenaId}

theorem place_joined_put (n : Memory) (regions : Regions) (o : Object) :
    (n.joined regions).place o = (n.addCell.joined (regions.put n.cells.size o), n.cells.size) := by
  have hcells : (n.joined regions).cells.push (some o) =
      (n.addCell.joined (regions.put n.cells.size o)).cells := by
    apply Array.ext_getElem?
    intro i
    unfold joined addCell
    dsimp only
    simp only [Array.getElem?_push, Array.getElem?_mapIdx, Array.size_mapIdx, Regions.objects_put]
    by_cases hi : i = n.cells.size
    · simp [hi]
    · simp [hi]
  unfold place
  dsimp only
  rw [hcells, size_joined]
  rfl

theorem update_joined_put (h : regions.Apart n) (ho : regions.objects r = some o) (g : Object → Object) :
    (n.joined regions).update r g = n.joined (regions.put r (g o)) := by
  have hempty := h.empty r o ho
  have hcell : n.cells[r]? = some none := by
    unfold object? at hempty
    rw [Array.getElem?_eq_getElem (h.lt r o ho)] at hempty ⊢
    exact congrArg some hempty
  have hcells : ((n.joined regions).update r g).cells = (n.joined (regions.put r (g o))).cells := by
    unfold update joined
    apply Array.ext_getElem?
    intro i
    simp only [Array.getElem?_modify, Array.getElem?_mapIdx, Regions.objects_put]
    by_cases hi : r = i
    · subst hi
      simp [hcell, ho]
    · simp [hi, Ne.symm hi]
  unfold update joined at hcells ⊢
  dsimp only at hcells ⊢
  rw [hcells]
  rfl

theorem vacate_joined_without (hempty : n.object? r = none) (id : ArenaId) :
    (n.joined regions).vacate r (.arena id) = n.joined (regions.without [r]) := by
  have hcells : (n.joined regions).cells.setIfInBounds r none = (n.joined (regions.without [r])).cells := by
    unfold joined
    apply Array.ext_getElem?
    intro i
    simp only [Array.getElem?_setIfInBounds, Array.getElem?_mapIdx, Array.size_mapIdx,
      Regions.objects_without, List.mem_singleton]
    by_cases hi : r = i
    · subst hi
      by_cases hlt : r < n.cells.size
      · unfold object? at hempty
        rw [Array.getElem?_eq_getElem hlt] at hempty
        have hnone : n.cells[r] = none := hempty
        simp [hlt, hnone]
      · simp [hlt]
    · simp [hi, Ne.symm hi]
  unfold vacate
  dsimp only
  rw [hcells]
  rfl

theorem vacateAll_joined (id : ArenaId) : ∀ {group : List Ref} {regions : Regions},
    (∀ r ∈ group, n.object? r = none) →
      group.foldl (fun m r => m.vacate r (.arena id)) (n.joined regions) = n.joined (regions.without group) := by
  intro group
  induction group with
  | nil =>
    intro regions _
    show n.joined regions = n.joined { regions with objects := _ }
    simp
  | cons r group ih =>
    intro regions hempty
    have hwithout : (regions.without [r]).without group = regions.without (r :: group) := by
      unfold Regions.without
      congr 1
      funext x
      by_cases hx : x = r <;> simp [hx]
    rw [List.foldl_cons, vacate_joined_without (hempty r List.mem_cons_self),
      ih fun x hx => hempty x (List.mem_cons_of_mem _ hx), hwithout]

theorem object?_joined_without {group : List Ref} (hempty : ∀ x ∈ group, n.object? x = none) (x : Ref) :
    (n.joined (regions.without group)).object? x = if x ∈ group then none else (n.joined regions).object? x := by
  by_cases hx : x ∈ group
  · rw [if_pos hx, object?_joined_of_none, hempty x hx]
    rw [Regions.objects_without, if_pos hx]
  · rw [if_neg hx]
    unfold object? joined
    rw [Array.getElem?_mapIdx, Array.getElem?_mapIdx, Regions.objects_without, if_neg hx]

end Memory

/-! ## Memory with arenas -/

/-- The parts of memory fit: what is counted is all accounted for, and the lists name the rest. -/
structure Divided (n : Memory) (regions : Regions) (held lost : Multiset Ref) : Prop where
  apart : regions.Apart n
  listed : regions.Listed n.arenas
  consistent : n.Consistent held lost
  deferred : n.deferred = regions.deferred.filter fun r => (regions.objects r).isNone

namespace Divided

open Memory

variable {n : Memory} {regions : Regions} {held lost : Multiset Ref} {r : Ref} {o : Object} {id : ArenaId}
  {a a' : Arena}

theorem ofConfigOn (config : Config) (secret : UInt64) (machine : Machine) :
    Divided (.ofConfigOn config secret machine) { objects := fun _ => none, deferred := [] } 0 0 where
  apart := ⟨by simp, by simp, by simp, by simp, by simp, by simp⟩
  listed := ⟨by simp [Regions.Holds, Memory.ofConfigOn], by simp [Memory.ofConfigOn]⟩
  consistent := .ofConfigOn config secret machine
  deferred := rfl

/-- The arenas and how many were destroyed do not matter to what is counted. -/
theorem of_arenas (h : Divided n regions held lost) (arenas : Array Arena) (stats : Statistics)
    (hlisted : regions.Listed arenas) : Divided { n with arenas, stats } regions held lost where
  apart := h.apart.of_cells rfl fun _ => rfl
  listed := hlisted
  consistent := h.consistent.rearrange rfl rfl rfl rfl rfl ⟨h.consistent.scopes.entries, h.consistent.scopes.distinct⟩
    h.consistent.lost_symmetric rfl
  deferred := h.deferred

/-- What is in an arena is beside memory without arenas. -/
theorem objects_of_arena (h : Divided n regions held lost) (ho : (n.joined regions).object? r = some o)
    (harena : o.arena?.isSome = true) : regions.objects r = some o := by
  rcases object?_joined_cases (r := r) h.apart with ⟨-, he⟩ | ⟨o', hsome, -, he⟩
  · rw [h.consistent.tidy.no_arena r o (he.symm.trans ho)] at harena
    exact absurd harena (by decide)
  · rw [hsome, ← he, ho]

/-- What the list of an arena names is not in memory without arenas. -/
theorem object?_of_mem (h : Divided n regions held lost) (ha : n.arenas[id]? = some a) (hr : r ∈ a.objects) :
    n.object? r = none := by
  obtain ⟨o, ho, -⟩ := (h.listed.mem_iff ha).1 hr
  exact h.apart.empty r o ho

theorem emptyArena_joined (h : Divided n regions held lost) (ha : n.arenas[id]? = some a) :
    (n.joined regions).emptyArena id a =
      ({ n with arenas := n.arenas.setIfInBounds id a.emptied } : Memory).joined (regions.without a.objects) := by
  unfold emptyArena
  rw [vacateAll_joined id fun x => h.object?_of_mem ha]
  rfl

/-- What waits is an object of an arena or known to memory without arenas. -/
theorem mem_deferred (h : Divided n regions held lost) (hr : r ∈ regions.deferred) (hnone : regions.objects r = none) :
    r ∈ n.deferred := by
  rw [h.deferred]
  exact List.mem_filter.2 ⟨hr, by simp [hnone]⟩

/-- A new object in an arena. -/
theorem put (h : Divided n regions held lost) (ha : n.arenas[id]? = some a)
    (hobjects : a'.objects = n.cells.size :: a.objects) (hopen : a'.destroyed = false) (ho : o.arena? = some id)
    (hsym : o.symmetric = false) (hcomp : o.component = none) (hfrozen : o.frozen = false)
    (hblank : ∀ i, o.target? i = none) :
    Divided { n.addCell with arenas := n.arenas.setIfInBounds id a' } (regions.put n.cells.size o) held lost := by
  have hfree : regions.objects n.cells.size = none := by
    rw [Option.eq_none_iff_forall_ne_some]
    exact fun o' ho' => absurd (h.apart.lt _ o' ho') (Nat.lt_irrefl _)
  refine ⟨?_, h.listed.put ha hfree ho hobjects hopen, ?_, ?_⟩
  · exact (h.apart.put (by rw [ho]; rfl) hsym hcomp hfrozen hblank h.consistent.tidy.housed).of_cells rfl fun _ => rfl
  · have hadded := h.consistent.addCell
    exact hadded.rearrange rfl rfl rfl rfl rfl ⟨hadded.scopes.entries, hadded.scopes.distinct⟩
      hadded.lost_symmetric rfl
  · show n.deferred = regions.deferred.filter _
    rw [h.deferred]
    refine List.filter_congr fun r hr => ?_
    rw [Regions.objects_put, if_neg]
    rintro rfl
    have hlive := h.consistent.isLive_of_mem (x := n.cells.size) (by simp [h.mem_deferred hr hfree])
    exact absurd (lt_size_of_isLive hlive) (Nat.lt_irrefl _)

/-- A field of an object of an arena is written. -/
theorem write (h : Divided n regions held lost) (ho : regions.objects r = some o) {index : Nat} {target : Option Ref}
    (htarget : ∀ t, target = some t → ∃ o', regions.objects t = some o' ∧ o'.arena? = o.arena?) :
    Divided n (regions.put r (o.setTarget index target)) held lost where
  apart := h.apart.write ho htarget
  listed := by
    obtain ⟨payload, he⟩ := o.setTarget_eq index target
    exact h.listed.write ho (by rw [he]; rfl)
  consistent := h.consistent
  deferred := by
    rw [h.deferred]
    refine List.filter_congr fun x _ => ?_
    rw [Regions.objects_put]
    split
    · next hx => rw [hx, ho]; rfl
    · rfl

/-- The objects of an arena are gone, and none of them is waited for. -/
theorem without (h : Divided n regions held lost) (ha : n.arenas[id]? = some a) (hempty : a'.objects = [])
    (hwaits : ∀ r ∈ regions.deferred, r ∉ a.objects) :
    Divided { n with arenas := n.arenas.setIfInBounds id a' } (regions.without a.objects) held lost := by
  have hgroup : ∀ x, x ∈ a.objects ↔ regions.Holds id x := fun x => h.listed.mem_iff ha
  refine ⟨(h.apart.without hgroup).of_cells rfl fun _ => rfl, h.listed.without ha hempty, ?_, ?_⟩
  · exact h.consistent.rearrange rfl rfl rfl rfl rfl ⟨h.consistent.scopes.entries, h.consistent.scopes.distinct⟩
      h.consistent.lost_symmetric rfl
  · show n.deferred = regions.deferred.filter _
    rw [h.deferred]
    refine List.filter_congr fun x hx => ?_
    rw [Regions.objects_without, if_neg (hwaits x hx)]

end Divided

end Reclamation
