import Mathlib
import Reclamation.Proofs.Memory.Programs

/-!
# Arenas keep to themselves

A field of an object in an arena refers to an object of the same arena, and a field of any other object refers to one
outside arenas (`Memory.Isolated`). This is so wherever a program gets: the objects of arenas are apart from the memory
that is counted, and whatever is referred to there is in it (`Divided.isolated`). So an arena can be destroyed at any
time. The objects that are gone then are those of the arena (`Divided.object?_of_destroys`), and no field that is left
refers to one of them (`Memory.Isolated.spares`).

Objects of arenas are not counted. Whatever takes or gives up references leaves memory as it is when it is asked of one
of them (`Divided.inert`).
-/

set_option autoImplicit false

namespace Reclamation

/-! ## What fields refer to -/

namespace Memory

variable {n m m' : Memory} {held lost : Multiset Ref} {r : Ref} {o : Object} {id : ArenaId}

/-- No field leads into an arena or out of one, and none to what is not there. -/
structure Isolated (m : Memory) : Prop where
  inside : ∀ (r : Ref) (o : Object) (id : ArenaId) (i : Nat) (t : Ref), m.object? r = some o → o.arena? = some id →
    o.target? i = some t → ∃ o', m.object? t = some o' ∧ o'.arena? = some id
  outside : ∀ (r : Ref) (o : Object) (i : Nat) (t : Ref), m.object? r = some o → o.arena? = none →
    o.target? i = some t → ∃ o', m.object? t = some o' ∧ o'.arena? = none

theorem Isolated.exists_target (h : m.Isolated) (ho : m.object? r = some o) {i : Nat} {t : Ref}
    (ht : o.target? i = some t) : ∃ o', m.object? t = some o' ∧ o'.arena? = o.arena? := by
  cases harena : o.arena? with
  | some id => exact h.inside r o id i t ho harena ht
  | none => exact h.outside r o i t ho harena ht

/-- Counted memory refers to what is in it, be it by a weak field or by a strong one. -/
theorem Consistent.isLive_target (h : n.Consistent held lost) (ho : n.object? r = some o) {i : Nat} {t : Ref}
    (ht : o.target? i = some t) : n.isLive t = true := by
  rcases Object.target_cases ht with hweak | hstrong
  · refine h.tidy.wired.live r i t ?_
    rw [weakTarget?, ho, Option.bind_some, hweak]
  · refine h.balanced.targets_live r t ?_
    rwa [strongTargets_of_object? ho]

/-! ## Arenas that are destroyed -/

/-- An arena is destroyed: at once, as soon as possible, or because its last external reference was resolved. -/
inductive Destroys (m : Memory) (id : ArenaId) : Memory → Prop
  | now {m' : Memory} {chunks : Nat} : m.destroyArena id = .done m' chunks → Destroys m id m'
  | possible {m' : Memory} {chunks : Nat} :
      m.destroyArenaWhenResolved id = .done m' (.destroyed chunks) → Destroys m id m'
  | resolved {m' : Memory} (r : Ref) : m.resolveExternal id r = .done m' true → Destroys m id m'

theorem exists_destroyArena_of_whenResolved {chunks : Nat}
    (h : m.destroyArenaWhenResolved id = .done m' (.destroyed chunks)) : ∃ k, m.destroyArena id = .done m' k := by
  unfold destroyArenaWhenResolved at h
  cases ha : m.arenas[id]? with
  | none =>
    rw [ha] at h
    obtain ⟨rfl, -⟩ := Outcome.done.inj h
    exact ⟨0, by rw [destroyArena, ha]⟩
  | some a =>
    rw [ha] at h
    dsimp only at h
    split at h
    · exact absurd (Outcome.done.inj h).2 (by simp)
    · obtain ⟨m₁, k, hd, h⟩ := Outcome.eq_done_of_bind h
      obtain ⟨rfl, -⟩ := Outcome.done.inj h
      exact ⟨k, hd⟩

/-- When the last external reference is resolved, the arena without it is destroyed. -/
theorem exists_destroyArena_of_resolveExternal (h : m.resolveExternal id r = .done m' true) :
    ∃ a externals k, m.arenas[id]? = some a ∧
      (m.setArena id { a with externals }).destroyArena id = .done m' k := by
  unfold resolveExternal at h
  cases ha : m.arenas[id]? with
  | none =>
    rw [ha] at h
    exact absurd h (by simp)
  | some a =>
    rw [ha] at h
    dsimp only at h
    split at h
    · exact absurd h (by simp)
    · next externals _ =>
      split at h
      · obtain ⟨m₁, k, hd, h⟩ := Outcome.eq_done_of_bind h
        obtain ⟨rfl, -⟩ := Outcome.done.inj h
        exact ⟨a, externals, k, rfl, hd⟩
      · exact absurd (Outcome.done.inj h).2 (by simp)

/-- The objects of an arena are gone and the others are as they were. No field of them refers to what is gone. -/
structure Spares (id : ArenaId) (m m' : Memory) : Prop where
  object : ∀ x, m'.object? x = (m.object? x).filter (·.arena? ≠ some id)
  field : ∀ (r : Ref) (o : Object) (i : Nat) (t : Ref), m'.object? r = some o → o.target? i = some t →
    ∃ o', m.object? t = some o' ∧ m'.object? t = some o' ∧ o'.arena? ≠ some id
  isolated : m'.Isolated

/-- The object that a field of an object outside the arena refers to is outside the arena too. -/
theorem Isolated.spares (h : m.Isolated) (hobject : ∀ x, m'.object? x = (m.object? x).filter (·.arena? ≠ some id)) :
    Spares id m m' := by
  have hstays : ∀ {x o}, m'.object? x = some o → m.object? x = some o ∧ o.arena? ≠ some id := by
    intro x o ho
    rw [hobject, Option.filter_eq_some_iff] at ho
    exact ⟨ho.1, by simpa using ho.2⟩
  -- a field that is left was there before, and it led to the arena of its object, if to any
  have hfield : ∀ {r o i t}, m'.object? r = some o → o.target? i = some t →
      ∃ o', m.object? t = some o' ∧ m'.object? t = some o' ∧ o'.arena? = o.arena? := by
    intro r o i t ho ht
    obtain ⟨ho, hother⟩ := hstays ho
    obtain ⟨o', ho', hsame⟩ := h.exists_target ho ht
    have hother' : o'.arena? ≠ some id := hsame ▸ hother
    refine ⟨o', ho', ?_, hsame⟩
    rw [hobject, ho', Option.filter_some_pos (by simpa using hother')]
  refine ⟨hobject, fun r o i t ho ht => ?_, ⟨fun r o id' i t ho harena ht => ?_, fun r o i t ho harena ht => ?_⟩⟩
  all_goals obtain ⟨o', hbefore, hafter, hsame⟩ := hfield ho ht
  · exact ⟨o', hbefore, hafter, hsame ▸ (hstays ho).2⟩
  · exact ⟨o', hafter, hsame.trans harena⟩
  · exact ⟨o', hafter, hsame.trans harena⟩

/-! ## Objects that are not counted -/

/-- Taking and giving up references to an object comes to nothing, be it for the program, for a field of any object or
when a decrement that waited is due. Writing one of its fields changes that field only. -/
structure Inert (m : Memory) (r : Ref) : Prop where
  acquire : m.acquire r = m
  acquireEdge : m.acquireEdge r = m
  acquireComponent : m.acquireComponent r = .refused m .notInComponent
  release : m.release r = .done m 0
  releaseScoped : m.releaseScoped r = .done m 0
  freeTree : m.freeTree r = .done m 0
  freeze : m.freeze r = .done m []
  dropEdge : ∀ s : Release, s.memory.object? r = m.object? r → s.dropEdge r = some s
  dropRef : ∀ s : Release, s.memory.object? r = m.object? r → s.dropRef r = some s
  setField : ∀ (index : Nat) (target : Option Ref) (m' : Memory), m.setField r index target = .done m' () →
    m' = m.update r (·.setTarget index target)

end Memory

/-! ## Counted memory with arenas beside it -/

namespace Divided

open Memory

variable {n m' : Memory} {regions : Regions} {held lost : Multiset Ref} {r : Ref} {o : Object} {id : ArenaId}
  {a : Arena}

theorem isolated (h : Divided n regions held lost) : (n.joined regions).Isolated where
  inside r o id i t ho hid ht := by
    have hsome := h.objects_of_arena ho (by rw [hid]; rfl)
    obtain ⟨o', ho', hsame⟩ := h.apart.inside r o i t hsome ht
    exact ⟨o', object?_joined_of_some h.apart ho', hsame.trans hid⟩
  outside r o i t ho hnone ht := by
    have hlive := h.consistent.isLive_target (object?_of_outside h.apart ho hnone) ht
    obtain ⟨o', ho'⟩ := isLive_iff.1 hlive
    exact ⟨o', object?_joined h.apart ho', h.consistent.tidy.no_arena t o' ho'⟩

/-- An arena in memory holds what it holds beside it. -/
theorem holds_iff (h : Divided n regions held lost) :
    regions.Holds id r ↔ ∃ o, (n.joined regions).object? r = some o ∧ o.arena? = some id := by
  constructor
  · rintro ⟨o, ho, hid⟩
    exact ⟨o, object?_joined_of_some h.apart ho, hid⟩
  · rintro ⟨o, ho, hid⟩
    exact ⟨o, h.objects_of_arena ho (by rw [hid]; rfl), hid⟩

/-- Nothing is left out where no object of the arena is. -/
theorem filter_object? (h : Divided n regions held lost) (hr : ¬ regions.Holds id r) :
    ((n.joined regions).object? r).filter (·.arena? ≠ some id) = (n.joined regions).object? r := by
  cases ho : (n.joined regions).object? r with
  | none => rfl
  | some o =>
    refine Option.filter_some_pos (decide_eq_true fun hid => hr ?_)
    exact h.holds_iff.2 ⟨o, ho, hid⟩

/-- When an arena is emptied its objects are gone, and no others. -/
theorem object?_emptyArena (h : Divided n regions held lost) (ha : n.arenas[id]? = some a) (x : Ref) :
    ((n.joined regions).emptyArena id a).object? x =
      ((n.joined regions).object? x).filter (·.arena? ≠ some id) := by
  have hwithout : ((n.joined regions).emptyArena id a).object? x =
      if x ∈ a.objects then none else (n.joined regions).object? x := by
    rw [h.emptyArena_joined ha]
    exact object?_joined_without (fun x => h.object?_of_mem ha) x
  have hmem : x ∈ a.objects ↔ regions.Holds id x := h.listed.mem_iff ha
  rw [hwithout]
  by_cases hx : x ∈ a.objects
  · obtain ⟨o, ho, hid⟩ := h.holds_iff.1 (hmem.1 hx)
    rw [if_pos hx, ho, Option.filter_some_neg (by simp [hid])]
  · rw [if_neg hx, h.filter_object? fun hholds => hx (hmem.2 hholds)]

theorem object?_destroyArena (h : Divided n regions held lost) {chunks : Nat}
    (hdone : (n.joined regions).destroyArena id = .done m' chunks) (x : Ref) :
    m'.object? x = ((n.joined regions).object? x).filter (·.arena? ≠ some id) := by
  unfold Memory.destroyArena at hdone
  rw [show (n.joined regions).arenas = n.arenas from rfl] at hdone
  cases ha : n.arenas[id]? with
  | none =>
    rw [ha] at hdone
    obtain ⟨rfl, -⟩ := Outcome.done.inj hdone
    exact (h.filter_object? (h.listed.not_holds_of_none ha)).symm
  | some a =>
    rw [ha] at hdone
    dsimp only at hdone
    split at hdone
    · exact absurd hdone (by simp)
    · split at hdone
      · next hdestroyed =>
        -- it was destroyed before, and nothing was left in it
        obtain ⟨rfl, -⟩ := Outcome.done.inj hdone
        exact (h.filter_object? (h.listed.not_holds_of_destroyed ha hdestroyed)).symm
      · obtain ⟨rfl, -⟩ := Outcome.done.inj hdone
        exact h.object?_emptyArena ha x

/-- However an arena is destroyed, the objects that are gone are its own. -/
theorem object?_of_destroys (h : Divided n regions held lost) (hdestroys : (n.joined regions).Destroys id m')
    (x : Ref) : m'.object? x = ((n.joined regions).object? x).filter (·.arena? ≠ some id) := by
  cases hdestroys with
  | now hdone => exact h.object?_destroyArena hdone x
  | possible hdone =>
    obtain ⟨k, hdone⟩ := exists_destroyArena_of_whenResolved hdone
    exact h.object?_destroyArena hdone x
  | resolved r hdone =>
    obtain ⟨a, externals, k, ha, hdone⟩ := exists_destroyArena_of_resolveExternal hdone
    -- an external reference is not an object, so memory has the same objects once it is resolved
    have hresolved := h.of_arenas (n.arenas.setIfInBounds id { a with externals }) n.stats
      (h.listed.set ha rfl rfl)
    exact hresolved.object?_destroyArena hdone x

/-- Of the objects of arenas nothing is counted. -/
theorem inert (h : Divided n regions held lost) (ho : (n.joined regions).object? r = some o)
    (harena : o.arena?.isSome = true) : (n.joined regions).Inert r := by
  have hsome := h.objects_of_arena ho harena
  have hacquire := Command.acquire_of_arena ho harena
  refine
    { acquire := hacquire
      acquireEdge := ?_
      acquireComponent := Command.acquireComponent_onArena h hsome
      release := Command.release_of_arena ho harena
      releaseScoped := Command.releaseScoped_onArena h hsome
      freeTree := Command.freeTree_of_arena ho harena
      freeze := Command.freeze_of_arena ho harena
      dropEdge := fun s hs => Command.dropEdge_of_arena (hs.trans ho) harena
      dropRef := fun s hs => Command.dropRef_of_arena (hs.trans ho) harena
      setField := fun index target m' hdone => ?_ }
  · -- a symmetric object would be counted for the field even in an arena, but there is none
    have hplain : ¬ ((n.joined regions).object? r).any (·.symmetric) = true := by
      rw [ho, Option.any_some, (h.apart.plain r o hsome).1]
      decide
    unfold Memory.acquireEdge
    rw [if_neg hplain, hacquire]
  · unfold Memory.setField at hdone
    rw [ho] at hdone
    dsimp only at hdone
    split at hdone
    · exact absurd hdone (by simp)
    · rw [if_pos harena] at hdone
      exact (Outcome.done.inj hdone).1.symm

end Divided

variable {config : Config} {secret : UInt64} {m : Memory} {held : Multiset Ref}

/-- Wherever a program gets, with however many arenas, no field leads into an arena or out of one. Destroying an arena
leaves no field that refers to one of its objects, and counting does nothing to objects of arenas. -/
theorem arenas_isolated (h : Attained config secret m held) :
    m.Isolated ∧ (∀ (id : ArenaId) (m' : Memory), m.Destroys id m' → Memory.Spares id m m') ∧
      ∀ (r : Ref) (o : Object), m.object? r = some o → o.arena?.isSome = true → m.Inert r := by
  obtain ⟨n, regions, lost, rfl, hdivided⟩ := h.divided
  refine ⟨hdivided.isolated, fun id m' hdestroys => ?_, fun r o ho harena => hdivided.inert ho harena⟩
  exact hdivided.isolated.spares (hdivided.object?_of_destroys hdestroys)

/-- Memory with one more object in an arena, which has a strong field. -/
def Memory.withInArena (m : Memory) (id : ArenaId) : Memory :=
  (m.allocateFields id 0 [false]).memory?.getD m

/-- An object on the heap and two in an arena, one of which refers to the other. -/
def Memory.region : Memory :=
  ((((Memory.ofConfig {} 0).allocate cell).1.newArena.1.withInArena 0).withInArena 0).update 1 (·.setTarget 0 (some 2))

theorem attained_region : Attained {} 0 .region {0} := by
  have hblank : cell.IsBlank := ObjectSpec.isBlank_ofFlags 0 [false] false false
  have hone := (@Attained.start {} 0 .flat).done (.operation (.allocate cell)) (.inr hblank) rfl
  have harena := hone.done .newArena trivial rfl
  have htwo := harena.done (.allocateFields 0 0 [false]) trivial rfl
  have hthree := htwo.done (.allocateFields 0 0 [false]) trivial rfl
  exact hthree.done (.operation (.setField 1 0 (some 2))) (.inl rfl) rfl

theorem arenas_isolated_region : Memory.region.Isolated ∧ Memory.region.Inert 1 ∧
    ∃ m', Memory.region.destroyArena 0 = .done m' 1 ∧ Memory.Spares 0 .region m' ∧ m'.isLive 0 = true ∧
      m'.isLive 1 = false := by
  obtain ⟨hisolated, hspares, hinert⟩ := arenas_isolated attained_region
  exact ⟨hisolated, hinert 1 _ rfl rfl, _, rfl, hspares 0 _ (.now rfl), rfl, rfl⟩

end Reclamation
