import Mathlib
import Reclamation.Memory.Closure
import Reclamation.Proofs.Memory.Placement

/-!
# Slots have addresses that fit a handle

A handle has 48 bits for the address of its slot. On a machine that grants slots below that limit only
(`Machine.Low`) they are always enough: a slot gets its address when its chunk is added, and a chunk is
added only if the machine grants it (`SlotPool.HasRoomAt.of_granted`). So every object of the pool can
be named (`Memory.Housed.exists_handle`).

Where the chunks lie and how long they are changes only when one is added; giving slots back leaves it
alone (`SlotPool.extents_giveBack`), and what giving back keeps, a release keeps
(`Release.Steps.pool_of`).
-/

set_option autoImplicit false

namespace Reclamation

namespace SlotPool

variable {p : SlotPool} {base : Ref}

/-! ## Where the chunks lie -/

theorem size_extents (p : SlotPool) : p.extents.size = p.chunks.size :=
  Array.size_map

theorem extents_takeFree (p : SlotPool) : p.takeFree.1.extents = p.extents := by
  unfold takeFree
  split
  · rfl
  · rename_i r free _
    exact extents_updateSlot { p with free, live := p.live + 1 } r _

theorem extents_giveBack (p : SlotPool) (r : Ref) : (p.giveBack r).extents = p.extents := by
  unfold giveBack
  split
  · dsimp only
    split <;> exact extents_updateSlot p r _
  · rfl

/-! ## Which addresses the slots have -/

/-- Where the machine grants a chunk, handles can name its slots. -/
theorem HasRoomAt.of_granted (hlow : p.machine.Low) (hgrant : p.exceedsMemory base = false)
    (hnew : ∀ r ∈ List.range' base p.nextChunkSlots, p.slot? r = none) : p.HasRoomAt base := by
  intro hfree hgrow r hr
  refine ⟨hnew r hr, ?_⟩
  have hgranted : p.machine.grants base (p.nextChunkSlots * Ref.cellSize) = true := by
    simpa [exceedsMemory, hfree, hgrow] using hgrant
  obtain ⟨hle, hlt⟩ := List.mem_range'_1.1 hr
  have hr' : base + (r - base) = r := Nat.add_sub_cancel' hle
  rw [← hr']
  exact hlow base _ (r - base) hgranted (by omega)

/-- All slots have addresses that fit a handle, and the machine grants no others. -/
structure Nameable (p : SlotPool) : Prop where
  low : p.machine.Low
  fits : p.Fits

namespace Nameable

theorem ofLimitsOn (limits : PoolLimits) {machine : Machine} (hlow : machine.Low) :
    (ofLimitsOn limits machine).Nameable := by
  refine ⟨hlow, fun r x hx => ?_⟩
  simp [SlotPool.ofLimitsOn, slot?, chunkIndex?] at hx

theorem take (h : p.Nameable) (hgrant : p.exceedsMemory base = false)
    (hnew : ∀ r ∈ List.range' base p.nextChunkSlots, p.slot? r = none) : (p.take base).1.Nameable := by
  refine ⟨?_, h.fits.take (.of_granted h.low hgrant hnew)⟩
  rw [machine_take]
  exact h.low

end Nameable

end SlotPool

namespace Memory

variable {m m' : Memory} {r : Ref}

/-! ## In memory -/

/-- Slots stay where they are. -/
theorem Steady.nameable (h : Steady m m') (hpool : m.pool.Nameable) : m'.pool.Nameable := by
  have hmachine : m'.pool.machine = m.pool.machine := h.aside.machine
  refine ⟨hmachine ▸ hpool.low, fun r x hx => ?_⟩
  rw [hmachine]
  rcases h.slots r with he | ⟨y, -, hy, -⟩
  · exact hpool.fits r x (he ▸ hx)
  · exact hpool.fits r y hy

/-- Every object of the pool can be named. -/
theorem Housed.exists_handle (h : m.Housed) (hpool : m.pool.Nameable) {o : Object} (ho : m.object? r = some o)
    (hslot : o.origin = .slot) : ∃ handle, m.handle r = .ok handle := by
  obtain ⟨x, hx, huse⟩ := isInUse_iff_slot?.1 ((h.inUse_iff r).2 ⟨o, ho, hslot⟩)
  exact ⟨_, SlotPool.handle_eq hx huse (hpool.fits r x hx)⟩

/-! ## In a release -/

variable {P : SlotPool → Prop}

theorem pool_remove_of (hP : ∀ p r, P p → P (p.giveBack r)) (h : P m.pool) (r : Ref) : P (m.remove r).pool := by
  cases ho : m.object? r with
  | none => rwa [Memory.remove, ho]
  | some o =>
    rw [pool_remove ho]
    split
    · exact hP m.pool r h
    · exact h

end Memory

namespace Release

open Memory

variable {s t : Release} {P : SlotPool → Prop}

theorem lasting_pool (hP : ∀ p r, P p → P (p.giveBack r)) : Lasting fun m => P m.pool where
  remove r hm := pool_remove_of hP hm r
  recount h hm := h.pool.symm ▸ hm
  count _ _ hm := hm

/-- What giving slots back keeps, a step keeps. -/
theorem Step.pool_of (hP : ∀ p r, P p → P (p.giveBack r)) (hs : P s.memory.pool) (h : Step s t) :
    P t.memory.pool :=
  (lasting_pool hP).step h hs

theorem Steps.pool_of (hP : ∀ p r, P p → P (p.giveBack r)) (hs : P s.memory.pool) (h : Steps s t) :
    P t.memory.pool :=
  (lasting_pool hP).steps h hs

end Release

end Reclamation
