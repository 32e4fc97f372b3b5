import Mathlib
import Reclamation.Memory.SlotHandle

/-!
# Slots and the handles to them

A pool is seen through two things: what `slot?` finds in a cell and which cells are on the free list.
Each operation is first described in these terms (`slot?_updateSlot`, `slot?_grow`,
`slot?_takeFree`, `slot?_giveBack`); after that chunks and indices do not occur any more.

`Sound` is what every sequence of operations keeps. It has the arithmetic of the guard in it: a slot
is put on the free list only if it can be taken and given back once more below the guard, so a
generation is raised at most to `generationGuard - 2`, and it is even exactly while the slot is in
use. A slot only ever moves to a higher generation (`Run.slot_mono`), all of them below `2 ^ 16`, so
the tags of two occupancies of a slot differ, and a handle is good until its slot is given back and
never again (`handle_lifetime`).
-/

set_option autoImplicit false

namespace Reclamation.SlotPool

variable {p q : SlotPool} {r s : Ref} {base : Ref}

/-! ## What a pool begins with -/

/-- The machine on which a pool is, and the limits that it keeps to. -/
def setting (p : SlotPool) : Machine × PoolLimits :=
  (p.machine, { initialSlots := p.initialSlots, maxSlots := p.maxSlots })

theorem setting_updateSlot (p : SlotPool) (r : Ref) (f : Slot → Slot) : (p.updateSlot r f).setting = p.setting := by
  unfold updateSlot
  split <;> rfl

theorem setting_grow (p : SlotPool) (base : Ref) : (p.grow base).setting = p.setting := by
  unfold grow
  split <;> rfl

theorem setting_takeFree (p : SlotPool) : p.takeFree.1.setting = p.setting := by
  unfold takeFree
  split
  · rfl
  · next r free _ => exact setting_updateSlot { p with free, live := p.live + 1 } r _

theorem setting_take (p : SlotPool) (base : Ref) : (p.take base).1.setting = p.setting := by
  unfold take
  split
  · exact (setting_takeFree _).trans (setting_grow p base)
  · exact setting_takeFree p

theorem setting_giveBack (p : SlotPool) (r : Ref) : (p.giveBack r).setting = p.setting := by
  unfold giveBack
  split
  · dsimp only
    split <;> exact setting_updateSlot p r _
  · rfl

theorem machine_take (p : SlotPool) (base : Ref) : (p.take base).1.machine = p.machine :=
  congrArg Prod.fst (setting_take p base)

theorem machine_giveBack (p : SlotPool) (r : Ref) : (p.giveBack r).machine = p.machine :=
  congrArg Prod.fst (setting_giveBack p r)

theorem initialSlots_take (p : SlotPool) (base : Ref) : (p.take base).1.initialSlots = p.initialSlots :=
  congrArg (·.2.initialSlots) (setting_take p base)

theorem initialSlots_giveBack (p : SlotPool) (r : Ref) : (p.giveBack r).initialSlots = p.initialSlots :=
  congrArg (·.2.initialSlots) (setting_giveBack p r)

/-! ## What is in a cell -/

/-- The first cell and the length of each chunk. -/
def extents (p : SlotPool) : Array (Ref × Nat) :=
  p.chunks.map fun c => (c.base, c.slots.size)

theorem chunkIndex?_eq_extents (p : SlotPool) (r : Ref) :
    p.chunkIndex? r = p.extents.findIdx? fun c => c.1 ≤ r && r < c.1 + c.2 := by
  rw [chunkIndex?, extents, Array.findIdx?_map]
  rfl

/-- Chunks keep their places. -/
theorem extents_updateSlot (p : SlotPool) (r : Ref) (f : Slot → Slot) :
    (p.updateSlot r f).extents = p.extents := by
  unfold updateSlot
  split
  · rfl
  · rename_i i _
    apply Array.ext_getElem?
    intro j
    simp only [extents, Array.getElem?_map, Array.getElem?_modify]
    split
    · cases p.chunks[j]? <;> simp
    · rfl

theorem chunkIndex?_updateSlot (p : SlotPool) (r s : Ref) (f : Slot → Slot) :
    (p.updateSlot r f).chunkIndex? s = p.chunkIndex? s := by
  rw [chunkIndex?_eq_extents, chunkIndex?_eq_extents, extents_updateSlot]

theorem exists_chunk {i : Nat} (h : p.chunkIndex? r = some i) :
    ∃ c, p.chunks[i]? = some c ∧ c.base ≤ r ∧ r < c.base + c.slots.size := by
  obtain ⟨hi, hc, -⟩ := Array.findIdx?_eq_some_iff_getElem.1 h
  refine ⟨p.chunks[i], Array.getElem?_eq_getElem hi, ?_⟩
  simpa using hc

theorem slot?_isSome_iff : (p.slot? r).isSome = true ↔ (p.chunkIndex? r).isSome = true := by
  unfold slot?
  cases h : p.chunkIndex? r with
  | none => simp
  | some i =>
    obtain ⟨c, hc, hle, hlt⟩ := exists_chunk h
    have : r - c.base < c.slots.size := Nat.sub_lt_left_of_lt_add hle hlt
    simp [hc, this]

/-- A change of one slot is seen in its cell only. -/
theorem slot?_updateSlot (p : SlotPool) (r s : Ref) (f : Slot → Slot) :
    (p.updateSlot r f).slot? s = if s = r then (p.slot? r).map f else p.slot? s := by
  rw [slot?, chunkIndex?_updateSlot]
  cases hr : p.chunkIndex? r with
  | none =>
    have hsame : p.updateSlot r f = p := by simp [updateSlot, hr]
    rw [hsame]
    split
    · next e =>
      subst e
      simp [slot?, hr]
    · rfl
  | some i =>
    obtain ⟨c, hc, hle, -⟩ := exists_chunk hr
    have hchunks : (p.updateSlot r f).chunks =
        p.chunks.modify i fun c => { c with slots := c.slots.modify (r - c.base) f } := by
      simp [updateSlot, hr]
    rw [hchunks]
    by_cases e : s = r
    · subst e
      simp [slot?, hr, hc, Array.getElem?_modify]
    · rw [if_neg e]
      cases hs : p.chunkIndex? s with
      | none => simp [slot?, hs]
      | some j =>
        obtain ⟨d, hd, hle', -⟩ := exists_chunk hs
        by_cases hij : i = j
        · -- in one chunk different cells are at different places
          subst hij
          obtain rfl : c = d := Option.some.inj (hc.symm.trans hd)
          have hne : r - c.base ≠ s - c.base := fun h => e <| by
            rw [← Nat.sub_add_cancel hle', ← h, Nat.sub_add_cancel hle]
          simp [slot?, hs, hc, Array.getElem?_modify, hne]
        · simp [slot?, hs, Array.getElem?_modify, hij]

/-- The slots of a new chunk lie in cells of their own if those held none before. -/
theorem slot?_grow (p : SlotPool) (base s : Ref) (hnew : ∀ r ∈ List.range' base p.nextChunkSlots,
    p.slot? r = none) : (p.grow base).slot? s =
      if p.canGrow = true ∧ s ∈ List.range' base p.nextChunkSlots then some {} else p.slot? s := by
  unfold grow
  by_cases hg : p.canGrow = true
  · simp only [hg, ↓reduceIte, true_and]
    have hmem : s ∈ List.range' base p.nextChunkSlots ↔
        base ≤ s ∧ s < base + p.nextChunkSlots := by
      simp [List.mem_range'_1]
    have hindex : (p.chunks.push ⟨base, Array.replicate p.nextChunkSlots {}⟩).findIdx?
        (fun c => c.base ≤ s && s < c.base + c.slots.size) =
          (p.chunkIndex? s).or (if base ≤ s ∧ s < base + p.nextChunkSlots then some p.chunks.size
            else none) := by
      rw [Array.findIdx?_push]
      simp [chunkIndex?]
    rw [slot?, chunkIndex?, hindex]
    cases hs : p.chunkIndex? s with
    | some i =>
      obtain ⟨c, hc, -, -⟩ := exists_chunk hs
      have hlt : i < p.chunks.size := (Array.getElem?_eq_some_iff.1 hc).1
      have hnot : s ∉ List.range' base p.nextChunkSlots := fun hm => by
        have := slot?_isSome_iff.2 (by rw [hs]; rfl : (p.chunkIndex? s).isSome = true)
        rw [hnew s hm] at this
        exact absurd this (by simp)
      rw [if_neg hnot]
      simp [slot?, hs, Array.getElem?_push, Nat.ne_of_lt hlt]
    | none =>
      by_cases hin : base ≤ s ∧ s < base + p.nextChunkSlots
      · have : s - base < p.nextChunkSlots := Nat.sub_lt_left_of_lt_add hin.1 hin.2
        simp [hmem, hin, this]
      · simp [hmem, hin, slot?, hs]
  · simp [hg]

/-- A slot that is taken moves on to its next generation. -/
theorem slot?_takeFree (p : SlotPool) (s : Ref) : p.takeFree.1.slot? s =
    if p.takeFree.2 = some s then (p.slot? s).map fun x => ⟨x.generation + 1, true⟩
    else p.slot? s := by
  unfold takeFree
  cases hf : p.free with
  | nil => simp
  | cons r free =>
    simp only [slot?_updateSlot, Option.some.injEq]
    by_cases e : s = r
    · subst e
      rw [if_pos rfl, if_pos rfl]
      rfl
    · rw [if_neg e, if_neg (Ne.symm e)]
      rfl

/-- A slot in use that is given back moves on to its next generation. -/
theorem slot?_giveBack (p : SlotPool) (r s : Ref) : (p.giveBack r).slot? s =
    if s = r ∧ p.isInUse r = true then (p.slot? r).map fun x => ⟨x.generation + 1, false⟩
    else p.slot? s := by
  unfold giveBack
  split
  · next generation hr =>
    have hslot : ∀ free live retired, ({ (p.updateSlot r fun x => ⟨x.generation + 1, false⟩) with
        free, live, retired } : SlotPool).slot? s =
          if s = r then (p.slot? r).map fun x => ⟨x.generation + 1, false⟩ else p.slot? s :=
      fun _ _ _ => slot?_updateSlot ..
    have huse : p.isInUse r = true := by simp [isInUse, hr]
    simp only [huse, and_true]
    split <;> exact hslot ..
  · next hr =>
    have huse : ¬ p.isInUse r = true := by
      unfold isInUse
      cases h : p.slot? r with
      | none => simp
      | some x =>
        obtain ⟨generation, inUse⟩ := x
        cases inUse with
        | false => simp
        | true => exact absurd h (hr generation)
    simp [huse]

theorem slot?_takeFree_of_some {x : Slot} (ht : p.takeFree.2 = some r) (hx : p.slot? r = some x) (s : Ref) :
    p.takeFree.1.slot? s = if s = r then some ⟨x.generation + 1, true⟩ else p.slot? s := by
  rw [slot?_takeFree, ht]
  by_cases hs : s = r
  · rw [hs, if_pos rfl, if_pos rfl, hx]
    rfl
  · rw [if_neg fun e => hs (Option.some.inj e).symm, if_neg hs]

theorem slot?_giveBack_of_inUse {x : Slot} (hx : p.slot? r = some x) (huse : x.inUse = true) (s : Ref) :
    (p.giveBack r).slot? s = if s = r then some ⟨x.generation + 1, false⟩ else p.slot? s := by
  have hin : p.isInUse r = true := by simp [isInUse, hx, huse]
  rw [slot?_giveBack, hx]
  simp only [hin, and_true, Option.map_some]

theorem takeFree_of_none (h : p.takeFree.2 = none) : p.takeFree.1 = p := by
  unfold takeFree at h ⊢
  cases hf : p.free with
  | nil => rfl
  | cons r free => simp [hf] at h

/-- Giving back what is not in use changes nothing. -/
theorem giveBack_of_not_inUse (h : ¬ p.isInUse r = true) : p.giveBack r = p := by
  unfold giveBack
  split
  · next generation hr => exact absurd (by simp [isInUse, hr]) h
  · rfl

/-! ## What all operations keep -/

/-- Between operations. -/
structure Sound (p : SlotPool) : Prop where
  free_nodup : p.free.Nodup
  /-- A free slot can be taken and given back below the guard. -/
  free_slot : ∀ r ∈ p.free, ∃ x, p.slot? r = some x ∧ x.inUse = false ∧
    x.generation + 2 < generationGuard
  positive : ∀ r x, p.slot? r = some x → 0 < x.generation
  below_guard : ∀ r x, p.slot? r = some x → x.generation + 1 < generationGuard
  /-- A slot in use can be given back below the guard. -/
  below_guard_inUse : ∀ r x, p.slot? r = some x → x.inUse = true →
    x.generation + 2 < generationGuard
  even_iff : ∀ r x, p.slot? r = some x → (x.generation % 2 = 0 ↔ x.inUse = true)

namespace Sound

theorem ofLimitsOn (limits : PoolLimits) (machine : Machine) : Sound (.ofLimitsOn limits machine) := by
  have hnone : ∀ r, (SlotPool.ofLimitsOn limits machine).slot? r = none := fun r => by
    simp [SlotPool.ofLimitsOn, slot?, chunkIndex?]
  constructor
  · exact List.nodup_nil
  · intro r hr
    exact absurd hr (by simp [SlotPool.ofLimitsOn])
  all_goals
    intro r x hx
    rw [hnone] at hx
    exact absurd hx (by simp)

/-- Adding a chunk in cells that hold no slots. -/
theorem grow (h : Sound p) (hfree : p.free = [])
    (hnew : ∀ r ∈ List.range' base p.nextChunkSlots, p.slot? r = none) : Sound (p.grow base) := by
  by_cases hg : p.canGrow = true
  · have hslot := fun s => slot?_grow p base s hnew
    have hlist : (p.grow base).free = List.range' base p.nextChunkSlots := by
      simp [SlotPool.grow, hg, hfree]
    -- every slot is one of before or new
    have hcases : ∀ s x, (p.grow base).slot? s = some x → x = {} ∨ p.slot? s = some x := by
      intro s x hx
      rw [hslot] at hx
      split at hx
      · exact .inl (Option.some.inj hx).symm
      · exact .inr hx
    refine ⟨?_, ?_, ?_, ?_, ?_, ?_⟩
    · rw [hlist]
      exact List.nodup_range'
    · intro r hr
      rw [hlist] at hr
      exact ⟨{}, by rw [hslot, if_pos ⟨hg, hr⟩], rfl, by decide⟩
    · intro s x hx
      rcases hcases s x hx with rfl | hx
      · decide
      · exact h.positive s x hx
    · intro s x hx
      rcases hcases s x hx with rfl | hx
      · decide
      · exact h.below_guard s x hx
    · intro s x hx huse
      rcases hcases s x hx with rfl | hx
      · exact absurd huse (by decide)
      · exact h.below_guard_inUse s x hx huse
    · intro s x hx
      rcases hcases s x hx with rfl | hx
      · decide
      · exact h.even_iff s x hx
  · simpa [SlotPool.grow, hg] using h

theorem takeFree (h : Sound p) : Sound p.takeFree.1 := by
  cases ht : p.takeFree.2 with
  | none => rwa [takeFree_of_none ht]
  | some r =>
    have hfree : p.free = r :: p.takeFree.1.free := free_takeFree ht
    have hnodup : r ∉ p.takeFree.1.free ∧ p.takeFree.1.free.Nodup :=
      List.nodup_cons.1 (hfree ▸ h.free_nodup)
    obtain ⟨x, hx, huse, hroom⟩ := h.free_slot r (by rw [hfree]; simp)
    have hpos := h.positive r x hx
    have hodd := h.even_iff r x hx
    have hslot := slot?_takeFree_of_some ht hx
    -- the slot taken, or one of before
    have hcases : ∀ s y, p.takeFree.1.slot? s = some y →
        (s = r ∧ y = ⟨x.generation + 1, true⟩) ∨ (s ≠ r ∧ p.slot? s = some y) := by
      intro s y hy
      rw [hslot] at hy
      split at hy
      · next e => exact .inl ⟨e, (Option.some.inj hy).symm⟩
      · next e => exact .inr ⟨e, hy⟩
    refine ⟨hnodup.2, ?_, ?_, ?_, ?_, ?_⟩
    · intro s hs
      have hne : s ≠ r := fun e => hnodup.1 (e ▸ hs)
      obtain ⟨y, hy, hrest⟩ := h.free_slot s (by rw [hfree]; exact List.mem_cons_of_mem _ hs)
      exact ⟨y, by rw [hslot, if_neg hne, hy], hrest⟩
    · intro s y hy
      rcases hcases s y hy with ⟨-, rfl⟩ | ⟨-, hy⟩
      · exact Nat.succ_pos _
      · exact h.positive s y hy
    · intro s y hy
      rcases hcases s y hy with ⟨-, rfl⟩ | ⟨-, hy⟩
      · exact hroom
      · exact h.below_guard s y hy
    · intro s y hy hy'
      rcases hcases s y hy with ⟨-, rfl⟩ | ⟨-, hy⟩
      · -- the generation was odd, and so is the guard
        simp only [huse, Bool.false_eq_true, iff_false] at hodd
        unfold generationGuard at hroom ⊢
        show x.generation + 1 + 2 < _
        omega
      · exact h.below_guard_inUse s y hy hy'
    · intro s y hy
      rcases hcases s y hy with ⟨-, rfl⟩ | ⟨-, hy⟩
      · simp only [huse, Bool.false_eq_true, iff_false] at hodd
        simp only [iff_true]
        omega
      · exact h.even_iff s y hy

theorem take (h : Sound p) (hnew : p.free = [] → p.canGrow = true →
    ∀ r ∈ List.range' base p.nextChunkSlots, p.slot? r = none) : Sound (p.take base).1 := by
  unfold SlotPool.take
  cases hf : p.free with
  | cons r free => simpa using h.takeFree
  | nil =>
    by_cases hg : p.canGrow = true
    · simpa using (h.grow hf (hnew hf hg)).takeFree
    · simpa [SlotPool.grow, hg] using h.takeFree

theorem giveBack (h : Sound p) (r : Ref) : Sound (p.giveBack r) := by
  by_cases huse : p.isInUse r = true
  · obtain ⟨x, hx, hxuse⟩ : ∃ x, p.slot? r = some x ∧ x.inUse = true := by
      simpa [isInUse, Option.any_eq_true] using huse
    have hslot := slot?_giveBack_of_inUse hx hxuse
    have hroom := h.below_guard_inUse r x hx hxuse
    have heven := (h.even_iff r x hx).2 hxuse
    have hnot : r ∉ p.free := fun hr => by
      obtain ⟨y, hy, hfalse, -⟩ := h.free_slot r hr
      obtain rfl := Option.some.inj (hx.symm.trans hy)
      rw [hxuse] at hfalse
      exact absurd hfalse (by decide)
    have hfree : (p.giveBack r).free =
        if isReusable (x.generation + 1) = true then r :: p.free else p.free := by
      obtain ⟨generation, inUse⟩ := x
      obtain rfl : inUse = true := hxuse
      unfold SlotPool.giveBack
      rw [hx]
      dsimp only
      split <;> simp [free_updateSlot]
    have hcases : ∀ s y, (p.giveBack r).slot? s = some y →
        (s = r ∧ y = ⟨x.generation + 1, false⟩) ∨ (s ≠ r ∧ p.slot? s = some y) := by
      intro s y hy
      rw [hslot] at hy
      split at hy
      · next e => exact .inl ⟨e, (Option.some.inj hy).symm⟩
      · next e => exact .inr ⟨e, hy⟩
    refine ⟨?_, ?_, ?_, ?_, ?_, ?_⟩
    · rw [hfree]
      split
      · exact List.nodup_cons.2 ⟨hnot, h.free_nodup⟩
      · exact h.free_nodup
    · intro s hs
      have hold : s ∈ p.free → ∃ y, (p.giveBack r).slot? s = some y ∧ y.inUse = false ∧
          y.generation + 2 < generationGuard := fun hs => by
        obtain ⟨y, hy, hrest⟩ := h.free_slot s hs
        have hne : s ≠ r := fun e => hnot (e ▸ hs)
        exact ⟨y, by rw [hslot, if_neg hne, hy], hrest⟩
      rw [hfree] at hs
      split at hs
      · next hreuse =>
        rcases List.mem_cons.1 hs with rfl | hs
        · refine ⟨⟨x.generation + 1, false⟩, by rw [hslot, if_pos rfl], rfl, ?_⟩
          simpa [isReusable] using hreuse
        · exact hold hs
      · exact hold hs
    · intro s y hy
      rcases hcases s y hy with ⟨-, rfl⟩ | ⟨-, hy⟩
      · exact Nat.succ_pos _
      · exact h.positive s y hy
    · intro s y hy
      rcases hcases s y hy with ⟨-, rfl⟩ | ⟨-, hy⟩
      · exact hroom
      · exact h.below_guard s y hy
    · intro s y hy hy'
      rcases hcases s y hy with ⟨-, rfl⟩ | ⟨-, hy⟩
      · exact absurd hy' (by simp)
      · exact h.below_guard_inUse s y hy hy'
    · intro s y hy
      rcases hcases s y hy with ⟨-, rfl⟩ | ⟨-, hy⟩
      · simp only [Bool.false_eq_true, iff_false]
        omega
      · exact h.even_iff s y hy
  · rwa [giveBack_of_not_inUse huse]

end Sound

/-! ## One operation seen from one slot -/

/-- A chunk added at a cell lies apart from all slots, and handles can name its cells. -/
def HasRoomAt (p : SlotPool) (base : Ref) : Prop :=
  p.free = [] → p.canGrow = true → ∀ r : Ref, r ∈ List.range' base p.nextChunkSlots →
    p.slot? r = none ∧ p.machine.address r < Handle.addressLimit

theorem slot?_take (hroom : p.HasRoomAt base) {x : Slot} (hx : p.slot? r = some x) :
    (p.take base).1.slot? r =
      if (p.take base).2 = some r then some ⟨x.generation + 1, true⟩ else some x := by
  have hkeep : ∀ p' : SlotPool, p'.slot? r = some x → p'.takeFree.1.slot? r =
      if p'.takeFree.2 = some r then some ⟨x.generation + 1, true⟩ else some x := by
    intro p' hx'
    rw [slot?_takeFree, hx', Option.map_some]
  unfold take
  cases hf : p.free with
  | cons t free => exact hkeep p hx
  | nil =>
    refine hkeep _ ?_
    show (p.grow base).slot? r = some x
    by_cases hg : p.canGrow = true
    · have hnew := fun s hs => (hroom hf hg s hs).1
      have hnot : r ∉ List.range' base p.nextChunkSlots := fun hr => by
        rw [hnew r hr] at hx
        exact absurd hx (by simp)
      rw [slot?_grow p base r hnew, if_neg (fun h => hnot h.2), hx]
    · simp [grow, hg, hx]

/-- Only slots that are not in use are taken. -/
theorem Sound.take_ne_of_inUse (h : Sound p) (hroom : p.HasRoomAt base) {x : Slot}
    (hx : p.slot? r = some x) (huse : x.inUse = true) : (p.take base).2 ≠ some r := by
  intro ht
  have hsound := h.take fun hf hg s hs => (hroom hf hg s hs).1
  have hy := slot?_take hroom hx
  rw [if_pos ht] at hy
  -- the generation of the slot would be even before and after
  have heven := (h.even_iff r x hx).2 huse
  have heven' := (hsound.even_iff r _ hy).2 rfl
  simp only at heven'
  omega

/-- The cells of slots fit handles. -/
def Fits (p : SlotPool) : Prop :=
  ∀ r x, p.slot? r = some x → p.machine.address r < Handle.addressLimit

theorem Fits.take (h : Fits p) (hroom : p.HasRoomAt base) : Fits (p.take base).1 := by
  intro s x hx
  rw [machine_take]
  have hfree : ∀ p' : SlotPool, (p'.takeFree.1.slot? s).isSome = (p'.slot? s).isSome := fun p' => by
    rw [slot?_takeFree]
    split <;> simp
  have hsome : ((p.take base).1.slot? s).isSome = true := by rw [hx]; rfl
  unfold SlotPool.take at hsome
  rw [hfree] at hsome
  cases hf : p.free with
  | cons t free =>
    rw [hf] at hsome
    obtain ⟨y, hy⟩ := Option.isSome_iff_exists.1 hsome
    exact h s y hy
  | nil =>
    rw [hf] at hsome
    obtain ⟨y, hy⟩ := Option.isSome_iff_exists.1 hsome
    change (p.grow base).slot? s = some y at hy
    by_cases hg : p.canGrow = true
    · rw [slot?_grow p base s fun s hs => (hroom hf hg s hs).1] at hy
      split at hy
      · next hin => exact (hroom hf hg s hin.2).2
      · exact h s y hy
    · simp only [SlotPool.grow, hg] at hy
      exact h s y hy

theorem Fits.giveBack (h : Fits p) (r : Ref) : Fits (p.giveBack r) := by
  intro s x hx
  rw [machine_giveBack]
  rw [slot?_giveBack] at hx
  split at hx
  · next e =>
    obtain ⟨y, hy, -⟩ := Option.map_eq_some_iff.1 hx
    exact e.1 ▸ h r y hy
  · exact h s x hx

/-! ## Sequences of operations -/

/-- A request to a pool. -/
inductive Op where
  /-- Take a slot; a chunk that this adds begins at the given cell. -/
  | take (base : Ref)
  | giveBack (r : Ref)
  deriving DecidableEq

/-- The requests, one after the other, lead from one pool to another. A request that is refused
leaves the pool as it is. -/
inductive Run : SlotPool → List Op → SlotPool → Prop
  | done (p : SlotPool) : Run p [] p
  | take {p q : SlotPool} {base : Ref} {ops : List Op} : p.HasRoomAt base →
      Run (p.take base).1 ops q → Run p (.take base :: ops) q
  | giveBack {p q : SlotPool} {r : Ref} {ops : List Op} :
      Run (p.giveBack r) ops q → Run p (.giveBack r :: ops) q

namespace Run

variable {ops : List Op} {x : Slot}

theorem sound (h : Run p ops q) (hp : Sound p) : Sound q := by
  induction h with
  | done => exact hp
  | take hroom _ ih => exact ih (hp.take fun hf hg s hs => (hroom hf hg s hs).1)
  | giveBack _ ih => exact ih (hp.giveBack _)

theorem machine_eq (h : Run p ops q) : q.machine = p.machine := by
  induction h with
  | done => rfl
  | take _ _ ih => exact ih.trans (machine_take ..)
  | giveBack _ ih => exact ih.trans (machine_giveBack ..)

theorem fits (h : Run p ops q) (hp : Fits p) : Fits q := by
  induction h with
  | done => exact hp
  | take hroom _ ih => exact ih (hp.take hroom)
  | giveBack _ ih => exact ih (hp.giveBack _)

/-- Whatever happens to a slot moves it to a higher generation. -/
theorem slot_mono (h : Run p ops q) (hx : p.slot? r = some x) :
    ∃ y, q.slot? r = some y ∧ (y = x ∨ x.generation < y.generation) := by
  induction h generalizing x with
  | done => exact ⟨x, hx, .inl rfl⟩
  | @take p q base ops hroom _ ih =>
    have hnext := slot?_take hroom hx
    split at hnext
    · obtain ⟨y, hy, rfl | hlt⟩ := ih hnext
      · exact ⟨_, hy, .inr (Nat.lt_succ_self _)⟩
      · exact ⟨y, hy, .inr (Nat.lt_of_succ_lt hlt)⟩
    · exact ih hnext
  | @giveBack p q s ops _ ih =>
    have hnext := slot?_giveBack p s r
    split at hnext
    · next e =>
      obtain ⟨rfl, -⟩ := e
      rw [hx, Option.map_some] at hnext
      obtain ⟨y, hy, rfl | hlt⟩ := ih hnext
      · exact ⟨_, hy, .inr (Nat.lt_succ_self _)⟩
      · exact ⟨y, hy, .inr (Nat.lt_of_succ_lt hlt)⟩
    · exact ih (hnext.trans hx)

/-- A slot in use stays as it is until it is given back. -/
theorem slot_of_not_mem (h : Run p ops q) (hp : Sound p) (hx : p.slot? r = some x)
    (huse : x.inUse = true) (hnot : .giveBack r ∉ ops) : q.slot? r = some x := by
  induction h with
  | done => exact hx
  | take hroom _ ih =>
    have hnext := slot?_take hroom hx
    rw [if_neg (hp.take_ne_of_inUse hroom hx huse)] at hnext
    exact ih (hp.take fun hf hg s hs => (hroom hf hg s hs).1) hnext
      fun hmem => hnot (List.mem_cons_of_mem _ hmem)
  | @giveBack p q s ops _ ih =>
    have hne : r ≠ s := fun e => hnot (e ▸ List.mem_cons_self)
    have hnext := slot?_giveBack p s r
    rw [if_neg (fun e => hne e.1), hx] at hnext
    exact ih (hp.giveBack s) hnext fun hmem => hnot (List.mem_cons_of_mem _ hmem)

/-- A slot in use that is given back has left its generation for good. -/
theorem slot_of_mem (h : Run p ops q) (hp : Sound p) (hx : p.slot? r = some x)
    (huse : x.inUse = true) (hmem : .giveBack r ∈ ops) :
    ∃ y, q.slot? r = some y ∧ x.generation < y.generation := by
  induction h with
  | done => exact absurd hmem (by simp)
  | take hroom _ ih =>
    have hnext := slot?_take hroom hx
    rw [if_neg (hp.take_ne_of_inUse hroom hx huse)] at hnext
    refine ih (hp.take fun hf hg s hs => (hroom hf hg s hs).1) hnext ?_
    simpa using hmem
  | @giveBack p q s ops hrest ih =>
    have hnext := slot?_giveBack p s r
    by_cases e : r = s
    · subst e
      have hin : p.isInUse r = true := by simp [isInUse, hx, huse]
      rw [if_pos ⟨rfl, hin⟩, hx, Option.map_some] at hnext
      obtain ⟨y, hy, rfl | hlt⟩ := slot_mono hrest hnext
      · exact ⟨_, hy, Nat.lt_succ_self _⟩
      · exact ⟨y, hy, Nat.lt_of_succ_lt hlt⟩
    · rw [if_neg (fun h => e h.1), hx] at hnext
      refine ih (hp.giveBack s) hnext ?_
      rcases List.mem_cons.1 hmem with h | h
      · exact absurd (Op.giveBack.inj h) e
      · exact h

end Run

/-! ## Handles -/

section Handles

variable {secret : UInt64} {x : Slot}

theorem generation_lt (h : Sound p) (hx : p.slot? r = some x) : x.generation < 2 ^ 16 := by
  have := h.below_guard r x hx
  unfold generationGuard at this
  omega

/-- Two occupants of a slot have different tags. -/
theorem handleTag_eq_iff_of_lt {address g g' : Nat} (hg : g < 2 ^ 16) (hg' : g' < 2 ^ 16) :
    handleTag address g secret = handleTag address g' secret ↔ g = g' := by
  rw [handleTag_eq_iff, Nat.mod_eq_of_lt (by simpa using hg), Nat.mod_eq_of_lt (by simpa using hg')]

/-- What a word stands for that has the tag of one generation of a slot. -/
theorem deref?_ofParts (h : Sound p) (hx : p.slot? r = some x)
    (hfit : p.machine.address r < Handle.addressLimit) {generation : Nat} (hlt : generation < 2 ^ 16) :
    p.deref? secret (.ofParts (handleTag (p.machine.address r) generation secret) (p.machine.address r)) =
      if x.inUse = true ∧ x.generation = generation then some r else none := by
  have htag : handleTag (p.machine.address r) x.generation secret =
      handleTag (p.machine.address r) generation secret ↔ x.generation = generation :=
    handleTag_eq_iff_of_lt (generation_lt h hx) hlt
  rw [deref?, Handle.address_ofParts _ hfit, Handle.tag_ofParts _ hfit, Machine.cell?_address,
    Option.filter_some]
  simp only [hx, Option.any_some, Bool.and_eq_true, beq_iff_eq, htag]

/-- Every object in the pool has a handle. -/
theorem handle_eq (hx : p.slot? r = some x) (huse : x.inUse = true)
    (hfit : p.machine.address r < Handle.addressLimit) : p.handle secret r =
      .ok (.ofParts (handleTag (p.machine.address r) x.generation secret) (p.machine.address r)) := by
  simp [handle, Nat.not_le.2 hfit, hx, huse]

theorem resolve_eq_elim (p : SlotPool) (secret : UInt64) (h : Handle) :
    p.resolve secret h = (p.deref? secret h).elim (.error .invalidHandle) .ok := by
  unfold resolve
  cases p.deref? secret h <;> rfl

/-- A slot stays in its generation while its object lives and never comes back to it. -/
theorem Run.deref? (secret : UInt64) {ops : List Op} (h : Run p ops q) (hp : Sound p) (hfit : Fits p)
    (hx : p.slot? r = some x) (huse : x.inUse = true) :
    q.deref? secret (.ofParts (handleTag (p.machine.address r) x.generation secret) (p.machine.address r)) =
      if Op.giveBack r ∈ ops then none else some r := by
  have hlt := generation_lt hp hx
  have hfit' : q.machine.address r < Handle.addressLimit := h.machine_eq ▸ hfit r x hx
  rw [← h.machine_eq]
  by_cases hmem : Op.giveBack r ∈ ops
  · obtain ⟨y, hy, hgen⟩ := h.slot_of_mem hp hx huse hmem
    rw [deref?_ofParts (h.sound hp) hy hfit' hlt, if_pos hmem,
      if_neg (fun e => absurd e.2 (Nat.ne_of_gt hgen))]
  · have hy := h.slot_of_not_mem hp hx huse hmem
    rw [deref?_ofParts (h.sound hp) hy hfit' hlt, if_neg hmem, if_pos ⟨huse, rfl⟩]

/-- On whatever machine, a handle is good for its object until the object's slot is given back, and never
again, however often the slot is used after that: the generations of a slot only go up, below `2 ^ 16`, so
the tags of two of its occupants differ. -/
theorem handle_lifetime (secret : UInt64) {machine : Machine} {limits : PoolLimits} {before after : List Op}
    (hbefore : Run (.ofLimitsOn limits machine) before p) (hlive : p.isInUse r = true)
    (hafter : Run p after q) :
    (∃ h, p.handle secret r = .ok h ∧
      (q.accepts secret h = true ↔ Op.giveBack r ∉ after) ∧
      q.deref? secret h = (if Op.giveBack r ∈ after then none else some r) ∧
      q.resolve secret h = (if Op.giveBack r ∈ after then .error .invalidHandle else .ok r)) ∧
    ∀ c x, p.slot? c = some x → 0 < x.generation ∧ x.generation < 2 ^ 16 ∧
      ∃ y, q.slot? c = some y ∧ (y = x ∨ x.generation < y.generation) ∧ y.generation < 2 ^ 16 ∧
        (x.inUse = true → Op.giveBack c ∈ after → x.generation < y.generation ∧
          handleTag (machine.address c) x.generation secret ≠
            handleTag (machine.address c) y.generation secret) := by
  have hp : Sound p := hbefore.sound (.ofLimitsOn limits machine)
  have hq : Sound q := hafter.sound hp
  have hfit : Fits p := hbefore.fits fun s x hx => by
    simp [SlotPool.ofLimitsOn, slot?, chunkIndex?] at hx
  obtain ⟨x, hx, huse⟩ : ∃ x, p.slot? r = some x ∧ x.inUse = true := by
    simpa [isInUse, Option.any_eq_true] using hlive
  constructor
  · have hderef := Run.deref? secret hafter hp hfit hx huse
    refine ⟨_, handle_eq hx huse (hfit r x hx), ?_, hderef, ?_⟩
    · by_cases hmem : Op.giveBack r ∈ after <;> simp [accepts, hderef, hmem]
    · rw [resolve_eq_elim, hderef]
      by_cases hmem : Op.giveBack r ∈ after
      · rw [if_pos hmem, if_pos hmem, Option.elim_none]
      · rw [if_neg hmem, if_neg hmem, Option.elim_some]
  · intro c x hx
    refine ⟨hp.positive c x hx, generation_lt hp hx, ?_⟩
    obtain ⟨y, hy, hmono⟩ := hafter.slot_mono hx
    refine ⟨y, hy, hmono, generation_lt hq hy, fun huse hmem => ?_⟩
    obtain ⟨z, hz, hlt⟩ := hafter.slot_of_mem hp hx huse hmem
    obtain rfl := Option.some.inj (hy.symm.trans hz)
    refine ⟨hlt, fun he => ?_⟩
    rw [handleTag_eq_iff_of_lt (generation_lt hp hx) (generation_lt hq hy)] at he
    omega

/-- A handle does not fit the next occupant of its slot. -/
theorem handle_lifetime_reused :
    let p := ((SlotPool.ofLimits ⟨1, 2⟩).take 1).1
    let q := ((p.giveBack 1).take 3).1
    q.isInUse 1 = true ∧ ∃ h, p.handle 7 1 = .ok h ∧ p.deref? 7 h = some 1 ∧ q.deref? 7 h = none := by
  intro p q
  have hbefore : Run (.ofLimits ⟨1, 2⟩) [.take 1] p :=
    .take (by unfold HasRoomAt; decide +kernel) (.done _)
  have hafter : Run p [.giveBack 1, .take 3] q :=
    .giveBack (.take (by unfold HasRoomAt; decide +kernel) (.done _))
  have hlive : p.isInUse 1 = true := by decide +kernel
  obtain ⟨⟨h, hh, -, hderef, -⟩, -⟩ := handle_lifetime 7 hbefore hlive hafter
  exact ⟨by decide +kernel, h, hh, deref?_handle hh, by simpa using hderef⟩

end Handles

end Reclamation.SlotPool
