import Mathlib
import Reclamation.Proofs.Memory.SlotAddresses

/-!
# How many slots there are

Every slot of a pool is in use, free or retired, and the pool counts each of these apart from the slots
themselves (`Accounted`). A slot moves between the three where it is taken and where it is given back, so each of
these operations changes what one cell holds (`cellsWith_of_change`) and moves one from a count to another.

How long the chunks are depends on nothing but how many there are: each is twice as long as the one before, and
the last is cut off where the pool has all the slots it may have (`Laid`). So there is a slot to take unless all
slots that there may be are taken or retired, or there are as many chunks as there may be (`slots_accounted`).
-/

set_option autoImplicit false

namespace Reclamation

/-- Whether a slot was given back and will never be taken again. -/
def Slot.isRetired (x : Slot) : Bool :=
  !x.inUse && !SlotPool.isReusable x.generation

namespace SlotPool

variable {p q : SlotPool} {r : Ref} {base : Ref} {x y : Slot} {f : Slot → Bool}

/-! ## The cells of some slots -/

/-- The cells that hold a slot of some kind. -/
def cellsWith (p : SlotPool) (f : Slot → Bool) : Finset Ref :=
  (Finset.range p.limit).filter fun r => (p.slot? r).any f

theorem mem_cellsWith : r ∈ p.cellsWith f ↔ ∃ x, p.slot? r = some x ∧ f x = true := by
  rw [cellsWith, Finset.mem_filter, Finset.mem_range, Option.any_eq_true]
  constructor
  · intro hr
    exact hr.2
  · intro hr
    obtain ⟨x, hx, hf⟩ := hr
    exact ⟨lt_limit hx, x, hx, hf⟩

theorem notMem_cellsWith (hx : p.slot? r = some x) (hf : f x = false) : r ∉ p.cellsWith f := by
  intro hr
  obtain ⟨y, hy, hfy⟩ := mem_cellsWith.1 hr
  obtain rfl := Option.some.inj (hx.symm.trans hy)
  rw [hf] at hfy
  exact absurd hfy (by decide)

/-- Where the slot in one cell changes. -/
theorem cellsWith_of_change (h : ∀ s, q.slot? s = if s = r then some y else p.slot? s) (f : Slot → Bool) :
    q.cellsWith f = if f y = true then insert r (p.cellsWith f) else (p.cellsWith f).erase r := by
  ext s
  rw [mem_cellsWith, h]
  by_cases hs : s = r
  · cases hfy : f y <;> simp [hs, hfy]
  · cases hfy : f y <;> simp [hs, mem_cellsWith]

/-- Slots of a kind that new slots are not. -/
theorem cellsWith_grow (hnew : ∀ r ∈ List.range' base p.nextChunkSlots, p.slot? r = none) (hf : f {} = false) :
    (p.grow base).cellsWith f = p.cellsWith f := by
  ext s
  rw [mem_cellsWith, mem_cellsWith, slot?_grow p base s hnew]
  split
  · next hs => simp [hf, hnew s hs.2]
  · rfl

/-! ## Three kinds of slots -/

theorem isRetired_of_inUse (h : x.inUse = true) : x.isRetired = false := by
  simp [Slot.isRetired, h]

theorem isRetired_eq_false_iff (h : x.inUse = false) :
    x.isRetired = false ↔ x.generation + 2 < generationGuard := by
  simp [Slot.isRetired, isReusable, h]

/-- Every slot is in use, free or retired, and each kind has the count that the pool says. -/
structure Accounted (p : SlotPool) : Prop where
  sound : p.Sound
  free_of_available : ∀ r x, p.slot? r = some x → x.inUse = false → x.isRetired = false → r ∈ p.free
  live_eq : p.live = (p.cellsWith (·.inUse)).card
  retired_eq : p.retired = (p.cellsWith (·.isRetired)).card
  total : p.live + p.free.length + p.retired = p.capacity

/-! ## Chunks -/

/-- How many slots each chunk has. -/
def lengths (p : SlotPool) : List Nat :=
  p.chunks.toList.map (·.slots.size)

theorem lengths_eq_extents (p : SlotPool) : p.lengths = p.extents.toList.map (·.2) := by
  simp [lengths, extents, Function.comp_def]

theorem length_lengths (p : SlotPool) : p.lengths.length = p.chunks.size := by
  simp [lengths]

theorem lengths_grow (hgrow : p.canGrow = true) : (p.grow base).lengths = p.lengths ++ [p.nextChunkSlots] := by
  simp [lengths, grow, hgrow]

theorem capacity_grow (hgrow : p.canGrow = true) : (p.grow base).capacity = p.capacity + p.nextChunkSlots := by
  simp [grow, hgrow]

theorem capacity_updateSlot (p : SlotPool) (r : Ref) (f : Slot → Slot) :
    (p.updateSlot r f).capacity = p.capacity := by
  unfold updateSlot
  split <;> rfl

theorem capacity_takeFree (p : SlotPool) : p.takeFree.1.capacity = p.capacity := by
  unfold takeFree
  split
  · rfl
  · exact capacity_updateSlot _ _ _

theorem capacity_giveBack (p : SlotPool) (r : Ref) : (p.giveBack r).capacity = p.capacity := by
  unfold giveBack
  split
  · dsimp only
    split <;> exact capacity_updateSlot _ _ _
  · rfl

/-! ## The counts after each operation -/

/-- A chunk added at a cell lies apart from all slots. -/
def HasSpaceAt (p : SlotPool) (base : Ref) : Prop :=
  p.free = [] → p.canGrow = true → ∀ r ∈ List.range' base p.nextChunkSlots, p.slot? r = none

theorem retired_updateSlot (p : SlotPool) (r : Ref) (f : Slot → Slot) : (p.updateSlot r f).retired = p.retired := by
  unfold updateSlot
  split <;> rfl

theorem retired_takeFree (p : SlotPool) : p.takeFree.1.retired = p.retired := by
  unfold takeFree
  split
  · rfl
  · exact retired_updateSlot _ _ _

theorem giveBack_lists (hx : p.slot? r = some x) (huse : x.inUse = true) :
    (p.giveBack r).free = (if isReusable (x.generation + 1) = true then r :: p.free else p.free) ∧
    (p.giveBack r).retired = if isReusable (x.generation + 1) = true then p.retired else p.retired + 1 := by
  obtain ⟨generation, inUse⟩ := x
  obtain rfl : inUse = true := huse
  unfold giveBack
  rw [hx]
  dsimp only
  split <;> simp [free_updateSlot, retired_updateSlot]

namespace Accounted

theorem ofLimitsOn (limits : PoolLimits) (machine : Machine) : Accounted (.ofLimitsOn limits machine) := by
  have hnone : ∀ r, (SlotPool.ofLimitsOn limits machine).slot? r = none := fun r => by
    simp [SlotPool.ofLimitsOn, slot?, chunkIndex?]
  have hempty : ∀ f, (SlotPool.ofLimitsOn limits machine).cellsWith f = ∅ := fun f => by
    ext r
    simp [mem_cellsWith, hnone]
  refine ⟨.ofLimitsOn limits machine, fun r x hx => ?_, ?_, ?_, rfl⟩
  · rw [hnone] at hx
    exact absurd hx (by simp)
  all_goals
    rw [hempty]
    rfl

theorem grow (h : p.Accounted) (hfree : p.free = [])
    (hnew : p.canGrow = true → ∀ r ∈ List.range' base p.nextChunkSlots, p.slot? r = none) :
    (p.grow base).Accounted := by
  by_cases hgrow : p.canGrow = true
  · replace hnew := hnew hgrow
    have hlist : (p.grow base).free = List.range' base p.nextChunkSlots := by
      simp [SlotPool.grow, hgrow, hfree]
    have hcounts : (p.grow base).live = p.live ∧ (p.grow base).retired = p.retired := by
      simp [SlotPool.grow, hgrow]
    refine ⟨h.sound.grow hfree hnew, fun r x hx huse havail => ?_, ?_, ?_, ?_⟩
    · rw [slot?_grow p base r hnew] at hx
      split at hx
      · next hr => exact hlist ▸ hr.2
      · have hr := h.free_of_available r x hx huse havail
        rw [hfree] at hr
        exact absurd hr (by simp)
    · rw [hcounts.1, h.live_eq, cellsWith_grow hnew (by rfl)]
    · rw [hcounts.2, h.retired_eq, cellsWith_grow hnew (by rfl)]
    · have htotal := h.total
      rw [hfree, List.length_nil] at htotal
      rw [hcounts.1, hcounts.2, hlist, List.length_range', capacity_grow hgrow]
      omega
  · rwa [SlotPool.grow, if_neg hgrow]

/-- The slot that is taken moves from the free ones to those in use. -/
theorem takeFree (h : p.Accounted) : p.takeFree.1.Accounted := by
  cases ht : p.takeFree.2 with
  | none => rwa [takeFree_of_none ht]
  | some r =>
    have hfree : p.free = r :: p.takeFree.1.free := free_takeFree ht
    obtain ⟨x, hx, huse, hroom⟩ := h.sound.free_slot r (hfree ▸ List.mem_cons_self)
    have hchange := slot?_takeFree_of_some ht hx
    have hunused : r ∉ p.cellsWith (·.inUse) := notMem_cellsWith hx huse
    have hunretired : r ∉ p.cellsWith (·.isRetired) := notMem_cellsWith hx ((isRetired_eq_false_iff huse).2 hroom)
    refine ⟨h.sound.takeFree, fun s y hy hyuse havail => ?_, ?_, ?_, ?_⟩
    · rw [hchange] at hy
      split at hy
      · obtain rfl := Option.some.inj hy
        exact absurd hyuse (by simp)
      · next hs =>
        have hmem := h.free_of_available s y hy hyuse havail
        rw [hfree] at hmem
        exact (List.mem_cons.1 hmem).resolve_left hs
    · rw [live_takeFree ht, cellsWith_of_change hchange, if_pos rfl, Finset.card_insert_of_notMem hunused, h.live_eq]
    · rw [retired_takeFree, cellsWith_of_change hchange, if_neg (by simp [Slot.isRetired]),
        Finset.erase_eq_of_notMem hunretired, h.retired_eq]
    · have htotal := h.total
      rw [hfree, List.length_cons] at htotal
      rw [live_takeFree ht, retired_takeFree, capacity_takeFree]
      omega

/-- A slot that is given back moves from those in use to the free or to the retired ones. -/
theorem giveBack (h : p.Accounted) (r : Ref) : (p.giveBack r).Accounted := by
  by_cases hin : p.isInUse r = true
  · obtain ⟨x, hx, huse⟩ : ∃ x, p.slot? r = some x ∧ x.inUse = true := by
      simpa [isInUse, Option.any_eq_true] using hin
    obtain ⟨hfree, hretired⟩ := giveBack_lists hx huse
    have hchange := slot?_giveBack_of_inUse hx huse
    have hused : r ∈ p.cellsWith (·.inUse) := mem_cellsWith.2 ⟨x, hx, huse⟩
    have hunretired : r ∉ p.cellsWith (·.isRetired) := notMem_cellsWith hx (isRetired_of_inUse huse)
    have hkind : Slot.isRetired ⟨x.generation + 1, false⟩ = !isReusable (x.generation + 1) := rfl
    have hlive : (p.giveBack r).live = p.live - 1 := live_giveBack hx huse
    have hpos : 0 < p.live := by
      rw [h.live_eq]
      exact Finset.card_pos.2 ⟨r, hused⟩
    refine ⟨h.sound.giveBack r, fun s y hy hyuse havail => ?_, ?_, ?_, ?_⟩
    · rw [hchange] at hy
      rw [hfree]
      split at hy
      · next hs =>
        obtain rfl := Option.some.inj hy
        rw [hkind, Bool.not_eq_false'] at havail
        rw [if_pos havail, hs]
        exact List.mem_cons_self
      · have hmem := h.free_of_available s y hy hyuse havail
        split
        · exact List.mem_cons_of_mem r hmem
        · exact hmem
    · rw [hlive, cellsWith_of_change hchange, if_neg (by simp), Finset.card_erase_of_mem hused, h.live_eq]
    · rw [hretired, cellsWith_of_change hchange, hkind]
      cases isReusable (x.generation + 1) with
      | true => simp [Finset.erase_eq_of_notMem hunretired, h.retired_eq]
      | false => simp [Finset.card_insert_of_notMem hunretired, h.retired_eq]
    · have htotal := h.total
      rw [hlive, hfree, hretired, capacity_giveBack]
      cases isReusable (x.generation + 1) with
      | true =>
        simp only [↓reduceIte, List.length_cons]
        omega
      | false =>
        simp only [Bool.false_eq_true, ↓reduceIte]
        omega
  · rwa [giveBack_of_not_inUse hin]

/-- The free list holds exactly the slots that are neither in use nor retired. -/
theorem mem_free_iff (h : p.Accounted) :
    r ∈ p.free ↔ ∃ x, p.slot? r = some x ∧ x.inUse = false ∧ x.isRetired = false := by
  constructor
  · intro hr
    obtain ⟨x, hx, huse, hroom⟩ := h.sound.free_slot r hr
    exact ⟨x, hx, huse, (isRetired_eq_false_iff huse).2 hroom⟩
  · intro hr
    obtain ⟨x, hx, huse, havail⟩ := hr
    exact h.free_of_available r x hx huse havail

end Accounted

/-! ## Where the chunks lie -/

theorem isSome_slot?_of_extent {i : Nat} {c : Ref × Nat} (hc : p.extents[i]? = some c) (hle : c.1 ≤ r)
    (hlt : r < c.1 + c.2) : (p.slot? r).isSome = true := by
  rw [slot?_isSome_iff, chunkIndex?_eq_extents, Array.findIdx?_isSome, Array.any_eq_true]
  obtain ⟨hi, hget⟩ := Array.getElem?_eq_some_iff.1 hc
  exact ⟨i, hi, by simp [hget, hle, hlt]⟩

theorem extents_grow (hgrow : p.canGrow = true) : (p.grow base).extents = p.extents.push (base, p.nextChunkSlots) := by
  simp [extents, grow, hgrow]

/-- Where the chunks of a pool lie and how long they are. -/
structure Laid (p : SlotPool) : Prop where
  initial_pos : 0 < p.initialSlots
  /-- No doubling goes around. -/
  initial_lt : p.initialSlots * 2 ^ 31 < 2 ^ 64
  chunks_le : p.chunks.size ≤ maxSlotChunks
  capacity_eq : p.capacity = p.lengths.sum
  capacity_le : p.capacity ≤ p.maxSlots
  length_eq : ∀ i n, p.lengths[i]? = some n →
    n = min (p.initialSlots * 2 ^ i) (p.maxSlots - (p.lengths.take i).sum)
  /-- No cell lies in two chunks. -/
  apart : ∀ (i j : Nat) (c d : Ref × Nat) (r : Ref), p.extents[i]? = some c → p.extents[j]? = some d →
    c.1 ≤ r → r < c.1 + c.2 → d.1 ≤ r → r < d.1 + d.2 → i = j

namespace Laid

theorem ofLimitsOn {limits : PoolLimits} (h : limits.initialSlots * 2 ^ 31 < 2 ^ 64) (machine : Machine) :
    Laid (.ofLimitsOn limits machine) where
  initial_pos := Nat.le_max_right _ _
  initial_lt := by
    have hinitial : (SlotPool.ofLimitsOn limits machine).initialSlots = max limits.initialSlots 1 := rfl
    rw [hinitial]
    rcases max_choice limits.initialSlots 1 with hmax | hmax
    · rwa [hmax]
    · rw [hmax]
      decide
  chunks_le := Nat.zero_le _
  capacity_eq := rfl
  capacity_le := Nat.zero_le _
  length_eq i n hn := by simp [SlotPool.ofLimitsOn, lengths] at hn
  apart i j c d r hc := by simp [SlotPool.ofLimitsOn, extents] at hc

theorem of_extents (h : p.Laid) (hextents : q.extents = p.extents) (hcapacity : q.capacity = p.capacity)
    (hsetting : q.setting = p.setting) : q.Laid := by
  have hinitial : q.initialSlots = p.initialSlots := congrArg (·.2.initialSlots) hsetting
  have hmax : q.maxSlots = p.maxSlots := congrArg (·.2.maxSlots) hsetting
  have hlengths : q.lengths = p.lengths := by rw [lengths_eq_extents, lengths_eq_extents, hextents]
  have hsize : q.chunks.size = p.chunks.size := by rw [← size_extents, hextents, size_extents]
  refine ⟨hinitial ▸ h.initial_pos, hinitial ▸ h.initial_lt, hsize ▸ h.chunks_le, ?_, ?_, ?_, ?_⟩
  · rw [hcapacity, hlengths]
    exact h.capacity_eq
  · rw [hcapacity, hmax]
    exact h.capacity_le
  · rw [hlengths, hinitial, hmax]
    exact h.length_eq
  · rw [hextents]
    exact h.apart

/-- The doubling does not go around. -/
theorem nextChunkSlots_eq (h : p.Laid) (hgrow : p.canGrow = true) :
    p.nextChunkSlots = min (p.initialSlots * 2 ^ p.chunks.size) (p.maxSlots - p.capacity) := by
  have hsize : p.chunks.size ≤ 31 := by
    simp only [canGrow, Bool.and_eq_true, decide_eq_true_eq] at hgrow
    exact Nat.le_of_lt_succ hgrow.1
  have hword : p.initialSlots * 2 ^ p.chunks.size < UInt64.size := calc
    p.initialSlots * 2 ^ p.chunks.size ≤ p.initialSlots * 2 ^ 31 :=
      Nat.mul_le_mul_left _ (Nat.pow_le_pow_right (by decide) hsize)
    _ < 2 ^ 64 := h.initial_lt
    _ = UInt64.size := rfl
  rw [nextChunkSlots, Nat.shiftLeft_eq, Nat.mod_eq_of_lt hword]

/-- A chunk that may be added is not empty. -/
theorem nextChunkSlots_pos (h : p.Laid) (hgrow : p.canGrow = true) : 0 < p.nextChunkSlots := by
  rw [h.nextChunkSlots_eq hgrow]
  simp only [canGrow, Bool.and_eq_true, decide_eq_true_eq] at hgrow
  have hdouble : 0 < p.initialSlots * 2 ^ p.chunks.size := Nat.mul_pos h.initial_pos (Nat.two_pow_pos _)
  omega

theorem grow (h : p.Laid)
    (hnew : p.canGrow = true → ∀ r ∈ List.range' base p.nextChunkSlots, p.slot? r = none) :
    (p.grow base).Laid := by
  by_cases hgrow : p.canGrow = true
  · have hinitial : (p.grow base).initialSlots = p.initialSlots := congrArg (·.2.initialSlots) (setting_grow p base)
    have hmax : (p.grow base).maxSlots = p.maxSlots := congrArg (·.2.maxSlots) (setting_grow p base)
    have hsize : (p.grow base).chunks.size = p.chunks.size + 1 := by simp [SlotPool.grow, hgrow]
    have hnext := h.nextChunkSlots_eq hgrow
    have hroom := hgrow
    simp only [canGrow, Bool.and_eq_true, decide_eq_true_eq] at hroom
    -- the cells of the new chunk are those of no chunk before
    have hfresh : ∀ (i : Nat) (c : Ref × Nat) (r : Ref), p.extents[i]? = some c → c.1 ≤ r → r < c.1 + c.2 →
        base ≤ r → ¬ r < base + p.nextChunkSlots := by
      intro i c r hc hle hlt hbase hend
      have hsome := isSome_slot?_of_extent hc hle hlt
      rw [hnew hgrow r (List.mem_range'_1.2 ⟨hbase, hend⟩)] at hsome
      exact absurd hsome (by decide)
    refine ⟨hinitial ▸ h.initial_pos, hinitial ▸ h.initial_lt, ?_, ?_, ?_, ?_, ?_⟩
    · rw [hsize]
      exact hroom.1
    · rw [capacity_grow hgrow, lengths_grow hgrow, h.capacity_eq, List.sum_append, List.sum_singleton]
    · rw [capacity_grow hgrow, hmax]
      omega
    · intro i n hn
      rw [lengths_grow hgrow] at hn ⊢
      rw [hinitial, hmax]
      rcases Nat.lt_or_ge i p.lengths.length with hi | hi
      · rw [List.getElem?_append_left hi] at hn
        rw [List.take_append_of_le_length hi.le]
        exact h.length_eq i n hn
      · obtain rfl : i = p.lengths.length := by
          have hlt := (List.getElem?_eq_some_iff.1 hn).1
          rw [List.length_append, List.length_singleton] at hlt
          omega
        rw [List.getElem?_concat_length, Option.some.injEq] at hn
        rw [List.take_left, ← h.capacity_eq, length_lengths, ← hn]
        exact hnext
    · intro i j c d r hc hd hle hlt hle' hlt'
      rw [extents_grow hgrow, Array.getElem?_push] at hc hd
      split at hc <;> split at hd
      · next hi hj => rw [hi, hj]
      · obtain rfl := Option.some.inj hc
        exact absurd hlt (hfresh j d r hd hle' hlt' hle)
      · obtain rfl := Option.some.inj hd
        exact absurd hlt' (hfresh i c r hc hle hlt hle')
      · exact h.apart i j c d r hc hd hle hlt hle' hlt'
  · rwa [SlotPool.grow, if_neg hgrow]

/-- The slots of the chunks are the slots of the pool. -/
theorem slot?_eq_some_iff (h : p.Laid) :
    p.slot? r = some x ↔ ∃ c ∈ p.chunks, ∃ i, c.slots[i]? = some x ∧ r = c.base + i := by
  constructor
  · intro hx
    obtain ⟨i, hi, hslot⟩ := Option.bind_eq_some_iff.1 hx
    obtain ⟨c, hc, hget⟩ := Option.bind_eq_some_iff.1 hslot
    obtain ⟨c', hc', hle, -⟩ := exists_chunk hi
    obtain rfl := Option.some.inj (hc.symm.trans hc')
    exact ⟨c, Array.mem_of_getElem? hc, r - c.base, hget, (Nat.add_sub_cancel' hle).symm⟩
  · rintro ⟨c, hmem, k, hget, rfl⟩
    obtain ⟨j, hj, hcj⟩ := Array.mem_iff_getElem.1 hmem
    have hk : k < c.slots.size := (Array.getElem?_eq_some_iff.1 hget).1
    have hext : ∀ {i : Nat} {c : SlotChunk}, p.chunks[i]? = some c → p.extents[i]? = some (c.base, c.slots.size) := by
      intro i c hc
      rw [extents, Array.getElem?_map, hc, Option.map_some]
    have hc : p.chunks[j]? = some c := by rw [Array.getElem?_eq_getElem hj, hcj]
    have hsome : (p.slot? (c.base + k)).isSome = true :=
      isSome_slot?_of_extent (hext hc) (Nat.le_add_right _ _) (Nat.add_lt_add_left hk _)
    obtain ⟨i, hi⟩ := Option.isSome_iff_exists.1 (slot?_isSome_iff.1 hsome)
    obtain ⟨d, hd, hle, hlt⟩ := exists_chunk hi
    -- the chunk that is found is this one
    obtain rfl := h.apart i j _ _ _ (hext hd) (hext hc) hle hlt (Nat.le_add_right _ _) (Nat.add_lt_add_left hk _)
    rw [slot?, hi, Option.bind_some, hc, Option.bind_some, Nat.add_sub_cancel_left, hget]

end Laid

/-! ## Requests -/

/-- The slot at an address. -/
def slotAt? (p : SlotPool) (address : Nat) : Option Slot :=
  (p.machine.cell? address).bind p.slot?

/-- What a pool can be asked to do. -/
inductive Request where
  /-- Take a slot; a chunk that this adds begins at the given cell. -/
  | take (base : Ref)
  /-- Give back the slot at an address, if there is one in use. -/
  | giveBack (address : Nat)
  deriving DecidableEq

/-- Do what is asked for. -/
def perform (p : SlotPool) : Request → SlotPool
  | .take base => (p.take base).1
  | .giveBack address => (p.machine.cell? address).elim p p.giveBack

/-- The pool after some requests. -/
def after (p : SlotPool) (requests : List Request) : SlotPool :=
  requests.foldl perform p

/-- Every chunk that some requests add lies apart from the slots there are. -/
def GrowsApart (p : SlotPool) : List Request → Prop
  | [] => True
  | .take base :: requests => p.HasSpaceAt base ∧ (p.perform (.take base)).GrowsApart requests
  | .giveBack address :: requests => (p.perform (.giveBack address)).GrowsApart requests

/-- What every sequence of requests keeps of a pool that began with some limits on some machine. -/
structure Kept (limits : PoolLimits) (machine : Machine) (p : SlotPool) : Prop where
  accounted : p.Accounted
  laid : p.Laid
  setting_eq : p.setting = (SlotPool.ofLimitsOn limits machine).setting

namespace Kept

variable {limits : PoolLimits} {machine : Machine}

theorem start (hlimits : limits.initialSlots * 2 ^ 31 < 2 ^ 64) : Kept limits machine (.ofLimitsOn limits machine) :=
  ⟨.ofLimitsOn limits machine, .ofLimitsOn hlimits machine, rfl⟩

theorem initialSlots_eq (h : Kept limits machine p) : p.initialSlots = max limits.initialSlots 1 :=
  congrArg (·.2.initialSlots) h.setting_eq

theorem maxSlots_eq (h : Kept limits machine p) : p.maxSlots = limits.maxSlots :=
  congrArg (·.2.maxSlots) h.setting_eq

theorem machine_eq (h : Kept limits machine p) : p.machine = machine :=
  congrArg Prod.fst h.setting_eq

theorem take (h : Kept limits machine p) (hspace : p.HasSpaceAt base) : Kept limits machine (p.take base).1 := by
  have hready : Kept limits machine (p.ready base) := by
    unfold ready
    cases hf : p.free with
    | cons r free => exact h
    | nil =>
      exact ⟨h.accounted.grow hf (hspace hf), h.laid.grow (hspace hf), (setting_grow p base).trans h.setting_eq⟩
  have htaken : (p.take base).1.setting = (p.ready base).setting := setting_takeFree (p.ready base)
  have hlaid := hready.laid.of_extents (extents_takeFree _) (capacity_takeFree _) htaken
  exact ⟨hready.accounted.takeFree, hlaid, htaken.trans hready.setting_eq⟩

theorem giveBack (h : Kept limits machine p) (r : Ref) : Kept limits machine (p.giveBack r) :=
  ⟨h.accounted.giveBack r,
    h.laid.of_extents (extents_giveBack p r) (capacity_giveBack p r) (setting_giveBack p r),
    (setting_giveBack p r).trans h.setting_eq⟩

theorem after (h : Kept limits machine p) {requests : List Request} (hapart : p.GrowsApart requests) :
    Kept limits machine (p.after requests) := by
  induction requests generalizing p with
  | nil => exact h
  | cons request requests ih =>
    cases request with
    | take base => exact ih (h.take hapart.1) hapart.2
    | giveBack address =>
      refine ih ?_ hapart
      show Kept limits machine ((p.machine.cell? address).elim p p.giveBack)
      cases p.machine.cell? address with
      | none => exact h
      | some r => exact h.giveBack r

/-- There is no slot to take only when there are all slots or all chunks that there may be. -/
theorem take_eq_none_iff (h : Kept limits machine p) (base : Ref) : (p.take base).2 = none ↔
    p.free = [] ∧ (p.capacity = limits.maxSlots ∨ p.chunks.size = maxSlotChunks) := by
  have hchunks := h.laid.chunks_le
  have hcapacity := h.laid.capacity_le
  have hmost := h.maxSlots_eq
  have hfull : (p.canGrow = true → p.nextChunkSlots = 0) ↔ ¬ p.canGrow = true := by
    constructor
    · intro hzero hgrow
      exact Nat.ne_of_gt (h.laid.nextChunkSlots_pos hgrow) (hzero hgrow)
    · intro hfull hgrow
      exact absurd hgrow hfull
  rw [SlotPool.take_eq_none_iff, hfull]
  refine and_congr_right fun _ => ?_
  simp only [canGrow, Bool.and_eq_true, decide_eq_true_eq]
  omega

/-- The addresses of slots are those that the chunks have. -/
theorem slotAt?_eq_some_iff (h : Kept limits machine p) {address : Nat} : p.slotAt? address = some x ↔
    ∃ c ∈ p.chunks, ∃ i, c.slots[i]? = some x ∧ address = machine.address (c.base + i) := by
  rw [slotAt?, h.machine_eq, Option.bind_eq_some_iff]
  constructor
  · rintro ⟨r, hr, hx⟩
    obtain ⟨c, hc, i, hget, rfl⟩ := h.laid.slot?_eq_some_iff.1 hx
    exact ⟨c, hc, i, hget, machine.cell?_eq_some.1 hr⟩
  · rintro ⟨c, hc, i, hget, rfl⟩
    exact ⟨c.base + i, machine.cell?_address _, h.laid.slot?_eq_some_iff.2 ⟨c, hc, i, hget, rfl⟩⟩

end Kept

theorem Sound.generation_le (h : p.Sound) (hx : p.slot? r = some x) : x.generation ≤ 65533 := by
  have hguard := h.below_guard r x hx
  unfold generationGuard at hguard
  omega

/-- A pool that began with some limits on some machine and was asked to take slots and to give slots back, in any
order and with any addresses, while every chunk it added lay apart from those before.

The free list holds, once each, exactly the slots that are neither in use nor retired. The slots in use and the
retired ones are as many as the pool says, and with the free ones they are all that the chunks have: no more than
there may be. The chunks double in length until that number is reached. A generation is even exactly while the slot
is in use and stays below the guard. No slot can be taken exactly when none is free and there are all the slots or
all the chunks that there may be. An address is that of a slot exactly if it is the beginning of a slot of some
chunk. -/
theorem slots_accounted {limits : PoolLimits} {machine : Machine} (hlimits : limits.initialSlots * 2 ^ 31 < 2 ^ 64)
    {requests : List Request} (hapart : (ofLimitsOn limits machine).GrowsApart requests) :
    let p := (ofLimitsOn limits machine).after requests
    (p.free.Nodup ∧ ∀ r, r ∈ p.free ↔ ∃ x, p.slot? r = some x ∧ x.inUse = false ∧ x.isRetired = false) ∧
    (p.live = (p.cellsWith (·.inUse)).card ∧ p.retired = (p.cellsWith (·.isRetired)).card ∧
      p.live + p.free.length + p.retired = p.capacity) ∧
    (p.capacity = p.lengths.sum ∧ p.capacity ≤ limits.maxSlots ∧ p.chunks.size ≤ maxSlotChunks ∧
      ∀ i n, p.lengths[i]? = some n →
        n = min (max limits.initialSlots 1 * 2 ^ i) (limits.maxSlots - (p.lengths.take i).sum)) ∧
    (∀ r x, p.slot? r = some x → (x.generation % 2 = 0 ↔ x.inUse = true) ∧ x.generation ≤ 65533) ∧
    (∀ base, (p.take base).2 = none ↔
      p.free = [] ∧ (p.capacity = limits.maxSlots ∨ p.chunks.size = maxSlotChunks)) ∧
    ∀ address x, p.slotAt? address = some x ↔
      ∃ c ∈ p.chunks, ∃ i, c.slots[i]? = some x ∧ address = machine.address (c.base + i) := by
  intro p
  have hkept : Kept limits machine p := (Kept.start hlimits).after hapart
  have hsound := hkept.accounted.sound
  refine ⟨⟨hsound.free_nodup, fun r => hkept.accounted.mem_free_iff⟩,
    ⟨hkept.accounted.live_eq, hkept.accounted.retired_eq, hkept.accounted.total⟩,
    ⟨hkept.laid.capacity_eq, ?_, hkept.laid.chunks_le, ?_⟩, fun r x hx => ?_, hkept.take_eq_none_iff,
    fun address x => hkept.slotAt?_eq_some_iff⟩
  · rw [← hkept.maxSlots_eq]
    exact hkept.laid.capacity_le
  · rw [← hkept.initialSlots_eq, ← hkept.maxSlots_eq]
    exact hkept.laid.length_eq
  · exact ⟨hsound.even_iff r x hx, hsound.generation_le hx⟩

/-- Of at most three slots the first chunk has one and the second two. When all are taken there is none to take until
one is given back. -/
theorem slots_accounted_exhausted :
    let p := (ofLimits ⟨1, 3⟩).after [.take 1, .take 5, .take 9]
    let q := p.after [.giveBack (Ref.address 5)]
    p.lengths = [1, 2] ∧ (p.take 9).2 = none ∧ q.free = [5] ∧ (q.take 9).2 = some 5 := by
  intro p q
  have hapart : (ofLimits ⟨1, 3⟩).GrowsApart [.take 1, .take 5, .take 9] := by
    refine ⟨?_, ?_, ?_, trivial⟩
    all_goals
      unfold HasSpaceAt
      decide +kernel
  obtain ⟨-, -, -, -, htake, -⟩ := slots_accounted (by decide) hapart
  refine ⟨by decide +kernel, (htake 9).2 ?_, by decide +kernel, by decide +kernel⟩
  decide +kernel

end SlotPool

end Reclamation
