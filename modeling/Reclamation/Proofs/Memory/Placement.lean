import Mathlib
import Reclamation.Proofs.Memory.Tracing

/-!
# Allocating objects

An allocation puts an object into a cell that holds none and changes no other cell (`Born`). Nothing
can refer to the new object yet and it refers to nothing, so its count of one is right as soon as the
one who asked for it is on the ledger (`Settled.born`).

On the heap the cell is a new one. In the slot pool it is the cell of a slot that is not in use, and
that such a cell holds no object is what `Housed` says.
-/

set_option autoImplicit false

namespace Reclamation

/-! ## Taking a slot -/

namespace SlotPool

variable {p : SlotPool} {base r s : Ref}

/-- The pool when it has a slot to give, if it can have one. -/
def ready (p : SlotPool) (base : Ref) : SlotPool :=
  if p.free.isEmpty then p.grow base else p

theorem slot?_ready (hnew : ∀ r ∈ List.range' base p.nextChunkSlots, p.slot? r = none) (s : Ref) :
    (p.ready base).slot? s =
      if p.free = [] ∧ p.canGrow = true ∧ s ∈ List.range' base p.nextChunkSlots then some {}
      else p.slot? s := by
  unfold ready
  cases hf : p.free with
  | cons r free => simp
  | nil => simpa using slot?_grow p base s hnew

theorem Sound.ready (h : Sound p)
    (hnew : ∀ r ∈ List.range' base p.nextChunkSlots, p.slot? r = none) : Sound (p.ready base) := by
  unfold SlotPool.ready
  cases hf : p.free with
  | cons r free => exact h
  | nil => exact h.grow hf hnew

/-- The slot that is taken was not in use. -/
theorem Sound.slot?_take (h : Sound p)
    (hnew : ∀ r ∈ List.range' base p.nextChunkSlots, p.slot? r = none)
    (ht : (p.take base).2 = some r) : ∃ x, (p.ready base).slot? r = some x ∧ x.inUse = false ∧
      ∀ s, (p.take base).1.slot? s =
        if s = r then some ⟨x.generation + 1, true⟩ else (p.ready base).slot? s := by
  have ht' : (p.ready base).takeFree.2 = some r := ht
  have hmem : r ∈ (p.ready base).free := by
    rw [free_takeFree ht']
    exact List.mem_cons_self
  obtain ⟨x, hx, huse, -⟩ := (h.ready hnew).free_slot r hmem
  exact ⟨x, hx, huse, slot?_takeFree_of_some ht' hx⟩

/-- A pool that has no slot to give has at most tried to grow. -/
theorem take_eq_ready (ht : (p.take base).2 = none) : (p.take base).1 = p.ready base :=
  takeFree_of_none (p := p.ready base) ht

/-- A pool that has no slot to give keeps the slots it has. -/
theorem slot?_take_none (ht : (p.take base).2 = none) (s : Ref) :
    (p.take base).1.slot? s = p.slot? s := by
  obtain ⟨hf, hgrow⟩ := (take_eq_none_iff p base).1 ht
  rw [take_eq_ready ht]
  unfold ready
  rw [hf]
  by_cases hg : p.canGrow = true
  · have hempty : p.nextChunkSlots = 0 := hgrow hg
    refine (slot?_grow p base s (by simp [hempty])).trans ?_
    simp [hempty]
  · simp [grow, hg]

theorem live_updateSlot (p : SlotPool) (r : Ref) (f : Slot → Slot) : (p.updateSlot r f).live = p.live := by
  unfold updateSlot
  split <;> rfl

theorem live_ready (p : SlotPool) (base : Ref) : (p.ready base).live = p.live := by
  unfold ready grow
  split
  · split <;> rfl
  · rfl

theorem live_take_none (ht : (p.take base).2 = none) : (p.take base).1.live = p.live := by
  rw [take_eq_ready ht, live_ready]

theorem live_takeFree (h : p.takeFree.2 = some r) : p.takeFree.1.live = p.live + 1 := by
  unfold takeFree at h ⊢
  cases hf : p.free with
  | nil => simp [hf] at h
  | cons s free => exact live_updateSlot _ s _

/-- A slot that is taken is one more in use. -/
theorem live_take (ht : (p.take base).2 = some r) : (p.take base).1.live = p.live + 1 :=
  (live_takeFree (p := p.ready base) ht).trans (by rw [live_ready])

/-- A slot that is given back is one less in use. -/
theorem live_giveBack {x : Slot} (hx : p.slot? r = some x) (huse : x.inUse = true) :
    (p.giveBack r).live = p.live - 1 := by
  obtain ⟨generation, inUse⟩ := x
  obtain rfl : inUse = true := huse
  unfold giveBack
  rw [hx]
  dsimp only
  split
  · rw [live_updateSlot]
  · rw [live_updateSlot]

theorem le_foldl_max : ∀ (chunks : List SlotChunk) (n : Nat),
    n ≤ chunks.foldl (fun n c => max n (c.base + c.slots.size)) n := by
  intro chunks
  induction chunks with
  | nil => exact fun n => Nat.le_refl n
  | cons c chunks ih => exact fun n => Nat.le_trans (Nat.le_max_left _ _) (ih _)

theorem end_le_foldl_max {c : SlotChunk} : ∀ (chunks : List SlotChunk) (n : Nat), c ∈ chunks →
    c.base + c.slots.size ≤ chunks.foldl (fun n c => max n (c.base + c.slots.size)) n := by
  intro chunks
  induction chunks with
  | nil => exact fun n hc => absurd hc (by simp)
  | cons d chunks ih =>
    intro n hc
    rw [List.foldl_cons]
    rcases List.mem_cons.1 hc with rfl | hc
    · exact Nat.le_trans (Nat.le_max_right _ _) (le_foldl_max chunks _)
    · exact ih _ hc

/-- All slots lie in front of the limit. -/
theorem lt_limit {x : Slot} (hx : p.slot? r = some x) : r < p.limit := by
  have hsome : (p.chunkIndex? r).isSome = true := slot?_isSome_iff.1 (by rw [hx]; rfl)
  obtain ⟨i, hi⟩ := Option.isSome_iff_exists.1 hsome
  obtain ⟨c, hc, -, hlt⟩ := exists_chunk hi
  have hmem : c ∈ p.chunks.toList := Array.mem_toList_iff.2 (Array.mem_of_getElem? hc)
  have hle := end_le_foldl_max p.chunks.toList 0 hmem
  rw [limit, ← Array.foldl_toList]
  exact Nat.lt_of_lt_of_le hlt hle

end SlotPool

/-! ## A new object -/

/-- An object that is asked for refers to nothing. -/
def ObjectSpec.IsBlank (spec : ObjectSpec) : Prop :=
  ∀ fields, spec.payload = .record fields → ∀ f ∈ fields, f.target = none

theorem ObjectSpec.isBlank_ofFlags (tag : TypeTag) (weak : List Bool) (shared symmetric : Bool) :
    ObjectSpec.IsBlank { tag, payload := .ofFlags weak, shared, symmetric } := by
  intro fields he f hf
  obtain rfl := Payload.record.inj he
  obtain ⟨w, -, rfl⟩ := List.mem_map.1 hf
  rfl

theorem Memory.isBlank_of_spec {m : Memory} {tag : TypeTag} {spec : ObjectSpec}
    (h : m.spec tag = .ok spec) : spec.IsBlank := by
  unfold Memory.spec at h
  cases hl : m.layout tag with
  | error fault =>
    rw [hl] at h
    exact absurd h (by simp [Except.map])
  | ok layout =>
    rw [hl] at h
    rw [← Except.ok.inj h]
    exact ObjectSpec.isBlank_ofFlags tag layout.weakFlags false false

namespace Object

variable {o : Object}

theorem target_of_isBlank (h : o.toObjectSpec.IsBlank) {f : RefField} (hf : f ∈ o.fields) :
    f.target = none := by
  unfold fields at hf
  split at hf
  · next fields hp => exact h fields hp f hf
  · exact absurd hf (by simp)
  · exact absurd hf (by simp)

theorem strongTargets_of_isBlank (h : o.toObjectSpec.IsBlank) : o.strongTargets = [] := by
  refine List.filterMap_eq_nil_iff.2 fun f hf => ?_
  rw [target_of_isBlank h hf]
  simp

theorem weakTarget?_of_isBlank (h : o.toObjectSpec.IsBlank) (i : Nat) : o.weakTarget? i = none := by
  unfold weakTarget?
  cases hf : o.fields[i]? with
  | none => rfl
  | some f =>
    rw [Option.bind_some, target_of_isBlank h (List.mem_of_getElem? hf)]
    simp

end Object

namespace Memory

variable {m m' : Memory} {outer : Multiset Ref} {r : Ref} {o : Object} {spec : ObjectSpec}

/-- An object is new in a cell that held none, and all others are the same. -/
structure Born (r : Ref) (o : Object) (m m' : Memory) : Prop where
  free : m.object? r = none
  object : ∀ x, m'.object? x = if x = r then some o else m.object? x
  components : m'.components = m.components
  blank : o.toObjectSpec.IsBlank
  count : o.count = 1
  internal : o.internal = 0
  component : o.component = none

namespace Born

theorem object_of_some (h : Born r o m m') {x : Ref} {o' : Object} (ho : m.object? x = some o') :
    m'.object? x = some o' := by
  rw [h.object, if_neg, ho]
  rintro rfl
  rw [h.free] at ho
  exact absurd ho (by simp)

theorem strongTargets (h : Born r o m m') (x : Ref) : m'.strongTargets x = m.strongTargets x := by
  unfold Memory.strongTargets
  rw [h.object]
  split
  · next e =>
    rw [e, h.free]
    exact Object.strongTargets_of_isBlank h.blank
  · rfl

theorem weakTarget? (h : Born r o m m') (x : Ref) (i : Nat) :
    m'.weakTarget? x i = m.weakTarget? x i := by
  unfold Memory.weakTarget?
  rw [h.object]
  split
  · next e =>
    rw [e, h.free]
    exact Object.weakTarget?_of_isBlank h.blank i
  · rfl

theorem isLive (h : Born r o m m') {x : Ref} (hx : m.isLive x = true) : m'.isLive x = true := by
  obtain ⟨o', ho'⟩ := isLive_iff.1 hx
  exact isLive_of_object? (h.object_of_some ho')

theorem isLive_self (h : Born r o m m') : m'.isLive r = true :=
  isLive_of_object? (by rw [h.object, if_pos rfl])

theorem wired (h : Born r o m m') (hw : m.Wired) (hlist : m'.referrers = m.referrers) : m'.Wired :=
  hw.of_weakTargets hlist h.weakTarget? fun _ => h.isLive

end Born

/-- An object is the new one or one that was there before. -/
theorem Born.object_cases (h : Born r o m m') {x : Ref} {o' : Object} (ho' : m'.object? x = some o') :
    (x = r ∧ o' = o) ∨ (x ≠ r ∧ m.object? x = some o') := by
  rw [h.object] at ho'
  split at ho'
  · next e => exact .inl ⟨e, (Option.some.inj ho').symm⟩
  · next e => exact .inr ⟨e, ho'⟩

theorem Born.ne_of_isLive (h : Born r o m m') {x : Ref} (hx : m.isLive x = true) : x ≠ r := by
  rintro rfl
  obtain ⟨o', ho'⟩ := isLive_iff.1 hx
  rw [h.free] at ho'
  exact absurd ho' (by simp)

theorem Born.references (h : Born r o m m') : m'.references = m.references :=
  references_congr h.strongTargets

/-- Nothing refers to an object before it is there. -/
theorem Born.count_eq_zero (h : Born r o m m') (hb : Balanced { memory := m } outer 0) :
    outer.count r = 0 ∧ m.references.count r = 0 := by
  refine ⟨Multiset.count_eq_zero.2 fun hr => ?_, Multiset.count_eq_zero.2 fun hr => ?_⟩
  · exact h.ne_of_isLive (hb.ledger_live r (by simpa using hr)) rfl
  · obtain ⟨y, hy⟩ := mem_references.1 hr
    exact h.ne_of_isLive (hb.targets_live y r hy) rfl

theorem Born.count_self (h : Born r o m m') (hb : Balanced { memory := m } outer 0) :
    (r ::ₘ outer + 0 + m'.references).count r = 1 := by
  obtain ⟨houter, hrefs⟩ := h.count_eq_zero hb
  rw [h.references]
  simp [houter, hrefs]

theorem Born.count_other (h : Born r o m m') {x : Ref} (hx : x ≠ r) :
    (r ::ₘ outer + 0 + m'.references).count x = (outer + 0 + m.references).count x := by
  rw [h.references]
  simp [hx]

/-- The count of a new object is right: one reference is held. -/
theorem Born.balanced (h : Born r o m m') (hb : Balanced { memory := m } outer 0) (htidy : m'.Tidy) :
    Balanced { memory := m' } (r ::ₘ outer) 0 where
  tidy := htidy
  targets_live y x hx := by
    rw [h.strongTargets] at hx
    exact h.isLive (hb.targets_live y x hx)
  ledger_live x hx := by
    rw [add_zero] at hx
    rcases Multiset.mem_cons.1 hx with rfl | hx
    · exact h.isLive_self
    · exact h.isLive (hb.ledger_live x (by simpa using hx))
  plain x o' ho' hs hc _ := by
    rcases h.object_cases ho' with ⟨rfl, rfl⟩ | ⟨hx, ho⟩
    · rw [h.count_self hb, h.count]
      rfl
    · rw [h.count_other hx]
      exact hb.plain x o' ho hs hc (by simp)
  plain_due x o' ho' hs hc := by
    rcases h.object_cases ho' with ⟨rfl, rfl⟩ | ⟨hx, ho⟩
    · rw [h.count_self hb]
      simp
    · rw [h.count_other hx]
      exact hb.plain_due x o' ho hs hc
  symmetric x o' ho' hs := by
    rcases h.object_cases ho' with ⟨rfl, rfl⟩ | ⟨hx, ho⟩
    · obtain ⟨houter, hrefs⟩ := h.count_eq_zero hb
      refine ⟨h.component, ?_, ?_⟩
      · rw [h.count, Multiset.count_cons_self, houter]
        rfl
      · rw [h.internal, h.references, zero_add, hrefs]
        rfl
    · rw [h.references, Multiset.count_cons_of_ne hx]
      exact hb.symmetric x o' ho hs
  member x o' id ho' hc := by
    rcases h.object_cases ho' with ⟨rfl, rfl⟩ | ⟨-, ho⟩
    · rw [h.component] at hc
      exact absurd hc (by simp)
    · obtain ⟨e, he, hx⟩ := hb.member x o' id ho hc
      exact ⟨e, by rw [h.components]; exact he, hx⟩
  component id e he := by
    refine (hb.component id e (h.components ▸ he)).of_members fun x hx o' ho' _ => ?_
    exact ⟨o', h.object_of_some ho', rfl, rfl, rfl, rfl⟩
  external id e he := by
    have he' := h.components ▸ he
    rw [hb.external id e he', referencesOutside_congr h.strongTargets]
    refine countP_mem_congr fun x hx => ?_
    obtain ⟨o', ho', -⟩ := (hb.component id e he').frozen x hx
    simp [h.ne_of_isLive (isLive_of_object? ho')]
  external_due id e he := hb.external_due id e (h.components ▸ he)
  work_nodup := List.nodup_nil
  work_object := by simp
  work_component := by simp
  candidates := by simp
  stale := rfl

/-- A new object is held by the one who asked for it, and by nobody else. -/
theorem Settled.born (h : m.Settled outer) (hborn : Born r o m m') (htidy : m'.Tidy) :
    m'.Settled (r ::ₘ outer) := by
  refine ⟨hborn.balanced h.balanced htidy, h.traced.mono (fun a ha _ => ha)
    (fun y a ha => .inl (by rw [hborn.strongTargets]; exact ha)) fun a ha => .inl ?_⟩
  obtain ⟨o', ho', hs, hc⟩ := isUnowned_iff.1 ha
  rcases hborn.object_cases ho' with ⟨rfl, rfl⟩ | ⟨-, ho⟩
  · rw [hborn.count] at hc
    exact absurd hc (by decide)
  · exact isUnowned_iff.2 ⟨o', ho, hs, hc⟩

/-! ## On the heap -/

theorem object?_place (m : Memory) (o : Object) (x : Ref) :
    (m.place o).1.object? x = if x = (m.place o).2 then some o else m.object? x := by
  unfold object? place
  dsimp only
  rw [Array.getElem?_push]
  split <;> rfl

theorem object?_size (m : Memory) : m.object? m.cells.size = none := by
  unfold object?
  simp

theorem Born.allocate (m : Memory) (hspec : spec.IsBlank) :
    Born (m.allocate spec).2 { spec with } m (m.allocate spec).1 where
  free := m.object?_size
  object := m.countAllocation.object?_place { spec with }
  components := rfl
  blank := hspec
  count := rfl
  internal := rfl
  component := rfl

theorem Housed.allocate (h : m.Housed) (hspec : spec.IsBlank) : (m.allocate spec).1.Housed := by
  have hborn := Born.allocate m hspec
  have hslot : ∀ y x, m.pool.slot? y = some x → y ≠ (m.allocate spec).2 := fun y x hx =>
    Nat.ne_of_lt (h.slot_lt y x hx)
  refine ⟨h.pool, fun y => ?_, fun y x hx => ?_, fun y x o' hx ho' => ?_⟩
  · show m.pool.isInUse y = true ↔ _
    rw [h.inUse_iff]
    constructor
    · rintro ⟨o', ho', hor⟩
      exact ⟨o', hborn.object_of_some ho', hor⟩
    · rintro ⟨o', ho', hor⟩
      rw [hborn.object] at ho'
      split at ho'
      · rw [← Option.some.inj ho'] at hor
        exact absurd hor (by simp)
      · exact ⟨o', ho', hor⟩
  · have hlt := h.slot_lt y x hx
    have hsize : (m.allocate spec).1.cells.size = m.cells.size + 1 := Array.size_push _
    rw [hsize]
    exact Nat.lt_succ_of_lt hlt
  · rw [hborn.object, if_neg (hslot y x hx)] at ho'
    exact h.slot_only y x o' hx ho'

theorem Tidy.allocate (h : m.Tidy) (hspec : spec.IsBlank) : (m.allocate spec).1.Tidy where
  wired := (Born.allocate m hspec).wired h.wired rfl
  housed := h.housed.allocate hspec
  registry := h.registry
  no_arena x o' ho' := by
    rw [(Born.allocate m hspec).object] at ho'
    split at ho'
    · rw [← Option.some.inj ho']
      rfl
    · exact h.no_arena x o' ho'

theorem Settled.allocate (h : m.Settled outer) (hspec : spec.IsBlank) :
    (m.allocate spec).1.Settled ((m.allocate spec).2 ::ₘ outer) :=
  h.born (.allocate m hspec) (h.balanced.tidy.allocate hspec)

/-! ## In the slot pool -/

/-- An object in the cell of a slot that was taken. -/
def fillSlot (m : Memory) (pool : SlotPool) (r : Ref) (spec : ObjectSpec) : Memory :=
  let cells := m.cells ++ Array.replicate (pool.limit - m.cells.size) none
  let generation := (pool.slot? r).elim 0 (·.generation)
  let o : Object := { spec with origin := .slot, generation }
  { m with pool, cells := cells.setIfInBounds r (some o) }.countAllocation

/-- What an allocation in the slot pool comes to. -/
theorem allocateSlot_cases (m : Memory) (spec : ObjectSpec) :
    m.allocateSlot spec = .outOfMemory ∨
    (∃ fault, (m.pool.take (m.cells.size + 1)).2 = none ∧
      m.allocateSlot spec = .refused { m with pool := (m.pool.take (m.cells.size + 1)).1 } fault) ∨
    ∃ r, (m.pool.take (m.cells.size + 1)).2 = some r ∧
      m.allocateSlot spec = .done (m.fillSlot (m.pool.take (m.cells.size + 1)).1 r spec) r := by
  unfold allocateSlot
  split
  · exact .inl rfl
  · dsimp only
    cases ht : (m.pool.take (m.cells.size + 1)).2 with
    | none => exact .inr (.inl ⟨_, rfl, rfl⟩)
    | some r => exact .inr (.inr ⟨r, rfl, rfl⟩)

/-- The cells of the next chunk are no slots yet. -/
theorem Housed.slot?_next (h : m.Housed) :
    ∀ r ∈ List.range' (m.cells.size + 1) m.pool.nextChunkSlots, m.pool.slot? r = none := by
  intro r hr
  rw [Option.eq_none_iff_forall_ne_some]
  intro x hx
  have hlt := h.slot_lt r x hx
  have hle : m.cells.size + 1 ≤ r := (List.mem_range'_1.1 hr).1
  exact absurd hle (Nat.not_le.2 (Nat.lt_succ_of_lt hlt))

/-- Where the slot that is taken comes from: it was free, or it is new and behind all cells. -/
theorem Housed.slot?_ready (h : m.Housed) (s : Ref) (x : Slot)
    (hx : (m.pool.ready (m.cells.size + 1)).slot? s = some x) :
    m.pool.slot? s = some x ∨ (x.inUse = false ∧ m.cells.size < s) := by
  rw [SlotPool.slot?_ready h.slot?_next] at hx
  split at hx
  · next hs =>
    refine .inr ⟨?_, (List.mem_range'_1.1 hs.2.2).1⟩
    rw [← Option.some.inj hx]
  · exact .inl hx

theorem object?_of_size_le {x : Ref} (hx : m.cells.size ≤ x) : m.object? x = none := by
  unfold object?
  rw [Array.getElem?_eq_none hx]
  rfl

theorem Housed.object?_of_take (h : m.Housed)
    (ht : (m.pool.take (m.cells.size + 1)).2 = some r) : m.object? r = none := by
  obtain ⟨x, hx, huse, -⟩ := h.pool.slot?_take h.slot?_next ht
  rcases h.slot?_ready r x hx with hold | ⟨-, hlt⟩
  · -- an object in the cell of a slot is one of the pool, so its slot is in use
    rw [Option.eq_none_iff_forall_ne_some]
    intro o ho
    have hin := (h.inUse_iff r).2 ⟨o, ho, h.slot_only r x o hold ho⟩
    obtain ⟨y, hy, hyuse⟩ := isInUse_iff_slot?.1 hin
    obtain rfl := Option.some.inj (hold.symm.trans hy)
    rw [huse] at hyuse
    exact absurd hyuse (by decide)
  · exact object?_of_size_le (Nat.le_of_lt hlt)

theorem size_fillSlot (m : Memory) (pool : SlotPool) (r : Ref) (spec : ObjectSpec) :
    (m.fillSlot pool r spec).cells.size = max m.cells.size pool.limit := by
  have hsize : (m.fillSlot pool r spec).cells.size = m.cells.size + (pool.limit - m.cells.size) := by
    simp [fillSlot, countAllocation]
  rw [hsize]
  exact add_tsub_eq_max

theorem object?_fillSlot {pool : SlotPool} (hr : r < pool.limit) (x : Ref) :
    (m.fillSlot pool r spec).object? x =
      if x = r then some { spec with
        origin := .slot, generation := (pool.slot? r).elim 0 (·.generation) }
      else m.object? x := by
  have hlt : r < (m.cells ++ Array.replicate (pool.limit - m.cells.size) (none : Option Object)).size :=
    Nat.lt_of_lt_of_le hr (by rw [Array.size_append, Array.size_replicate]; exact le_add_tsub)
  unfold fillSlot countAllocation object?
  dsimp only
  rw [Array.getElem?_setIfInBounds]
  by_cases hx : r = x
  · subst hx
    rw [if_pos rfl, if_pos hlt, if_pos rfl]
    rfl
  · rw [if_neg hx, if_neg (Ne.symm hx)]
    by_cases hsize : x < m.cells.size
    · rw [Array.getElem?_append_left hsize]
    · rw [Array.getElem?_eq_none (Nat.le_of_not_lt hsize),
        Array.getElem?_append_right (Nat.le_of_not_lt hsize), Array.getElem?_replicate]
      split <;> rfl

theorem Born.fillSlot (h : m.Housed) (hspec : spec.IsBlank)
    (ht : (m.pool.take (m.cells.size + 1)).2 = some r) : ∃ o : Object, o.origin = .slot ∧
      o.symmetric = spec.symmetric ∧
        Born r o m (m.fillSlot (m.pool.take (m.cells.size + 1)).1 r spec) := by
  obtain ⟨x, hx, huse, hslot⟩ := h.pool.slot?_take h.slot?_next ht
  have hlt : r < (m.pool.take (m.cells.size + 1)).1.limit :=
    SlotPool.lt_limit (by rw [hslot, if_pos rfl])
  exact ⟨_, rfl, rfl, h.object?_of_take ht, object?_fillSlot hlt, rfl, hspec, rfl, rfl, rfl⟩

theorem Housed.fillSlot (h : m.Housed) (hspec : spec.IsBlank)
    (ht : (m.pool.take (m.cells.size + 1)).2 = some r) :
    (m.fillSlot (m.pool.take (m.cells.size + 1)).1 r spec).Housed := by
  obtain ⟨o, hslotted, -, hborn⟩ := Born.fillSlot h hspec ht
  obtain ⟨x, hx, huse, hslot⟩ := h.pool.slot?_take h.slot?_next ht
  have hsound : (m.pool.take (m.cells.size + 1)).1.Sound :=
    h.pool.take fun _ _ => h.slot?_next
  refine ⟨hsound, fun y => ?_, fun y z hz => ?_, fun y z o' hz ho' => ?_⟩
  · show (m.pool.take (m.cells.size + 1)).1.isInUse y = true ↔ _
    rw [hborn.object, isInUse_iff_slot?, hslot]
    by_cases hy : y = r
    · simp only [hy, ↓reduceIte, Option.some.injEq, exists_eq_left', true_iff]
      exact hslotted
    · simp only [hy, ↓reduceIte]
      rw [← h.inUse_iff, isInUse_iff_slot?]
      refine exists_congr fun z => and_congr_left fun hz => ⟨fun hr => ?_, fun hz' => ?_⟩
      · rcases h.slot?_ready y z hr with hold | ⟨hnot, -⟩
        · exact hold
        · rw [hz] at hnot
          exact absurd hnot (by decide)
      · rw [SlotPool.slot?_ready h.slot?_next, if_neg, hz']
        rintro ⟨-, -, hin⟩
        rw [h.slot?_next y hin] at hz'
        exact absurd hz' (by simp)
  · rw [size_fillSlot]
    exact Nat.lt_of_lt_of_le (SlotPool.lt_limit hz) (Nat.le_max_right _ _)
  · rw [hborn.object] at ho'
    split at ho'
    · rw [← Option.some.inj ho']
      exact hslotted
    · next hy =>
      have hz' : (m.pool.take (m.cells.size + 1)).1.slot? y = some z := hz
      rw [hslot, if_neg hy] at hz'
      rcases h.slot?_ready y z hz' with hold | ⟨-, hlt⟩
      · exact h.slot_only y z o' hold ho'
      · rw [object?_of_size_le (Nat.le_of_lt hlt)] at ho'
        exact absurd ho' (by simp)

theorem Tidy.fillSlot (h : m.Tidy) (hspec : spec.IsBlank)
    (ht : (m.pool.take (m.cells.size + 1)).2 = some r) :
    (m.fillSlot (m.pool.take (m.cells.size + 1)).1 r spec).Tidy := by
  obtain ⟨o, hslotted, -, hborn⟩ := Born.fillSlot h.housed hspec ht
  refine ⟨hborn.wired h.wired rfl, h.housed.fillSlot hspec ht, h.registry, fun x o' ho' => ?_⟩
  rw [hborn.object] at ho'
  split at ho'
  · rw [← Option.some.inj ho', Object.arena?, hslotted]
  · exact h.no_arena x o' ho'

/-- An allocation in the slot pool, as far as the objects go. -/
theorem Settled.fillSlot (h : m.Settled outer) (hspec : spec.IsBlank)
    (ht : (m.pool.take (m.cells.size + 1)).2 = some r) :
    (m.fillSlot (m.pool.take (m.cells.size + 1)).1 r spec).Settled (r ::ₘ outer) := by
  have htidy := h.balanced.tidy
  obtain ⟨o, -, -, hborn⟩ := Born.fillSlot htidy.housed hspec ht
  exact h.born hborn (htidy.fillSlot hspec ht)

/-- A pool that is exhausted has not changed as far as slots go. -/
theorem Settled.exhausted (h : m.Settled outer)
    (ht : (m.pool.take (m.cells.size + 1)).2 = none) :
    ({ m with pool := (m.pool.take (m.cells.size + 1)).1 } : Memory).Settled outer := by
  have hslot := SlotPool.slot?_take_none ht
  have hhoused := h.balanced.tidy.housed
  refine h.of_objects (fun _ => rfl) rfl ⟨⟨h.balanced.tidy.wired.listed, h.balanced.tidy.wired.live⟩, ?_,
    h.balanced.tidy.registry, h.balanced.tidy.no_arena⟩
  refine ⟨hhoused.pool.take fun _ _ => hhoused.slot?_next, fun y => ?_, fun y x hx => ?_,
    fun y x o hx ho => ?_⟩
  · show (m.pool.take (m.cells.size + 1)).1.isInUse y = true ↔ _
    rw [isInUse_iff_slot?, hslot, ← isInUse_iff_slot?]
    exact hhoused.inUse_iff y
  · exact hhoused.slot_lt y x (hslot y ▸ hx)
  · exact hhoused.slot_only y x o (hslot y ▸ hx) ho

/-- Slots that are in use are not taken. -/
theorem Housed.slot?_fillSlot (h : m.Housed)
    (ht : (m.pool.take (m.cells.size + 1)).2 = some r) {y : Ref} {x : Slot}
    (hx : m.pool.slot? y = some x) :
    (m.pool.take (m.cells.size + 1)).1.slot? y = some x ∨
      (x.inUse = false ∧
        (m.pool.take (m.cells.size + 1)).1.slot? y = some ⟨x.generation + 1, true⟩) := by
  obtain ⟨z, hz, huse, hslot⟩ := h.pool.slot?_take h.slot?_next ht
  have hready : (m.pool.ready (m.cells.size + 1)).slot? y = some x := by
    rw [SlotPool.slot?_ready h.slot?_next, if_neg, hx]
    rintro ⟨-, -, hin⟩
    rw [h.slot?_next y hin] at hx
    exact absurd hx (by simp)
  rw [hslot]
  split
  · next hy =>
    obtain rfl := Option.some.inj (hready.symm.trans (hy ▸ hz))
    exact .inr ⟨huse, rfl⟩
  · exact .inl hready

end Memory

end Reclamation
