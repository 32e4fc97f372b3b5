import Mathlib
import Reclamation.Proofs.Memory.ComponentRegistry
import Reclamation.Proofs.Memory.SlotPool
import Reclamation.Proofs.Memory.WeakFields

/-!
# Where objects are

Cells are used in two ways. A cell that is not a slot is given out once, the one behind all others; a
slot is given out by the pool again and again. `Housed` says that the two do not get into each other's
way: slots are cells, a slot in use is a cell that holds an object of the pool, and a slot that is not
in use is an empty cell. So an allocation never lands on an object.

`Without` is what becomes of memory when some objects are taken out: they are gone, the others are the
same but for weak fields to what is gone, and the slots of what is gone are given back. It is the only
thing about removal that the counting of references has to know.
-/

set_option autoImplicit false

namespace Reclamation

namespace Memory

variable {m m' : Memory} {r s : Ref} {o : Object}

/-! ## Slots and cells -/

/-- The pool and the cells agree on where its objects are. -/
structure Housed (m : Memory) : Prop where
  pool : m.pool.Sound
  inUse_iff : ∀ r, m.pool.isInUse r = true ↔ ∃ o, m.object? r = some o ∧ o.origin = .slot
  slot_lt : ∀ r x, m.pool.slot? r = some x → r < m.cells.size
  slot_only : ∀ r x o, m.pool.slot? r = some x → m.object? r = some o → o.origin = .slot

theorem isInUse_iff_slot? {p : SlotPool} :
    p.isInUse r = true ↔ ∃ x, p.slot? r = some x ∧ x.inUse = true := by
  simp [SlotPool.isInUse, Option.any_eq_true]

theorem Housed.of_origins (h : Housed m) (hpool : m'.pool = m.pool)
    (hsize : m'.cells.size = m.cells.size)
    (horigin : ∀ r, (m'.object? r).map (·.origin) = (m.object? r).map (·.origin)) : Housed m' := by
  have hone : ∀ {m m' : Memory} {r : Ref} {o' : Object},
      (m'.object? r).map (·.origin) = (m.object? r).map (·.origin) → m'.object? r = some o' →
        ∃ o, m.object? r = some o ∧ o.origin = o'.origin := by
    intro m m' r o' horigin ho'
    rw [ho', Option.map_some] at horigin
    exact Option.map_eq_some_iff.1 horigin.symm
  refine ⟨hpool ▸ h.pool, fun r => ?_, fun r x hx => ?_, fun r x o' hx ho' => ?_⟩
  · rw [hpool, h.inUse_iff]
    constructor
    · rintro ⟨o, ho, hslot⟩
      obtain ⟨o', ho', he⟩ := hone (horigin r).symm ho
      exact ⟨o', ho', he.trans hslot⟩
    · rintro ⟨o', ho', hslot⟩
      obtain ⟨o, ho, he⟩ := hone (horigin r) ho'
      exact ⟨o, ho, he.trans hslot⟩
  · rw [hsize]
    exact h.slot_lt r x (hpool ▸ hx)
  · obtain ⟨o, ho, he⟩ := hone (horigin r) ho'
    exact he ▸ h.slot_only r x o (hpool ▸ hx) ho

theorem origin_update (m : Memory) (r s : Ref) {f : Object → Object} (hf : ∀ o, (f o).origin = o.origin) :
    ((m.update r f).object? s).map (·.origin) = (m.object? s).map (·.origin) := by
  rw [object?_update]
  split
  · next e =>
    subst e
    cases m.object? s <;> simp [hf]
  · rfl

theorem Housed.update (h : Housed m) (r : Ref) {f : Object → Object}
    (hf : ∀ o, (f o).origin = o.origin) : Housed (m.update r f) :=
  h.of_origins rfl (size_cells_update m r f) fun s => origin_update m r s hf

theorem Housed.remove (h : Housed m) (hw : Wired m) (hr : m.isLive r = true) :
    Housed (m.remove r) := by
  obtain ⟨o, ho⟩ := isLive_iff.1 hr
  have hpool := pool_remove ho
  have hobject : ∀ s o', (m.remove r).object? s = some o' →
      s ≠ r ∧ ∃ o, m.object? s = some o ∧ o.origin = o'.origin := by
    intro s o' ho'
    rw [object?_remove hw hr] at ho'
    split at ho'
    · exact absurd ho' (by simp)
    · next hs =>
      obtain ⟨o, ho, he⟩ := Option.map_eq_some_iff.1 ho'
      exact ⟨hs, o, ho, by rw [← he]; rfl⟩
  have hobject' : ∀ s o, s ≠ r → m.object? s = some o →
      ∃ o', (m.remove r).object? s = some o' ∧ o'.origin = o.origin := by
    intro s o hs ho
    exact ⟨o.forget r, by rw [object?_remove hw hr, if_neg hs, ho]; rfl, rfl⟩
  have hslot : ∀ s, ((m.remove r).pool.slot? s).isSome = (m.pool.slot? s).isSome := by
    intro s
    rw [hpool]
    split
    · rw [SlotPool.slot?_giveBack]
      split
      · next e => rw [e.1]; simp
      · rfl
    · rfl
  refine ⟨?_, fun s => ?_, fun s x hx => ?_, fun s x o' hx ho' => ?_⟩
  · rw [hpool]
    split
    · exact h.pool.giveBack r
    · exact h.pool
  · -- the object's slot, if it has one, is the only one that is no longer in use
    have hin : (m.remove r).pool.isInUse s = true ↔ s ≠ r ∧ m.pool.isInUse s = true := by
      rw [hpool]
      by_cases hs : s = r
      · subst hs
        simp only [ne_eq, not_true_eq_false, false_and, iff_false]
        split
        · next hor =>
          have huse := (h.inUse_iff s).2 ⟨o, ho, hor⟩
          obtain ⟨x, hx, hxuse⟩ := isInUse_iff_slot?.1 huse
          simp [SlotPool.isInUse, SlotPool.slot?_giveBack, hx, hxuse]
        · next hor =>
          rw [h.inUse_iff]
          rintro ⟨o', ho', hor'⟩
          obtain rfl := Option.some.inj (ho.symm.trans ho')
          exact hor hor'
      · simp only [ne_eq, hs, not_false_eq_true, true_and]
        split
        · simp [SlotPool.isInUse, SlotPool.slot?_giveBack, hs]
        · exact Iff.rfl
    rw [hin, h.inUse_iff]
    constructor
    · rintro ⟨hs, o, ho, hor⟩
      obtain ⟨o', ho', he⟩ := hobject' s o hs ho
      exact ⟨o', ho', he.trans hor⟩
    · rintro ⟨o', ho', hor⟩
      obtain ⟨hs, o, ho, he⟩ := hobject s o' ho'
      exact ⟨hs, o, ho, he.trans hor⟩
  · have : (m.pool.slot? s).isSome = true := by rw [← hslot, hx]; rfl
    obtain ⟨y, hy⟩ := Option.isSome_iff_exists.1 this
    rw [(Aside.remove m r).size]
    exact h.slot_lt s y hy
  · have : (m.pool.slot? s).isSome = true := by rw [← hslot, hx]; rfl
    obtain ⟨y, hy⟩ := Option.isSome_iff_exists.1 this
    obtain ⟨-, o, ho, he⟩ := hobject s o' ho'
    exact he ▸ h.slot_only s y o hy ho

/-! ## Slots that were given back -/

/-- Every slot is as before, or it was given back. -/
def SlotsKept (m m' : Memory) : Prop :=
  ∀ s, m'.pool.slot? s = m.pool.slot? s ∨ ∃ x y, m.pool.slot? s = some x ∧
    m'.pool.slot? s = some y ∧ x.generation < y.generation ∧ y.inUse = false

theorem SlotsKept.refl (m : Memory) : SlotsKept m m :=
  fun _ => .inl rfl

theorem SlotsKept.of_pool (h : m'.pool = m.pool) : SlotsKept m m' :=
  fun _ => .inl (by rw [h])

theorem SlotsKept.trans {m'' : Memory} (h : SlotsKept m m') (h' : SlotsKept m' m'') :
    SlotsKept m m'' := by
  intro s
  rcases h' s with he' | ⟨x', y', hx', hy', hlt', huse'⟩
  · rw [he']
    exact h s
  · rcases h s with he | ⟨x, y, hx, hy, hlt, -⟩
    · exact .inr ⟨x', y', he ▸ hx', hy', hlt', huse'⟩
    · obtain rfl := Option.some.inj (hy.symm.trans hx')
      exact .inr ⟨x, y', hx, hy', Nat.lt_trans hlt hlt', huse'⟩

theorem SlotsKept.remove (m : Memory) (r : Ref) : SlotsKept m (m.remove r) := by
  cases ho : m.object? r with
  | none =>
    have : m.remove r = m := by rw [Memory.remove, ho]
    rw [this]
    exact .refl m
  | some o =>
    intro s
    rw [pool_remove ho]
    split
    · rw [SlotPool.slot?_giveBack]
      split
      · next e =>
        obtain ⟨x, hx, -⟩ := isInUse_iff_slot?.1 e.2
        obtain ⟨rfl, -⟩ := e
        exact .inr ⟨x, _, hx, by rw [hx]; rfl, Nat.lt_succ_self _, rfl⟩
      · exact .inl rfl
    · exact .inl rfl

/-! ## Memory without some objects -/

end Memory

/-- One object is the other but for weak fields. -/
def Object.Alike (o o' : Object) : Prop :=
  (∃ payload, o' = { o with payload }) ∧ o'.strongTargets = o.strongTargets

namespace Object.Alike

variable {o o' o'' : Object}

theorem refl (o : Object) : Alike o o :=
  ⟨⟨o.payload, rfl⟩, rfl⟩

theorem trans (h : Alike o o') (h' : Alike o' o'') : Alike o o'' := by
  obtain ⟨⟨payload, he⟩, hs⟩ := h
  obtain ⟨⟨payload', he'⟩, hs'⟩ := h'
  exact ⟨⟨payload', by rw [he', he]⟩, hs'.trans hs⟩

theorem forget (o : Object) (r : Ref) : Alike o (o.forget r) :=
  ⟨o.forget_eq r, o.strongTargets_forget r⟩

theorem symmetric_eq (h : Alike o o') : o'.symmetric = o.symmetric := by
  obtain ⟨⟨payload, rfl⟩, -⟩ := h
  rfl

theorem count_eq (h : Alike o o') : o'.count = o.count := by
  obtain ⟨⟨payload, rfl⟩, -⟩ := h
  rfl

theorem internal_eq (h : Alike o o') : o'.internal = o.internal := by
  obtain ⟨⟨payload, rfl⟩, -⟩ := h
  rfl

theorem component_eq (h : Alike o o') : o'.component = o.component := by
  obtain ⟨⟨payload, rfl⟩, -⟩ := h
  rfl

theorem frozen_eq (h : Alike o o') : o'.frozen = o.frozen := by
  obtain ⟨⟨payload, rfl⟩, -⟩ := h
  rfl

end Object.Alike

namespace Memory

variable {m m' : Memory} {r s : Ref} {o : Object} {group : List Ref}

/-- Memory after some objects are taken out. -/
structure Without (group : List Ref) (m m' : Memory) : Prop where
  gone : ∀ s ∈ group, m'.object? s = none
  kept : ∀ s, s ∉ group → ∀ o, m.object? s = some o → ∃ o', m'.object? s = some o' ∧ o.Alike o'
  back : ∀ s o', m'.object? s = some o' → s ∉ group ∧ ∃ o, m.object? s = some o ∧ o.Alike o'
  components : m'.components = m.components
  aside : Aside m m'
  slots : SlotsKept m m'

namespace Without

theorem nil (m : Memory) : Without [] m m where
  gone := by simp
  kept s _ o ho := ⟨o, ho, .refl o⟩
  back s o ho := ⟨by simp, o, ho, .refl o⟩
  components := rfl
  aside := .refl m
  slots := .refl m

theorem cons {m'' : Memory} (h : Without [r] m m') (h' : Without group m' m'') :
    Without (r :: group) m m'' where
  gone s hs := by
    rcases List.mem_cons.1 hs with rfl | hs
    · cases ho : m''.object? s with
      | none => rfl
      | some o' =>
        obtain ⟨-, o, ho, -⟩ := h'.back s o' ho
        rw [h.gone s (by simp)] at ho
        exact absurd ho (by simp)
    · exact h'.gone s hs
  kept s hs o ho := by
    have hne : s ∉ [r] := fun hr => hs (by simp_all)
    obtain ⟨o', ho', halike⟩ := h.kept s hne o ho
    obtain ⟨o'', ho'', halike'⟩ := h'.kept s (List.not_mem_of_not_mem_cons hs) o' ho'
    exact ⟨o'', ho'', halike.trans halike'⟩
  back s o'' ho'' := by
    obtain ⟨hs, o', ho', halike'⟩ := h'.back s o'' ho''
    obtain ⟨hne, o, ho, halike⟩ := h.back s o' ho'
    exact ⟨by simp_all, o, ho, halike.trans halike'⟩
  components := h'.components.trans h.components
  aside := h.aside.trans h'.aside
  slots := h.slots.trans h'.slots

theorem isLive_iff (h : Without group m m') (s : Ref) :
    m'.isLive s = true ↔ s ∉ group ∧ m.isLive s = true := by
  rw [Memory.isLive_iff, Memory.isLive_iff]
  constructor
  · rintro ⟨o', ho'⟩
    obtain ⟨hs, o, ho, -⟩ := h.back s o' ho'
    exact ⟨hs, o, ho⟩
  · rintro ⟨hs, o, ho⟩
    obtain ⟨o', ho', -⟩ := h.kept s hs o ho
    exact ⟨o', ho'⟩

theorem strongTargets (h : Without group m m') (s : Ref) :
    m'.strongTargets s = if s ∈ group then [] else m.strongTargets s := by
  unfold Memory.strongTargets
  split
  · next hs => rw [h.gone s hs]; rfl
  · next hs =>
    cases ho : m.object? s with
    | none =>
      cases ho' : m'.object? s with
      | none => rfl
      | some o' =>
        obtain ⟨-, o, ho'', -⟩ := h.back s o' ho'
        rw [ho] at ho''
        exact absurd ho'' (by simp)
    | some o =>
      obtain ⟨o', ho', halike⟩ := h.kept s hs o ho
      rw [ho']
      exact halike.2

end Without

/-- Memory in which objects, weak fields and slots are in order. There are no objects of arenas. -/
structure Tidy (m : Memory) : Prop where
  wired : Wired m
  housed : Housed m
  registry : m.components.Sound
  no_arena : ∀ r o, m.object? r = some o → o.arena? = none

/-- Other components leave objects, weak fields and slots in order. -/
theorem Tidy.of_components (h : Tidy m) {components : ComponentRegistry} (hr : components.Sound) :
    Tidy { m with components } :=
  ⟨⟨h.wired.listed, h.wired.live⟩, ⟨h.housed.pool, h.housed.inUse_iff, h.housed.slot_lt,
    h.housed.slot_only⟩, hr, h.no_arena⟩

theorem Wired.of_weakTargets (h : Wired m) (hlist : m'.referrers = m.referrers)
    (hweak : ∀ r i, m'.weakTarget? r i = m.weakTarget? r i)
    (hlive : ∀ r, m.isLive r = true → m'.isLive r = true) : Wired m' :=
  ⟨fun t h' i => by rw [hlist, hweak, h.listed],
    fun h' i t ht => hlive t (h.live h' i t (hweak h' i ▸ ht))⟩

/-- The same objects, in at least as many cells. -/
theorem Tidy.of_objects (h : Tidy m) (hobject : ∀ x, m'.object? x = m.object? x)
    (hsize : m.cells.size ≤ m'.cells.size) (hlist : m'.referrers = m.referrers)
    (hcomponents : m'.components = m.components) (hpool : m'.pool = m.pool) : Tidy m' where
  wired := by
    refine h.wired.of_weakTargets hlist (fun r i => ?_) fun r hr => ?_
    · rw [weakTarget?, weakTarget?, hobject]
    · rwa [isLive, hobject]
  housed := by
    refine ⟨hpool ▸ h.housed.pool, fun r => ?_, fun r x hx => ?_, fun r x o hx ho => ?_⟩
    · rw [hpool, hobject]
      exact h.housed.inUse_iff r
    · exact Nat.lt_of_lt_of_le (h.housed.slot_lt r x (hpool ▸ hx)) hsize
    · exact h.housed.slot_only r x o (hpool ▸ hx) ((hobject r).symm.trans ho)
  registry := hcomponents ▸ h.registry
  no_arena r o ho := h.no_arena r o ((hobject r).symm.trans ho)

/-- Changing an object but not its payload leaves its fields alone. -/
theorem weakTarget?_update (m : Memory) (r : Ref) {f : Object → Object}
    (hf : ∀ o, (f o).payload = o.payload) (h : Ref) (i : Nat) :
    (m.update r f).weakTarget? h i = m.weakTarget? h i := by
  have hfields : ∀ o, (f o).weakTarget? i = o.weakTarget? i := fun o => by
    simp only [Object.weakTarget?, Object.fields, hf]
  unfold weakTarget?
  rw [object?_update]
  split
  · next e =>
    subst e
    cases m.object? h <;> simp [hfields]
  · rfl

theorem strongTargets_update (m : Memory) (r : Ref) {f : Object → Object}
    (hf : ∀ o, (f o).payload = o.payload) (h : Ref) :
    (m.update r f).strongTargets h = m.strongTargets h := by
  have hfields : ∀ o, (f o).strongTargets = o.strongTargets := fun o => by
    simp only [Object.strongTargets, Object.fields, hf]
  unfold strongTargets
  rw [object?_update]
  split
  · next e =>
    subst e
    cases m.object? h <;> simp [hfields]
  · rfl

theorem Wired.update (h : Wired m) (r : Ref) {f : Object → Object}
    (hf : ∀ o, (f o).payload = o.payload) : Wired (m.update r f) :=
  h.of_weakTargets rfl (weakTarget?_update m r hf) fun s hs => by rwa [isLive_update]

theorem Tidy.update (h : Tidy m) (r : Ref) {f : Object → Object}
    (hpayload : ∀ o, (f o).payload = o.payload) (horigin : ∀ o, (f o).origin = o.origin) :
    Tidy (m.update r f) where
  wired := h.wired.update r hpayload
  housed := h.housed.update r horigin
  registry := h.registry
  no_arena s o ho := by
    rw [object?_update] at ho
    split at ho
    · next e =>
      subst e
      obtain ⟨o', ho', rfl⟩ := Option.map_eq_some_iff.1 ho
      rw [Object.arena?, horigin]
      exact h.no_arena s o' ho'
    · exact h.no_arena s o ho

theorem Tidy.remove (h : Tidy m) (hr : m.isLive r = true) : Tidy (m.remove r) where
  wired := h.wired.remove hr
  housed := h.housed.remove h.wired hr
  registry := by
    rw [components_remove]
    exact h.registry
  no_arena s o ho := by
    rw [object?_remove h.wired hr] at ho
    split at ho
    · exact absurd ho (by simp)
    · obtain ⟨o', ho', rfl⟩ := Option.map_eq_some_iff.1 ho
      exact h.no_arena s o' ho'

theorem Without.remove (h : Wired m) (hr : m.isLive r = true) : Without [r] m (m.remove r) where
  gone s hs := by rw [object?_remove h hr, if_pos (List.mem_singleton.1 hs)]
  kept s hs o ho := by
    rw [object?_remove h hr, if_neg (by simpa using hs), ho]
    exact ⟨_, rfl, .forget o r⟩
  back s o' ho' := by
    rw [object?_remove h hr] at ho'
    split at ho'
    · exact absurd ho' (by simp)
    · next hs =>
      obtain ⟨o, ho, rfl⟩ := Option.map_eq_some_iff.1 ho'
      exact ⟨by simpa using hs, o, ho, .forget o r⟩
  components := components_remove m r
  aside := .remove m r
  slots := .remove m r

/-- Objects that are there are taken out one after the other, and each of them is still there when its turn comes. -/
theorem Tidy.removeAll_induction {P : Memory → List Ref → Prop} (hnil : ∀ {m : Memory}, m.Tidy → P m [])
    (hcons : ∀ {m : Memory} {r : Ref} {group : List Ref}, m.Tidy → m.isLive r = true → r ∉ group →
      P (m.remove r) group → P m (r :: group))
    {group : List Ref} {m : Memory} (h : m.Tidy) (hnodup : group.Nodup)
    (hlive : ∀ x ∈ group, m.isLive x = true) : P m group := by
  induction group generalizing m with
  | nil => exact hnil h
  | cons r group ih =>
    obtain ⟨hr, hnodup⟩ := List.nodup_cons.1 hnodup
    have hrlive := hlive r List.mem_cons_self
    refine hcons h hrlive hr (ih (h.remove hrlive) hnodup fun x hx => ?_)
    refine (isLive_remove h.wired hrlive x).2 ⟨?_, hlive x (List.mem_cons_of_mem r hx)⟩
    rintro rfl
    exact hr hx

/-- Taking out a group of objects. -/
theorem Without.removeAll {group : List Ref} {m : Memory} (h : Tidy m) (hnodup : group.Nodup)
    (hlive : ∀ r ∈ group, m.isLive r = true) :
    Without group m (group.foldl Memory.remove m) ∧ Tidy (group.foldl Memory.remove m) := by
  refine Tidy.removeAll_induction (P := fun m group =>
    Without group m (group.foldl Memory.remove m) ∧ Tidy (group.foldl Memory.remove m)) ?_ ?_ h hnodup hlive
  · exact fun h => ⟨.nil _, h⟩
  · intro m r group h hr _ hrest
    exact ⟨(Without.remove h.wired hr).cons hrest.1, hrest.2⟩

end Memory

end Reclamation
