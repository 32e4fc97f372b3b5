import Mathlib
import Reclamation.Memory.ComponentRegistry

/-!
# Which components are live

The registry is seen through `entry?`, which maps an id to the entry of its component as long as that
component is live. In a `Sound` registry each operation changes this map at one id only: a change of
a count (`entry?_update`), the end of a component (`entry?_take`), a new component
(`entry?_register`). What makes this true is that a live id determines its entry and an entry the id
(`eq_of_index?_of_epoch`), and that the free list has dead entries only.
-/

set_option autoImplicit false

namespace Reclamation

/-- An id is its index and its epoch. -/
theorem ComponentId.eq_of_index?_of_epoch {id id' : ComponentId} {i : Nat}
    (hi : id.index? = some i) (hi' : id'.index? = some i) (he : id.epoch = id'.epoch) : id = id' := by
  have hlow : ∀ {id : ComponentId}, id.index? = some i → id.word.toNat % UInt32.size = i + 1 := by
    intro id h
    unfold index? at h
    split at h
    · exact absurd h (by simp)
    · next n hn =>
      rw [hn, Option.some.inj h]
  have hhigh : ∀ id : ComponentId, id.epoch.toNat = id.word.toNat / UInt32.size := by
    intro id
    have hlt := id.word.toNat_lt
    simp only [epoch, UInt64.toNat_toUInt32, UInt64.toNat_shiftRight]
    rw [show (32 : UInt64).toNat % 64 = 32 from rfl, Nat.shiftRight_eq_div_pow]
    unfold UInt32.size
    omega
  have hword : id.word.toNat = id'.word.toNat := by
    have h := congrArg UInt32.toNat he
    rw [hhigh, hhigh] at h
    rw [← Nat.div_add_mod id.word.toNat UInt32.size, ← Nat.div_add_mod id'.word.toNat UInt32.size,
      h, hlow hi, hlow hi']
  cases id
  cases id'
  exact congrArg ComponentId.mk (UInt64.toNat_inj.1 hword)

namespace ComponentRegistry

variable {t : ComponentRegistry} {id id' : ComponentId} {e : ComponentEntry}

theorem entry?_eq_some_iff : t.entry? id = some e ↔
    ∃ i, id.index? = some i ∧ t.entries[i]? = some e ∧ e.live = true ∧ e.epoch = id.epoch := by
  simp only [ entry?, Option.filter_eq_some_iff, Option.bind_eq_some_iff, Bool.and_eq_true,
    beq_iff_eq]
  constructor
  · rintro ⟨⟨i, hi, he⟩, hl, hep⟩
    exact ⟨i, hi, he, hl, hep⟩
  · rintro ⟨i, hi, he, hl, hep⟩
    exact ⟨⟨i, hi, he⟩, hl, hep⟩

theorem isLive_iff : t.isLive id = true ↔ ∃ e, t.entry? id = some e :=
  Option.isSome_iff_exists

/-- Live ids with one entry are one id. -/
theorem eq_of_entry {e' : ComponentEntry} {i : Nat} (h : t.entry? id = some e)
    (h' : t.entry? id' = some e') (hi : id.index? = some i) (hi' : id'.index? = some i) :
    id = id' := by
  obtain ⟨j, hj, he, -, hep⟩ := entry?_eq_some_iff.1 h
  obtain ⟨j', hj', he', -, hep'⟩ := entry?_eq_some_iff.1 h'
  obtain rfl := Option.some.inj (hi.symm.trans hj)
  obtain rfl := Option.some.inj (hi'.symm.trans hj')
  obtain rfl := Option.some.inj (he.symm.trans he')
  exact ComponentId.eq_of_index?_of_epoch hj hj' (hep.symm.trans hep')

/-! ## Counts -/

theorem entry?_update (t : ComponentRegistry) (id id' : ComponentId)
    {f : ComponentEntry → ComponentEntry} (hlive : ∀ e, (f e).live = e.live)
    (hepoch : ∀ e, (f e).epoch = e.epoch) :
    entry? (t.update id f) id' = if id' = id then (t.entry? id).map f else t.entry? id' := by
  unfold update
  cases h : t.entry? id with
  | none =>
    have hdead : t.isLive id = false := by simp [isLive, h]
    rw [if_neg (by simp [hdead])]
    split
    · next e => rw [e, h]; rfl
    · rfl
  | some e =>
    have hl : t.isLive id = true := by simp [isLive, h]
    obtain ⟨i, hi, he, hlv, hep⟩ := entry?_eq_some_iff.1 h
    rw [if_pos hl, hi, Option.getD_some]
    split
    · next hid =>
      subst hid
      rw [Option.map_some]
      refine entry?_eq_some_iff.2 ⟨i, hi, ?_, (hlive e).trans hlv, (hepoch e).trans hep⟩
      simp [Array.getElem?_modify, he]
    · next hid =>
      apply Option.ext
      intro e'
      rw [entry?_eq_some_iff, entry?_eq_some_iff]
      constructor
      · rintro ⟨j, hj, he', hlv', hep'⟩
        have hne : i ≠ j := fun hij => by
          subst hij
          simp only [Array.getElem?_modify, he, ↓reduceIte, Option.map_some,
            Option.some.injEq] at he'
          subst he'
          refine hid (ComponentId.eq_of_index?_of_epoch hj hi ?_)
          rw [← hep', hepoch, hep]
        exact ⟨j, hj, by simpa [Array.getElem?_modify, hne] using he', hlv', hep'⟩
      · rintro ⟨j, hj, he', hlv', hep'⟩
        have hne : i ≠ j := fun hij => by
          subst hij
          exact hid (eq_of_entry (entry?_eq_some_iff.2 ⟨i, hj, he', hlv', hep'⟩) h hj hi)
        exact ⟨j, hj, by simpa [Array.getElem?_modify, hne] using he', hlv', hep'⟩

theorem entry?_raise (t : ComponentRegistry) (id id' : ComponentId) : entry? (t.raise id) id' =
    if id' = id then (t.entry? id).map fun e => { e with external := e.external + 1 }
    else t.entry? id' :=
  entry?_update t id id' (fun _ => rfl) fun _ => rfl

theorem entry?_lower (t : ComponentRegistry) (id id' : ComponentId) : entry? (t.lower id) id' =
    if id' = id then (t.entry? id).map fun e => { e with external := e.external - 1 }
    else t.entry? id' :=
  entry?_update t id id' (fun _ => rfl) fun _ => rfl

/-! ## What all operations keep -/

/-- Between operations. The bound keeps ids apart. -/
structure Sound (t : ComponentRegistry) : Prop where
  free_nodup : t.free.Nodup
  free_dead : ∀ i ∈ t.free, ∃ e, t.entries[i]? = some e ∧ e.live = false
  size_lt : t.entries.size < UInt32.size

theorem Sound.empty (capacity : Nat) : Sound { capacity } :=
  ⟨List.nodup_nil, by simp, by simp [UInt32.size]⟩

theorem Sound.update (h : Sound t) (id : ComponentId) {f : ComponentEntry → ComponentEntry}
    (hlive : ∀ e, (f e).live = e.live) : Sound (t.update id f) := by
  unfold ComponentRegistry.update
  split
  · refine ⟨h.free_nodup, fun i hi => ?_, by simpa using h.size_lt⟩
    obtain ⟨e, he, hl⟩ := h.free_dead i hi
    by_cases hid : id.index?.getD 0 = i
    · exact ⟨f e, by simp [Array.getElem?_modify, hid, he], by rw [hlive, hl]⟩
    · exact ⟨e, by simp [Array.getElem?_modify, hid, he], hl⟩
  · exact h

theorem Sound.raise (h : Sound t) (id : ComponentId) : Sound (t.raise id) :=
  h.update id fun _ => rfl

theorem Sound.lower (h : Sound t) (id : ComponentId) : Sound (t.lower id) :=
  h.update id fun _ => rfl

theorem capacity_update (t : ComponentRegistry) (id : ComponentId)
    (f : ComponentEntry → ComponentEntry) : (t.update id f).capacity = t.capacity := by
  unfold update
  split <;> rfl

theorem capacity_take (t : ComponentRegistry) (id : ComponentId) :
    (t.take id).capacity = t.capacity := by
  unfold take
  split <;> rfl

/-! ## The end of a component -/

theorem take_of_entry {i : Nat} (h : t.entry? id = some e) (hi : id.index? = some i) :
    t.take id = { t with
      entries := t.entries.modify i fun e => { e with live := false, members := [] }
      free := i :: t.free
      liveCount := t.liveCount - 1 } := by
  have hl : t.isLive id = true := by simp [isLive, h]
  rw [take, if_pos hl, hi]
  rfl

theorem entry?_take (h : t.entry? id = some e) (id' : ComponentId) :
    entry? (t.take id) id' = if id' = id then none else t.entry? id' := by
  obtain ⟨i, hi, he, hl, hep⟩ := entry?_eq_some_iff.1 h
  rw [take_of_entry h hi]
  split
  · next hid =>
    subst hid
    refine Option.eq_none_iff_forall_ne_some.2 fun e' he' => ?_
    obtain ⟨j, hj, hej, hlj, -⟩ := entry?_eq_some_iff.1 he'
    obtain rfl := Option.some.inj (hi.symm.trans hj)
    simp only [Array.getElem?_modify, he, ↓reduceIte, Option.map_some, Option.some.injEq] at hej
    rw [← hej] at hlj
    exact absurd hlj (by simp)
  · next hid =>
    apply Option.ext
    intro e'
    rw [entry?_eq_some_iff, entry?_eq_some_iff]
    constructor
    · rintro ⟨j, hj, hej, hlj, hepj⟩
      have hne : i ≠ j := fun hij => by
        subst hij
        simp only [Array.getElem?_modify, he, ↓reduceIte, Option.map_some, Option.some.injEq] at hej
        rw [← hej] at hlj
        exact absurd hlj (by simp)
      exact ⟨j, hj, by simpa [Array.getElem?_modify, hne] using hej, hlj, hepj⟩
    · rintro ⟨j, hj, hej, hlj, hepj⟩
      have hne : i ≠ j := fun hij => by
        subst hij
        exact hid (eq_of_entry (entry?_eq_some_iff.2 ⟨i, hj, hej, hlj, hepj⟩) h hj hi)
      exact ⟨j, hj, by simpa [Array.getElem?_modify, hne] using hej, hlj, hepj⟩

theorem Sound.take (h : Sound t) (id : ComponentId) : Sound (t.take id) := by
  cases hl : t.entry? id with
  | none =>
    have : t.take id = t := by simp [ComponentRegistry.take, isLive, hl]
    rwa [this]
  | some e =>
    obtain ⟨i, hi, he, hlive, -⟩ := entry?_eq_some_iff.1 hl
    rw [take_of_entry hl hi]
    have hnot : i ∉ t.free := fun hfree => by
      obtain ⟨e', he', hdead⟩ := h.free_dead i hfree
      obtain rfl := Option.some.inj (he.symm.trans he')
      rw [hlive] at hdead
      exact absurd hdead (by decide)
    refine ⟨List.nodup_cons.2 ⟨hnot, h.free_nodup⟩, fun j hj => ?_, by simpa using h.size_lt⟩
    rcases List.mem_cons.1 hj with rfl | hj
    · exact ⟨{ e with live := false, members := [] }, by simp [Array.getElem?_modify, he], rfl⟩
    · obtain ⟨e', he', hdead⟩ := h.free_dead j hj
      have hne : i ≠ j := fun hij => hnot (hij ▸ hj)
      exact ⟨e', by simp [Array.getElem?_modify, hne, he'], hdead⟩

/-! ## A new component -/

/-- Which entry a new component gets. -/
theorem register?_cases {t' : ComponentRegistry} {members : List Ref} {external : Nat}
    (h : t.register? members external = some (t', id)) :
    (∃ i free, t.free = i :: free ∧ id = .ofParts i ((t.entries[i]?.getD {}).epoch + 1) ∧
      t' = { t with
        entries := t.entries.modify i (·.renew members external), free
        liveCount := t.liveCount + 1 }) ∨
    (t.free = [] ∧ t.entries.size < t.capacity ∧
      id = .ofParts t.entries.size (ComponentEntry.renew {} members external).epoch ∧
      t' = { t with
        entries := t.entries.push (ComponentEntry.renew {} members external)
        liveCount := t.liveCount + 1 }) := by
  unfold register? at h
  split at h
  · next i free hfree =>
    obtain ⟨rfl, rfl⟩ := Prod.mk.inj (Option.some.inj h)
    exact .inl ⟨i, free, hfree, rfl, rfl⟩
  · next hfree =>
    split at h
    · next hlt =>
      obtain ⟨rfl, rfl⟩ := Prod.mk.inj (Option.some.inj h)
      exact .inr ⟨hfree, hlt, rfl, rfl⟩
    · exact absurd h (by simp)

/-- A new component has an id that no live component has, and the others keep theirs. -/
theorem entry?_register (hs : Sound t)
    (hsize : t.entries.size < t.capacity → t.entries.size + 1 < UInt32.size)
    {t' : ComponentRegistry} {members : List Ref} {external : Nat}
    (h : t.register? members external = some (t', id)) :
    t.entry? id = none ∧ (∃ e, t'.entry? id = some e ∧ e.members = members ∧ e.external = external) ∧
      ∀ id', id' ≠ id → t'.entry? id' = t.entry? id' := by
  rcases register?_cases h with ⟨i, free, hfree, rfl, rfl⟩ | ⟨hfree, hlt, rfl, rfl⟩
  · obtain ⟨e, he, hdead⟩ := hs.free_dead i (by rw [hfree]; simp)
    have hi : i + 1 < UInt32.size :=
      Nat.lt_of_le_of_lt (Array.getElem?_eq_some_iff.1 he).1 hs.size_lt
    have hindex := ComponentId.index?_ofParts i (e.epoch + 1) hi
    have hepoch := ComponentId.epoch_ofParts i (e.epoch + 1) hi
    rw [he, Option.getD_some]
    have hold : ∀ id' e', t.entry? id' = some e' → id'.index? ≠ some i := by
      intro id' e' h' hi'
      obtain ⟨j, hj, he', hl, -⟩ := entry?_eq_some_iff.1 h'
      obtain rfl := Option.some.inj (hi'.symm.trans hj)
      obtain rfl := Option.some.inj (he.symm.trans he')
      rw [hdead] at hl
      exact absurd hl (by decide)
    refine ⟨Option.eq_none_iff_forall_ne_some.2 fun e' he' => hold _ e' he' hindex, ?_, ?_⟩
    · refine ⟨e.renew members external, entry?_eq_some_iff.2 ⟨i, hindex, ?_, rfl, ?_⟩, rfl, rfl⟩
      · simp [Array.getElem?_modify, he]
      · rw [hepoch]; rfl
    · intro id' hne
      apply Option.ext
      intro e'
      rw [entry?_eq_some_iff, entry?_eq_some_iff]
      constructor
      · rintro ⟨j, hj, hej, hlj, hepj⟩
        have hij : i ≠ j := fun hij => by
          subst hij
          simp only [Array.getElem?_modify, he, ↓reduceIte, Option.map_some,
            Option.some.injEq] at hej
          refine hne (ComponentId.eq_of_index?_of_epoch hj hindex ?_)
          rw [hepoch, ← hepj, ← hej]
          rfl
        exact ⟨j, hj, by simpa [Array.getElem?_modify, hij] using hej, hlj, hepj⟩
      · rintro ⟨j, hj, hej, hlj, hepj⟩
        have hij : i ≠ j := fun hij => by
          subst hij
          exact hold id' e' (entry?_eq_some_iff.2 ⟨i, hj, hej, hlj, hepj⟩) hj
        exact ⟨j, hj, by simpa [Array.getElem?_modify, hij] using hej, hlj, hepj⟩
  · have hindex := ComponentId.index?_ofParts t.entries.size
      (ComponentEntry.renew {} members external).epoch (hsize hlt)
    have hepoch := ComponentId.epoch_ofParts t.entries.size
      (ComponentEntry.renew {} members external).epoch (hsize hlt)
    have hold : ∀ id' e', t.entry? id' = some e' → id'.index? ≠ some t.entries.size := by
      intro id' e' h' hi'
      obtain ⟨j, hj, he', -⟩ := entry?_eq_some_iff.1 h'
      obtain rfl := Option.some.inj (hi'.symm.trans hj)
      exact absurd (Array.getElem?_eq_some_iff.1 he').1 (Nat.lt_irrefl _)
    refine ⟨Option.eq_none_iff_forall_ne_some.2 fun e' he' => hold _ e' he' hindex, ?_, ?_⟩
    · exact ⟨_, entry?_eq_some_iff.2 ⟨_, hindex, Array.getElem?_push_size, rfl, hepoch.symm⟩, rfl,
        rfl⟩
    · intro id' hne
      apply Option.ext
      intro e'
      rw [entry?_eq_some_iff, entry?_eq_some_iff]
      constructor
      · rintro ⟨j, hj, hej, hlj, hepj⟩
        have hij : j ≠ t.entries.size := fun hij => by
          subst hij
          rw [Array.getElem?_push_size] at hej
          refine hne (ComponentId.eq_of_index?_of_epoch hj hindex ?_)
          rw [hepoch, ← hepj, ← Option.some.inj hej]
        exact ⟨j, hj, by simpa [Array.getElem?_push, hij] using hej, hlj, hepj⟩
      · rintro ⟨j, hj, hej, hlj, hepj⟩
        have hij : j ≠ t.entries.size := fun hij => by
          subst hij
          exact hold id' e' (entry?_eq_some_iff.2 ⟨_, hj, hej, hlj, hepj⟩) hj
        exact ⟨j, hj, by simpa [Array.getElem?_push, hij] using hej, hlj, hepj⟩

theorem Sound.register (hs : Sound t)
    (hsize : t.entries.size < t.capacity → t.entries.size + 1 < UInt32.size)
    {t' : ComponentRegistry} {members : List Ref} {external : Nat}
    (h : t.register? members external = some (t', id)) :
    Sound t' ∧ t'.entries.size ≤ t.entries.size + 1 ∧ t'.capacity = t.capacity := by
  rcases register?_cases h with ⟨i, free, hfree, -, rfl⟩ | ⟨hfree, hlt, -, rfl⟩
  · obtain ⟨hnot, hnodup⟩ := List.nodup_cons.1 (hfree ▸ hs.free_nodup)
    refine ⟨⟨hnodup, fun j hj => ?_, by simpa using hs.size_lt⟩, by simp, rfl⟩
    obtain ⟨e, he, hdead⟩ := hs.free_dead j (by rw [hfree]; exact List.mem_cons_of_mem _ hj)
    have hne : i ≠ j := fun hij => hnot (hij ▸ hj)
    exact ⟨e, by simp [Array.getElem?_modify, hne, he], hdead⟩
  · refine ⟨⟨hs.free_nodup, fun j hj => ?_, by simpa using hsize hlt⟩, by simp, rfl⟩
    rw [hfree] at hj
    exact absurd hj (by simp)

end ComponentRegistry

end Reclamation
