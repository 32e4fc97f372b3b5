import Mathlib
import Reclamation.Proofs.Memory.Membership

/-!
# Ids are not used twice

A registry that began empty is asked to enter components, to change their counts and to end them, in any order
and with any words for ids. The ids that it gave out are a history of the epochs of its entries: an entry's epoch
has only gone up, by one with each id, so the next id of an entry is new as long as fewer ids were given out
than the word of the epoch has values (`Issuing`). So an id that was given out is good until its component is
ended and never again, and no other word is good at any time (`ids_live_until_taken`).
-/

set_option autoImplicit false

namespace Reclamation.ComponentRegistry

variable {t t' : ComponentRegistry} {id : ComponentId} {ids : List ComponentId} {ended : Nat}

/-! ## Requests -/

/-- What a registry can be asked to do. -/
inductive Request where
  | register (members : List Ref) (external : Nat)
  | raise (id : ComponentId)
  | lower (id : ComponentId)
  | take (id : ComponentId)
  deriving DecidableEq

/-- What a registry answers. -/
inductive Answer where
  /-- A component was entered. -/
  | entered (id : ComponentId)
  /-- There is no room for another component. -/
  | full
  /-- Whether a count was raised. -/
  | raised (done : Bool)
  /-- The count after it was lowered. -/
  | lowered (external : Option Nat)
  /-- The members of the component that was ended. -/
  | taken (members : Option (List Ref))
  deriving DecidableEq

/-- Whether a request is to enter a component. -/
def Request.enters : Request → Bool
  | register _ _ => true
  | raise _ | lower _ | take _ => false

/-- The id that an answer gives out. -/
def Answer.id? : Answer → Option ComponentId
  | entered id => some id
  | full | raised _ | lowered _ | taken _ => none

/-- Whether an answer reports the end of a component. -/
def Answer.ends : Answer → Bool
  | taken members => members.isSome
  | entered _ | full | raised _ | lowered _ => false

/-- Do what is asked for, and answer. -/
def perform (t : ComponentRegistry) : Request → ComponentRegistry × Answer
  | .register members external =>
    match t.register? members external with
    | some (t', id) => (t', .entered id)
    | none => (t, .full)
  | .raise id => (t.raise id, .raised (t.isLive id))
  | .lower id => (t.lower id, .lowered ((t.lower id).external? id))
  | .take id => (t.take id, .taken (t.members? id))

/-- The registry after some requests. -/
def after (t : ComponentRegistry) (requests : List Request) : ComponentRegistry :=
  requests.foldl (fun t q => (t.perform q).1) t

/-- What is answered to some requests. -/
def answers (t : ComponentRegistry) : List Request → List Answer
  | [] => []
  | q :: requests => (t.perform q).2 :: (t.perform q).1.answers requests

/-- The ids that are given out, in order. -/
def issued (t : ComponentRegistry) (requests : List Request) : List ComponentId :=
  (t.answers requests).filterMap (·.id?)

theorem perform_register {members : List Ref} {external : Nat}
    (h : t.register? members external = some (t', id)) :
    t.perform (.register members external) = (t', .entered id) := by
  simp only [perform, h]

theorem perform_register_full {members : List Ref} {external : Nat}
    (h : t.register? members external = none) : t.perform (.register members external) = (t, .full) := by
  simp only [perform, h]

theorem after_append (t : ComponentRegistry) (before rest : List Request) :
    t.after (before ++ rest) = (t.after before).after rest :=
  List.foldl_append

theorem issued_cons (t : ComponentRegistry) (q : Request) (requests : List Request) :
    t.issued (q :: requests) = (t.perform q).2.id?.toList ++ (t.perform q).1.issued requests := by
  unfold issued
  rw [answers]
  cases hid : (t.perform q).2.id? <;> simp [hid]

/-- Only a request to enter a component is answered with an id. -/
theorem enters_of_entered {q : Request} (h : (t.perform q).2 = .entered id) :
    ∃ members external, q = .register members external := by
  cases q with
  | register members external => exact ⟨members, external, rfl⟩
  | raise _ | lower _ | take _ => exact absurd h (by simp [perform])

theorem length_id?_le (t : ComponentRegistry) (q : Request) :
    (t.perform q).2.id?.toList.length ≤ if q.enters = true then 1 else 0 := by
  cases q with
  | register members external =>
    cases (t.perform (.register members external)).2 <;> simp [Answer.id?, Request.enters]
  | raise _ | lower _ | take _ => simp [perform, Answer.id?, Request.enters]

theorem length_issued_le (t : ComponentRegistry) (requests : List Request) :
    (t.issued requests).length ≤ requests.countP (·.enters) := by
  induction requests generalizing t with
  | nil => exact Nat.le_refl 0
  | cons q requests ih =>
    have hone := t.length_id?_le q
    have hrest := ih (t.perform q).1
    rw [issued_cons, List.length_append, List.countP_cons]
    omega

theorem capacity_perform (t : ComponentRegistry) (q : Request) : (t.perform q).1.capacity = t.capacity := by
  cases q with
  | register members external =>
    cases hreg : t.register? members external with
    | none => rw [perform_register_full hreg]
    | some new =>
      rw [perform_register hreg]
      rcases register?_cases hreg with ⟨_, _, -, -, h⟩ | ⟨-, -, -, h⟩ <;> rw [h]
  | raise id => exact t.capacity_update id _
  | lower id => exact t.capacity_update id _
  | take id => exact t.capacity_take id

theorem capacity_after (t : ComponentRegistry) (requests : List Request) :
    (t.after requests).capacity = t.capacity := by
  induction requests generalizing t with
  | nil => rfl
  | cons q requests ih => exact (ih _).trans (t.capacity_perform q)

/-- An id that names no live component. -/
theorem perform_of_not_isLive (h : t.isLive id = false) : t.perform (.raise id) = (t, .raised false) ∧
    t.perform (.lower id) = (t, .lowered none) ∧ t.perform (.take id) = (t, .taken none) := by
  have hnone : t.entry? id = none := by simpa [isLive] using h
  refine ⟨?_, ?_, ?_⟩
  · simp [perform, raise, update, h]
  · simp [perform, lower, update, external?, h, hnone]
  · simp [perform, take, members?, h, hnone]

theorem isLive_update (t : ComponentRegistry) (id id' : ComponentId) {f : ComponentEntry → ComponentEntry}
    (hlive : ∀ e, (f e).live = e.live) (hepoch : ∀ e, (f e).epoch = e.epoch) :
    (t.update id f).isLive id' = t.isLive id' := by
  rw [isLive, entry?_update t id id' hlive hepoch, isLive]
  split
  · next e => rw [Option.isSome_map, e]
  · rfl

/-! ## Epochs -/

/-- The epoch of an entry. -/
def epoch? (t : ComponentRegistry) (i : Nat) : Option UInt32 :=
  t.entries[i]?.map (·.epoch)

theorem epoch?_update (t : ComponentRegistry) (id : ComponentId) {f : ComponentEntry → ComponentEntry}
    (hf : ∀ e, (f e).epoch = e.epoch) (i : Nat) : (t.update id f).epoch? i = t.epoch? i := by
  unfold update
  split
  · simp only [epoch?, Array.getElem?_modify]
    split
    · rw [Option.map_map]
      exact Option.map_congr fun e _ => hf e
    · rfl
  · rfl

theorem epoch?_take (t : ComponentRegistry) (id : ComponentId) (i : Nat) : (t.take id).epoch? i = t.epoch? i := by
  unfold take
  split
  · simp only [epoch?, Array.getElem?_modify]
    split
    · rw [Option.map_map]
      rfl
    · rfl
  · rfl

/-- A new id is that of an entry at its next epoch, and the other entries stay at theirs. -/
theorem epoch?_register (hs : t.Sound) (hsize : t.entries.size < t.capacity → t.entries.size + 1 < UInt32.size)
    {members : List Ref} {external : Nat} (h : t.register? members external = some (t', id)) :
    ∃ i, id.index? = some i ∧ id.epoch = (t.epoch? i).getD 0 + 1 ∧
      ∀ j, t'.epoch? j = if j = i then some id.epoch else t.epoch? j := by
  rcases register?_cases h with ⟨i, free, hfree, rfl, rfl⟩ | ⟨-, hlt, rfl, rfl⟩
  · obtain ⟨e, he, -⟩ := hs.free_dead i (by rw [hfree]; exact List.mem_cons_self)
    have hi := Nat.lt_of_le_of_lt (Array.getElem?_eq_some_iff.1 he).1 hs.size_lt
    rw [he, Option.getD_some]
    refine ⟨i, ComponentId.index?_ofParts i _ hi, ?_, fun j => ?_⟩
    · rw [ComponentId.epoch_ofParts i _ hi, epoch?, he]
      rfl
    · rw [ComponentId.epoch_ofParts i _ hi]
      by_cases hj : j = i
      · simp [epoch?, Array.getElem?_modify, hj, he, ComponentEntry.renew]
      · simp [epoch?, Array.getElem?_modify, hj, Ne.symm hj]
  · refine ⟨t.entries.size, ComponentId.index?_ofParts _ _ (hsize hlt), ?_, fun j => ?_⟩
    · rw [ComponentId.epoch_ofParts _ _ (hsize hlt)]
      simp [epoch?, ComponentEntry.renew]
    · rw [ComponentId.epoch_ofParts _ _ (hsize hlt)]
      by_cases hj : j = t.entries.size
      · simp [epoch?, hj]
      · simp [epoch?, hj, Array.getElem?_push]

/-! ## The ids given out -/

/-- What is known of a registry that has given out some ids and ended some components. -/
structure Issuing (t : ComponentRegistry) (ids : List ComponentId) (ended : Nat) : Prop where
  tallied : t.Tallied ids.length ended
  capacity_lt : t.capacity < UInt32.size
  nodup : ids.Nodup
  /-- Ids were given out at epochs that their entries have reached. -/
  reached : ∀ id ∈ ids, ∃ i epoch, id.index? = some i ∧ t.epoch? i = some epoch ∧ id.epoch ≤ epoch
  /-- No epoch has gone around. -/
  epoch_le : ∀ i epoch, t.epoch? i = some epoch → epoch.toNat ≤ ids.length
  mem_of_isLive : ∀ id, t.isLive id = true → id ∈ ids

namespace Issuing

theorem empty {capacity : Nat} (h : capacity < UInt32.size) : Issuing { capacity } [] 0 where
  tallied := .empty capacity
  capacity_lt := h
  nodup := List.nodup_nil
  reached := by simp
  epoch_le := by simp [epoch?]
  mem_of_isLive := by simp [isLive, entry?]

theorem sound (h : Issuing t ids ended) : t.Sound where
  free_nodup := h.tallied.free_nodup
  free_dead i hi := Option.map_eq_some_iff.1 (h.tallied.free_dead i hi)
  size_lt := h.tallied.size.trans_lt h.capacity_lt

theorem size_succ_lt (h : Issuing t ids ended) (hlt : t.entries.size < t.capacity) :
    t.entries.size + 1 < UInt32.size :=
  Nat.lt_of_le_of_lt hlt h.capacity_lt

theorem mem_free_iff (h : Issuing t ids ended) {i : Nat} :
    i ∈ t.free ↔ ∃ e, t.entries[i]? = some e ∧ e.live = false :=
  ⟨h.sound.free_dead i, fun hdead => h.tallied.free_of_dead i (Option.map_eq_some_iff.2 hdead)⟩

theorem word_ne_zero (h : Issuing t ids ended) (hid : id ∈ ids) : id.word ≠ 0 := by
  obtain ⟨i, -, hindex, -⟩ := h.reached id hid
  intro hzero
  simp [ComponentId.index?, hzero] at hindex

/-- The live components are those of ids that were given out. -/
theorem liveCount_eq (h : Issuing t ids ended) : t.liveCount = (ids.filter t.isLive).length := by
  rw [h.tallied.liveCount_eq, ← t.length_liveIds]
  refine List.Perm.length_eq ((List.perm_ext_iff_of_nodup h.sound.nodup_liveIds (h.nodup.filter _)).2 fun id => ?_)
  rw [h.sound.mem_liveIds, List.mem_filter]
  exact ⟨fun hlive => ⟨h.mem_of_isLive id hlive, hlive⟩, fun hmem => hmem.2⟩

/-! ## One request -/

theorem update (h : Issuing t ids ended) (id : ComponentId) {f : ComponentEntry → ComponentEntry}
    (hlive : ∀ e, (f e).live = e.live) (hepoch : ∀ e, (f e).epoch = e.epoch) :
    Issuing (t.update id f) ids ended := by
  have hsame := SameExtent.update t id hlive
  refine ⟨h.tallied.of_sameExtent hsame, hsame.capacity ▸ h.capacity_lt, h.nodup, fun x hx => ?_,
    fun i epoch hi => ?_, fun x hx => ?_⟩
  · simpa only [epoch?_update t id hepoch] using h.reached x hx
  · exact h.epoch_le i epoch (by rwa [epoch?_update t id hepoch] at hi)
  · exact h.mem_of_isLive x (by rwa [isLive_update t id x hlive hepoch] at hx)

theorem take (h : Issuing t ids ended) (hlive : t.isLive id = true) :
    Issuing (t.take id) ids (ended + 1) := by
  obtain ⟨e, he⟩ := isLive_iff.1 hlive
  refine ⟨h.tallied.take hlive, (t.capacity_take id).symm ▸ h.capacity_lt, h.nodup, fun x hx => ?_,
    fun j epoch hj => ?_, fun x hx => ?_⟩
  · simpa only [epoch?_take] using h.reached x hx
  · exact h.epoch_le j epoch (by rwa [epoch?_take] at hj)
  · refine h.mem_of_isLive x ?_
    rw [isLive, entry?_take he] at hx
    split at hx
    · exact absurd hx (by simp)
    · exact hx

/-- The entry is at a later epoch than with any id given out. -/
theorem notMem_of_register (h : Issuing t ids ended) (hroom : ids.length + 1 < UInt32.size) {members : List Ref}
    {external : Nat} (hreg : t.register? members external = some (t', id)) : id ∉ ids := by
  intro hid
  obtain ⟨i, hindex, hepoch, -⟩ := epoch?_register h.sound h.size_succ_lt hreg
  obtain ⟨j, epoch, hindex', hreached, hle⟩ := h.reached id hid
  obtain rfl := Option.some.inj (hindex.symm.trans hindex')
  have hbound := h.epoch_le i epoch hreached
  rw [hreached, Option.getD_some] at hepoch
  rw [hepoch, UInt32.le_iff_toNat_le, toNat_add_one (by omega)] at hle
  omega

theorem register (h : Issuing t ids ended) (hroom : ids.length + 1 < UInt32.size) {members : List Ref}
    {external : Nat} (hreg : t.register? members external = some (t', id)) : Issuing t' (ids ++ [id]) ended := by
  obtain ⟨i, hindex, hepoch, hothers⟩ := epoch?_register h.sound h.size_succ_lt hreg
  have hlength : (ids ++ [id]).length = ids.length + 1 := by simp
  have hbound : id.epoch.toNat ≤ ids.length + 1 := by
    have hold : ((t.epoch? i).getD 0).toNat ≤ ids.length := by
      cases he : t.epoch? i with
      | none => exact Nat.zero_le _
      | some epoch => exact h.epoch_le i epoch he
    rw [hepoch, toNat_add_one (by omega)]
    omega
  refine ⟨hlength ▸ h.tallied.register hreg, ?_, ?_, fun x hx => ?_, fun j epoch hj => ?_, fun x hx => ?_⟩
  · rw [(h.sound.register h.size_succ_lt hreg).2.2]
    exact h.capacity_lt
  · refine List.nodup_append'.2 ⟨h.nodup, List.nodup_singleton _, ?_⟩
    exact List.disjoint_singleton.2 (h.notMem_of_register hroom hreg)
  · rcases List.mem_append.1 hx with hx | hx
    · obtain ⟨j, epoch, hj, hreached, hle⟩ := h.reached x hx
      by_cases hji : j = i
      · -- the entry has moved on from the epoch that it had reached
        refine ⟨j, id.epoch, hj, by rw [hothers, if_pos hji], UInt32.le_trans hle ?_⟩
        have hold := h.epoch_le j epoch hreached
        rw [hepoch, ← hji, hreached, Option.getD_some, UInt32.le_iff_toNat_le, toNat_add_one (by omega)]
        omega
      · exact ⟨j, epoch, hj, by rw [hothers, if_neg hji, hreached], hle⟩
    · obtain rfl := List.mem_singleton.1 hx
      exact ⟨i, x.epoch, hindex, by rw [hothers, if_pos rfl], UInt32.le_refl _⟩
  · rw [hothers] at hj
    rw [hlength]
    split at hj
    · exact Option.some.inj hj ▸ hbound
    · exact (h.epoch_le j epoch hj).trans (Nat.le_succ _)
  · by_cases hxid : x = id
    · exact List.mem_append_right _ (List.mem_singleton.2 hxid)
    · refine List.mem_append_left _ (h.mem_of_isLive x ?_)
      rwa [isLive, ← (entry?_register h.sound h.size_succ_lt hreg).2.2 x hxid]

/-- Whatever is asked for. -/
theorem perform (h : Issuing t ids ended) {q : Request} (hroom : q.enters = true → ids.length + 1 < UInt32.size) :
    Issuing (t.perform q).1 (ids ++ (t.perform q).2.id?.toList)
      (ended + if (t.perform q).2.ends = true then 1 else 0) := by
  cases q with
  | register members external =>
    cases hreg : t.register? members external with
    | none =>
      rw [perform_register_full hreg]
      simpa [Answer.id?, Answer.ends] using h
    | some new =>
      rw [perform_register hreg]
      exact h.register (hroom rfl) hreg
  | raise id =>
    have hnext : Issuing (t.raise id) ids ended := h.update id (fun _ => rfl) fun _ => rfl
    simpa [ComponentRegistry.perform, Answer.id?, Answer.ends] using hnext
  | lower id =>
    have hnext : Issuing (t.lower id) ids ended := h.update id (fun _ => rfl) fun _ => rfl
    simpa [ComponentRegistry.perform, Answer.id?, Answer.ends] using hnext
  | take id =>
    have hends : (t.members? id).isSome = t.isLive id := Option.isSome_map
    cases hlive : t.isLive id with
    | false =>
      rw [(perform_of_not_isLive hlive).2.2]
      simpa [Answer.id?, Answer.ends] using h
    | true => simpa [ComponentRegistry.perform, Answer.id?, Answer.ends, hends, hlive] using h.take hlive

/-- An id that was given out is good after a request if it was before and its component is not ended. -/
theorem isLive_perform (h : Issuing t ids ended) {q : Request}
    (hroom : q.enters = true → ids.length + 1 < UInt32.size) (hid : id ∈ ids) :
    (t.perform q).1.isLive id = true ↔ t.isLive id = true ∧ .take id ≠ q := by
  cases q with
  | register members external =>
    cases hreg : t.register? members external with
    | none => simp [perform_register_full hreg]
    | some new =>
      have hne : id ≠ new.2 := fun e => h.notMem_of_register (hroom rfl) hreg (e ▸ hid)
      have hsame := (entry?_register h.sound h.size_succ_lt hreg).2.2 id hne
      simp [perform_register hreg, isLive, hsame]
  | raise x =>
    have hsame : (t.raise x).isLive id = t.isLive id := isLive_update t x id (fun _ => rfl) fun _ => rfl
    simp [ComponentRegistry.perform, hsame]
  | lower x =>
    have hsame : (t.lower x).isLive id = t.isLive id := isLive_update t x id (fun _ => rfl) fun _ => rfl
    simp [ComponentRegistry.perform, hsame]
  | take x =>
    cases hlive : t.isLive x with
    | false =>
      rw [(perform_of_not_isLive hlive).2.2]
      refine ⟨fun hl => ⟨hl, fun e => ?_⟩, fun hl => hl.1⟩
      rw [Request.take.inj e, hlive] at hl
      exact absurd hl (by decide)
    | true =>
      obtain ⟨e, he⟩ := isLive_iff.1 hlive
      have hentry := entry?_take he id
      by_cases hx : id = x
      · subst hx
        rw [if_pos rfl] at hentry
        simp [ComponentRegistry.perform, isLive, hentry]
      · rw [if_neg hx] at hentry
        simp [ComponentRegistry.perform, isLive, hentry, hx]

/-! ## All requests -/

theorem after (h : Issuing t ids ended) {requests : List Request}
    (hroom : ids.length + requests.countP (·.enters) < UInt32.size) :
    Issuing (t.after requests) (ids ++ t.issued requests) (ended + (t.answers requests).countP (·.ends)) := by
  induction requests generalizing t ids ended with
  | nil => simpa [ComponentRegistry.after, issued, answers] using h
  | cons q requests ih =>
    rw [List.countP_cons] at hroom
    have hstep := h.perform (q := q) fun hq => by
      rw [if_pos hq] at hroom
      omega
    have hlength := t.length_id?_le q
    have hnext := ih hstep (by
      rw [List.length_append]
      omega)
    rw [issued_cons, ← List.append_assoc, answers, List.countP_cons, Nat.add_comm (List.countP _ _), ← Nat.add_assoc]
    exact hnext

theorem isLive_after (h : Issuing t ids ended) {requests : List Request}
    (hroom : ids.length + requests.countP (·.enters) < UInt32.size) (hid : id ∈ ids) :
    (t.after requests).isLive id = true ↔ t.isLive id = true ∧ .take id ∉ requests := by
  induction requests generalizing t ids ended with
  | nil => simp [ComponentRegistry.after]
  | cons q requests ih =>
    rw [List.countP_cons] at hroom
    have hq : q.enters = true → ids.length + 1 < UInt32.size := fun hq => by
      rw [if_pos hq] at hroom
      omega
    have hlength := t.length_id?_le q
    have hnext := ih (h.perform hq) (by
      rw [List.length_append]
      omega) (List.mem_append_left _ hid)
    rw [List.mem_cons, not_or, ← and_assoc]
    exact hnext.trans (and_congr_left' (h.isLive_perform hq hid))

/-- A component that is entered has an id that is good. -/
theorem isLive_of_entered (h : Issuing t ids ended) {members : List Ref} {external : Nat}
    (hq : (t.perform (.register members external)).2 = .entered id) :
    (t.perform (.register members external)).1.isLive id = true := by
  cases hreg : t.register? members external with
  | none => exact absurd hq (by simp [perform_register_full hreg])
  | some new =>
    rw [perform_register hreg] at hq ⊢
    obtain ⟨e, he, -⟩ := (entry?_register h.sound h.size_succ_lt hreg).2.1
    rw [← Answer.entered.inj hq]
    exact isLive_iff.2 ⟨e, he⟩

/-- An id that a request is answered with is good until its component is ended. -/
theorem isLive_until (h : Issuing t ids ended) {q : Request} {rest : List Request}
    (hroom : ids.length + (q :: rest).countP (·.enters) < UInt32.size) (hq : (t.perform q).2 = .entered id) :
    ((t.perform q).1.after rest).isLive id = true ↔ .take id ∉ rest := by
  obtain ⟨members, external, rfl⟩ := enters_of_entered hq
  have henters : (Request.register members external).enters = true := rfl
  rw [List.countP_cons, henters, if_pos rfl] at hroom
  have hlive := h.isLive_of_entered hq
  have hstep := h.perform (q := .register members external) fun _ => by omega
  rw [hq] at hstep
  have hrest : (ids ++ (Answer.entered id).id?.toList).length + rest.countP (·.enters) < UInt32.size := by
    simp only [Answer.id?, Option.toList_some, List.length_append, List.length_singleton]
    omega
  have hafter := hstep.isLive_after hrest (List.mem_append_right _ List.mem_cons_self : id ∈ _)
  exact hafter.trans (and_iff_right hlive)

end Issuing

/-! ## The result -/

/-- In a registry that began empty, with fewer requests to enter a component than the word of an epoch has
values, no id is given out twice and none is zero; an id that was given out is good until its component is ended
and never again, other words are never good, and with a word that is not good nothing is done. The free list has
the dead entries, each once; the number of live components is that of live entries and that of the components
that were entered and not ended; and a component is refused exactly if as many are live as there may be, with
nothing done. -/
theorem ids_live_until_taken {capacity : Nat} (hcapacity : capacity < UInt32.size) {requests : List Request}
    (hroom : requests.countP (·.enters) < UInt32.size) :
    let start : ComponentRegistry := { capacity }
    let t := start.after requests
    let ids := start.issued requests
    (ids.Nodup ∧ (∀ id ∈ ids, id.word ≠ 0) ∧ (∀ id, t.isLive id = true → id ∈ ids) ∧
      ∀ before q rest id, requests = before ++ q :: rest → ((start.after before).perform q).2 = .entered id →
        (t.isLive id = true ↔ .take id ∉ rest)) ∧
    (∀ id, t.isLive id = false → t.perform (.raise id) = (t, .raised false) ∧
      t.perform (.lower id) = (t, .lowered none) ∧ t.perform (.take id) = (t, .taken none)) ∧
    (t.free.Nodup ∧ ∀ i, i ∈ t.free ↔ ∃ e, t.entries[i]? = some e ∧ e.live = false) ∧
    (t.liveCount = t.entries.countP (·.live) ∧ t.liveCount = (ids.filter t.isLive).length ∧
      t.liveCount + (start.answers requests).countP (·.ends) = ids.length) ∧
    ∀ members external, ((t.perform (.register members external)).2 = .full ↔ t.liveCount = capacity) ∧
      (t.liveCount = capacity → (t.perform (.register members external)).1 = t) := by
  intro start t ids
  have hstart : Issuing start [] 0 := .empty hcapacity
  have hend : Issuing t ids ((start.answers requests).countP (·.ends)) := by
    have hall : ([] : List ComponentId).length + requests.countP (·.enters) < UInt32.size := by simpa using hroom
    simpa using hstart.after hall
  have hfull : ∀ members external, t.register? members external = none ↔ t.liveCount = capacity := fun _ _ => by
    rw [hend.tallied.register?_eq_none_iff, capacity_after]
  refine ⟨⟨hend.nodup, fun id hid => hend.word_ne_zero hid, hend.mem_of_isLive, ?_⟩,
    fun id => perform_of_not_isLive, ⟨hend.tallied.free_nodup, fun i => hend.mem_free_iff⟩,
    ⟨hend.tallied.liveCount_eq, hend.liveCount_eq, hend.tallied.count⟩, fun members external => ⟨?_, fun hcount => ?_⟩⟩
  · rintro before q rest id rfl hq
    rw [List.countP_append] at hroom
    have hfirst : ([] : List ComponentId).length + before.countP (·.enters) < UInt32.size := by
      rw [List.length_nil]
      omega
    have hbefore : Issuing (start.after before) (start.issued before)
        ((start.answers before).countP (·.ends)) := by
      simpa using hstart.after hfirst
    have hlength := start.length_issued_le before
    show (start.after (before ++ q :: rest)).isLive id = true ↔ _
    rw [after_append]
    exact hbefore.isLive_until (by omega) hq
  · rw [← hfull members external]
    cases hreg : t.register? members external with
    | none => simp [perform_register_full hreg]
    | some new => simp [perform_register hreg]
  · rw [perform_register_full ((hfull members external).2 hcount)]

/-- The second component in an entry has an id of its own, and the first id is not good any more. -/
theorem ids_live_until_taken_reused :
    let requests : List Request := [.register [3, 4] 1, .take (.ofParts 0 1), .register [5] 1]
    let t := ({ capacity := 1 } : ComponentRegistry).after requests
    requests.countP (·.enters) < UInt32.size ∧
      ({ capacity := 1 } : ComponentRegistry).issued requests = [.ofParts 0 1, .ofParts 0 2] ∧
      t.isLive (.ofParts 0 1) = false ∧ t.isLive (.ofParts 0 2) = true ∧
      (t.perform (.register [6] 1)).2 = .full := by
  intro requests t
  have hroom : requests.countP (·.enters) < UInt32.size := by decide
  obtain ⟨⟨-, -, -, huntil⟩, -, -, -, hfull⟩ := @ids_live_until_taken 1 (by decide) requests hroom
  refine ⟨hroom, by decide +kernel, ?_, ?_, (hfull [6] 1).1.2 (by decide +kernel)⟩
  · rw [Bool.eq_false_iff, Ne, huntil [] _ _ (.ofParts 0 1) rfl (by decide +kernel)]
    decide +kernel
  · exact (huntil [_, _] _ [] (.ofParts 0 2) rfl (by decide +kernel)).2 List.not_mem_nil

end Reclamation.ComponentRegistry
