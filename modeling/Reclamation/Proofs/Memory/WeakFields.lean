import Mathlib
import Reclamation.Memory.Basic
import Reclamation.Proofs.Memory.SlotPool

/-!
# Weak fields and their list

`Memory.referrers` lists weak fields by the object they refer to. `Wired` says that the list is right:
a weak field that refers to something is listed exactly once, under the object it refers to, nothing
else is listed, and what weak fields refer to is live.

Taking an object out trusts the list: it empties the fields that are listed under the object, whatever
they are. In wired memory these are weak fields of live objects, so the strong fields of the objects
that stay are left alone and no weak field refers to the object afterwards (`object?_remove`).
-/

set_option autoImplicit false

namespace Reclamation

/-! ## Emptying fields -/

/-- The fields at some indices emptied. -/
def emptiedFields (p : Nat → Bool) (fields : List RefField) : List RefField :=
  fields.mapIdx fun i f => if p i then { f with target := none } else f

theorem getElem?_emptiedFields (p : Nat → Bool) (fields : List RefField) (i : Nat) :
    (emptiedFields p fields)[i]? =
      fields[i]?.map fun f => if p i then { f with target := none } else f := by
  simp [emptiedFields]

theorem modify_none (fields : List RefField) (index : Nat) :
    (fields.modify index fun f => { f with target := none }) = emptiedFields (· == index) fields := by
  apply List.ext_getElem?
  intro i
  rw [getElem?_emptiedFields, List.getElem?_modify]
  by_cases hi : index = i
  · simp [hi]
  · simp [hi, Ne.symm hi]

theorem emptiedFields_emptiedFields (p q : Nat → Bool) (fields : List RefField) :
    emptiedFields q (emptiedFields p fields) = emptiedFields (fun i => p i || q i) fields := by
  apply List.ext_getElem?
  intro i
  simp only [getElem?_emptiedFields, Option.map_map]
  congr 1
  funext f
  cases p i <;> cases q i <;> simp

theorem emptiedFields_congr {p q : Nat → Bool} {fields : List RefField}
    (h : ∀ i f, fields[i]? = some f → f.target ≠ none → p i = q i) :
    emptiedFields p fields = emptiedFields q fields := by
  apply List.ext_getElem?
  intro i
  simp only [getElem?_emptiedFields]
  cases hf : fields[i]? with
  | none => rfl
  | some f =>
    obtain ⟨weak, target⟩ := f
    cases target with
    | none => simp
    | some t => rw [h i _ hf (by simp)]

theorem emptiedFields_false (fields : List RefField) : emptiedFields (fun _ => false) fields = fields := by
  apply List.ext_getElem?
  intro i
  rw [getElem?_emptiedFields]
  cases fields[i]? <;> rfl

/-- The payload with the fields at some indices emptied. -/
def Payload.emptied (p : Nat → Bool) : Payload → Payload
  | .record fields => .record (emptiedFields p fields)
  | .int v => .int v
  | .float bits => .float bits

namespace Object

/-- The target of the weak field at an index. -/
def weakTarget? (o : Object) (index : Nat) : Option Ref :=
  o.fields[index]?.bind fun f => if f.weak then f.target else none

/-- The object with the fields at some indices emptied. -/
def emptied (o : Object) (p : Nat → Bool) : Object :=
  { o with payload := o.payload.emptied p }

/-- The object without its weak fields to another. -/
def forget (o : Object) (r : Ref) : Object :=
  o.emptied fun i => o.weakTarget? i == some r

theorem fields_emptied (o : Object) (p : Nat → Bool) :
    (o.emptied p).fields = emptiedFields p o.fields := by
  unfold emptied fields Payload.emptied
  cases o.payload <;> rfl

theorem setTarget_none (o : Object) (index : Nat) :
    o.setTarget index none = o.emptied (· == index) := by
  obtain ⟨⟨tag, payload, shared, symmetric⟩, _⟩ := o
  cases payload with
  | int v => rfl
  | float v => rfl
  | record fields => simp [setTarget, emptied, Payload.emptied, modify_none]

theorem emptied_emptied (o : Object) (p q : Nat → Bool) :
    (o.emptied p).emptied q = o.emptied fun i => p i || q i := by
  obtain ⟨⟨tag, payload, shared, symmetric⟩, _⟩ := o
  cases payload with
  | int v => rfl
  | float v => rfl
  | record fields => simp [emptied, Payload.emptied, emptiedFields_emptiedFields]

theorem emptied_false (o : Object) : (o.emptied fun _ => false) = o := by
  obtain ⟨⟨tag, payload, shared, symmetric⟩, _⟩ := o
  cases payload with
  | int v => rfl
  | float v => rfl
  | record fields => simp [emptied, Payload.emptied, emptiedFields_false]

theorem emptied_congr (o : Object) {p q : Nat → Bool}
    (h : ∀ i f, o.fields[i]? = some f → f.target ≠ none → p i = q i) :
    o.emptied p = o.emptied q := by
  obtain ⟨⟨tag, payload, shared, symmetric⟩, _⟩ := o
  cases payload with
  | int v => rfl
  | float v => rfl
  | record fields =>
    have hfields : emptiedFields p fields = emptiedFields q fields := emptiedFields_congr h
    simp only [emptied, Payload.emptied, hfields]

/-- Emptying weak fields leaves the strong ones alone. -/
theorem strongTargets_emptied (o : Object) {p : Nat → Bool}
    (h : ∀ i, p i = true → o.weakTarget? i ≠ none) :
    (o.emptied p).strongTargets = o.strongTargets := by
  have hmap : (emptiedFields p o.fields).map (fun f => if f.weak then none else f.target) =
      o.fields.map fun f => if f.weak then none else f.target := by
    apply List.ext_getElem?
    intro i
    simp only [List.getElem?_map, getElem?_emptiedFields]
    cases hf : o.fields[i]? with
    | none => rfl
    | some f =>
      cases hp : p i with
      | false => simp
      | true =>
        have hweak := h i hp
        cases hw : f.weak with
        | false => simp [weakTarget?, hf, hw] at hweak
        | true => simp [hw]
  have hid := congrArg (List.filterMap id) hmap
  rw [strongTargets, strongTargets, fields_emptied]
  simpa [List.filterMap_map, Function.comp_def] using hid

theorem weakTarget?_emptied (o : Object) (p : Nat → Bool) (i : Nat) :
    (o.emptied p).weakTarget? i = if p i then none else o.weakTarget? i := by
  rw [weakTarget?, weakTarget?, fields_emptied, getElem?_emptiedFields]
  cases o.fields[i]? with
  | none => simp
  | some f => cases p i <;> simp

@[simp] theorem strongTargets_forget (o : Object) (r : Ref) :
    (o.forget r).strongTargets = o.strongTargets := by
  refine strongTargets_emptied o fun i hi => ?_
  rw [beq_iff_eq] at hi
  simp [hi]

theorem weakTarget?_forget (o : Object) (r : Ref) (i : Nat) :
    (o.forget r).weakTarget? i = if o.weakTarget? i = some r then none else o.weakTarget? i := by
  simp [forget, weakTarget?_emptied]

/-- Forgetting changes fields only. -/
theorem forget_eq (o : Object) (r : Ref) : ∃ payload, o.forget r = { o with payload } :=
  ⟨_, rfl⟩

/-! ## The weak fields of one object -/

theorem mem_weakTargets {o : Object} {i : Nat} {t : Ref} :
    (i, t) ∈ o.weakTargets ↔ o.weakTarget? i = some t := by
  simp only [weakTargets, List.mem_filterMap, Prod.exists, List.mem_zipIdx_iff_getElem?, weakTarget?,
    Option.bind_eq_some_iff]
  constructor
  · rintro ⟨f, j, hf, h⟩
    split at h
    · obtain ⟨t', ht, he⟩ := Option.map_eq_some_iff.1 h
      obtain ⟨rfl, rfl⟩ := Prod.mk.inj he
      exact ⟨f, hf, by simp_all⟩
    · exact absurd h (by simp)
  · rintro ⟨f, hf, h⟩
    split at h
    · exact ⟨f, i, hf, by simp_all⟩
    · exact absurd h (by simp)

theorem weakTargets_nodup (o : Object) : o.weakTargets.Nodup := by
  have hindex : (o.weakTargets.map Prod.fst).Sublist (o.fields.zipIdx.map Prod.snd) := by
    unfold weakTargets
    generalize o.fields.zipIdx = l
    induction l with
    | nil => simp
    | cons f l ih =>
      obtain ⟨f, i⟩ := f
      rw [List.filterMap_cons, List.map_cons]
      split
      · exact ih.cons i
      · next x hx =>
        have : x.1 = i := by
          dsimp only at hx
          split at hx
          · obtain ⟨t, -, rfl⟩ := Option.map_eq_some_iff.1 hx
            rfl
          · exact absurd hx (by simp)
        rw [List.map_cons, this]
        exact ih.cons_cons i
  refine List.Nodup.of_map Prod.fst (hindex.nodup ?_)
  rw [List.zipIdx_map_snd]
  exact List.nodup_range'

end Object

namespace Memory

variable {m : Memory} {r s h t : Ref} {i : Nat} {o : Object}

/-! ## Cells -/

theorem isLive_iff : m.isLive r = true ↔ ∃ o, m.object? r = some o :=
  Option.isSome_iff_exists

theorem isLive_of_object? (ho : m.object? r = some o) : m.isLive r = true :=
  isLive_iff.2 ⟨o, ho⟩

theorem lt_size_of_isLive (hr : m.isLive r = true) : r < m.cells.size := by
  obtain ⟨o, ho⟩ := isLive_iff.1 hr
  unfold object? at ho
  by_contra hge
  rw [Array.getElem?_eq_none (Nat.le_of_not_lt hge)] at ho
  exact absurd ho (by simp)

theorem object?_update (m : Memory) (r s : Ref) (f : Object → Object) :
    (m.update r f).object? s = if s = r then (m.object? r).map f else m.object? s := by
  unfold object? update
  rw [Array.getElem?_modify]
  by_cases h : r = s
  · subst h
    rw [if_pos rfl, if_pos rfl]
    cases m.cells[r]? <;> rfl
  · rw [if_neg h, if_neg (Ne.symm h)]

/-- Changes that agree on the object in the cell. -/
theorem update_congr (ho : m.object? r = some o) {f g : Object → Object} (h : f o = g o) :
    m.update r f = m.update r g := by
  unfold update
  congr 1
  apply Array.ext_getElem?
  intro i
  rw [Array.getElem?_modify, Array.getElem?_modify]
  by_cases hi : r = i
  · subst hi
    rw [Option.join_eq_some_iff.1 ho]
    simp [h]
  · simp [hi]

theorem size_cells_update (m : Memory) (r : Ref) (f : Object → Object) :
    (m.update r f).cells.size = m.cells.size := by
  simp [update]

/-- What is never touched when objects are taken out or counts change. -/
structure Aside (m m' : Memory) : Prop where
  config : m'.config = m.config
  secret : m'.secret = m.secret
  types : m'.types = m.types
  deferred : m'.deferred = m.deferred
  arenas : m'.arenas = m.arenas
  scopes : m'.scopes = m.scopes
  size : m'.cells.size = m.cells.size
  capacity : m'.components.capacity = m.components.capacity
  machine : m'.machine = m.machine

theorem Aside.refl (m : Memory) : Aside m m :=
  ⟨rfl, rfl, rfl, rfl, rfl, rfl, rfl, rfl, rfl⟩

theorem Aside.trans {m m' m'' : Memory} (h : Aside m m') (h' : Aside m' m'') : Aside m m'' :=
  ⟨h'.config.trans h.config, h'.secret.trans h.secret, h'.types.trans h.types,
    h'.deferred.trans h.deferred, h'.arenas.trans h.arenas, h'.scopes.trans h.scopes,
    h'.size.trans h.size, h'.capacity.trans h.capacity, h'.machine.trans h.machine⟩

theorem Aside.update (m : Memory) (r : Ref) (f : Object → Object) : Aside m (m.update r f) :=
  ⟨rfl, rfl, rfl, rfl, rfl, rfl, size_cells_update m r f, rfl, rfl⟩

/-! ## The list -/

/-- The target of a weak field. -/
def weakTarget? (m : Memory) (h : Ref) (i : Nat) : Option Ref :=
  (m.object? h).bind (·.weakTarget? i)

/-- The weak fields that refer to something are listed, and nothing else is. -/
structure Wired (m : Memory) : Prop where
  listed : ∀ t h i, (m.referrers.getD t []).count (h, i) =
    if m.weakTarget? h i = some t then 1 else 0
  live : ∀ h i t, m.weakTarget? h i = some t → m.isLive t = true

theorem Wired.mem_iff (hw : Wired m) : (h, i) ∈ m.referrers.getD t [] ↔
    m.weakTarget? h i = some t := by
  rw [← List.count_pos_iff, hw.listed]
  split <;> simp_all

theorem getD_referrers_watch (m : Memory) (h : Ref) (i : Nat) (t t' : Ref) :
    (m.watch h i t).referrers.getD t' [] =
      if t' = t then (h, i) :: m.referrers.getD t [] else m.referrers.getD t' [] := by
  simp only [watch, Std.HashMap.getD_insert, beq_iff_eq]
  by_cases e : t = t'
  · simp [e]
  · simp [e, Ne.symm e]

theorem getD_referrers_unwatch (m : Memory) (h : Ref) (i : Nat) (t t' : Ref) :
    (m.unwatch h i t).referrers.getD t' [] =
      if t' = t then (m.referrers.getD t []).erase (h, i) else m.referrers.getD t' [] := by
  unfold unwatch
  dsimp only
  by_cases e : t = t'
  · subst e
    rw [if_pos rfl]
    split
    · next hempty => simp [List.isEmpty_iff.1 hempty]
    · simp
  · rw [if_neg (Ne.symm e)]
    split
    · simp [Std.HashMap.getD_erase, e]
    · simp [Std.HashMap.getD_insert, e]

/-- Taking the weak fields of a holder off the list. -/
theorem count_referrers_unwatchAll (h : Ref) : ∀ (targets : List (Nat × Ref)) (m : Memory)
    (t h' : Ref) (i : Nat),
    ((targets.foldl (fun m (index, target) => m.unwatch h index target) m).referrers.getD t []).count
      (h', i) = (m.referrers.getD t []).count (h', i) - if h' = h then targets.count (i, t) else 0
  | [], m, t, h', i => by simp
  | (j, u) :: targets, m, t, h', i => by
    rw [List.foldl_cons, count_referrers_unwatchAll h targets, getD_referrers_unwatch]
    by_cases hh : h' = h
    · subst hh
      rw [if_pos rfl, if_pos rfl, List.count_cons]
      by_cases ht : t = u
      · subst ht
        rw [if_pos rfl, List.count_erase]
        simp only [beq_iff_eq, Prod.mk.injEq, true_and, and_true]
        split <;> omega
      · rw [if_neg ht]
        have : ¬ (j, u) = (i, t) := fun e => ht (Prod.mk.inj e).2.symm
        simp [this]
    · rw [if_neg hh, if_neg hh]
      split
      · next ht =>
        subst ht
        rw [List.count_erase]
        simp [Ne.symm hh]
      · rfl

/-! ## Taking an object out -/

theorem object?_clearAll : ∀ (fields : List (Ref × Nat)) (m : Memory) (s : Ref),
    (fields.foldl (fun m (holder, index) => m.update holder (·.setTarget index none)) m).object? s =
      (m.object? s).map (·.emptied fun i => (s, i) ∈ fields)
  | [], m, s => by
    rw [List.foldl_nil]
    cases m.object? s with
    | none => rfl
    | some o => simp [Object.emptied_false]
  | (h, i) :: fields, m, s => by
    rw [List.foldl_cons, object?_clearAll fields, object?_update]
    by_cases hs : s = h
    · subst hs
      rw [if_pos rfl]
      cases m.object? s with
      | none => rfl
      | some o =>
        simp only [Option.map_some, Object.setTarget_none, Object.emptied_emptied, Option.some.injEq]
        congr 1
        funext j
        by_cases hj : j = i <;> simp [hj]
    · rw [if_neg hs]
      cases m.object? s with
      | none => rfl
      | some o => simp [hs]

theorem object?_clearReferrers (hw : Wired m) (r s : Ref) :
    (m.clearReferrers r).object? s = (m.object? s).map (·.forget r) := by
  unfold clearReferrers
  dsimp only
  rw [object?_clearAll]
  show (m.object? s).map _ = _
  cases ho : m.object? s with
  | none => rfl
  | some o =>
    simp only [Option.map_some, Option.some.injEq]
    refine Object.emptied_congr o fun i _ _ _ => ?_
    have := hw.mem_iff (t := r) (h := s) (i := i)
    rw [weakTarget?, ho, Option.bind_some] at this
    rw [Bool.eq_iff_iff]
    simp [this]

theorem referrers_clearReferrers (m : Memory) (r : Ref) :
    (m.clearReferrers r).referrers = m.referrers.erase r := by
  unfold clearReferrers
  dsimp only
  generalize m.referrers.getD r [] = fields
  suffices h : ∀ (fields : List (Ref × Nat)) (n : Memory),
      (fields.foldl (fun m (holder, index) => m.update holder (·.setTarget index none)) n).referrers =
        n.referrers from h fields _
  intro fields
  induction fields with
  | nil => exact fun n => rfl
  | cons f rest ih => exact fun n => (ih _).trans rfl

theorem Aside.clearReferrers (m : Memory) (r : Ref) : Aside m (m.clearReferrers r) := by
  unfold Memory.clearReferrers
  dsimp only
  generalize m.referrers.getD r [] = fields
  suffices h : ∀ (fields : List (Ref × Nat)) (n : Memory), Aside n
      (fields.foldl (fun m (holder, index) => m.update holder (·.setTarget index none)) n) by
    refine Aside.trans ?_ (h fields _)
    exact ⟨rfl, rfl, rfl, rfl, rfl, rfl, rfl, rfl, rfl⟩
  intro fields
  induction fields with
  | nil => exact fun n => .refl n
  | cons f rest ih => exact fun n => (Aside.update n _ _).trans (ih _)

theorem pool_clearReferrers (m : Memory) (r : Ref) : (m.clearReferrers r).pool = m.pool := by
  unfold clearReferrers
  dsimp only
  generalize m.referrers.getD r [] = fields
  suffices h : ∀ (fields : List (Ref × Nat)) (n : Memory),
      (fields.foldl (fun m (holder, index) => m.update holder (·.setTarget index none)) n).pool =
        n.pool from h fields _
  intro fields
  induction fields with
  | nil => exact fun n => rfl
  | cons f rest ih => exact fun n => (ih _).trans rfl

/-- Taking fields off the list changes nothing but the list. -/
theorem unwatchAll_eq (h : Ref) : ∀ (targets : List (Nat × Ref)) (m : Memory),
    ∃ referrers, targets.foldl (fun m (index, target) => m.unwatch h index target) m =
      { m with referrers }
  | [], m => ⟨m.referrers, rfl⟩
  | (j, u) :: targets, m => by
    obtain ⟨referrers, he⟩ := unwatchAll_eq h targets (m.unwatch h j u)
    exact ⟨referrers, he⟩

theorem vacate_eq (m : Memory) (r : Ref) (origin : Origin) : ∃ stats,
    m.vacate r origin = { m with
      cells := m.cells.setIfInBounds r none
      pool := if origin = .slot then m.pool.giveBack r else m.pool
      stats } := by
  cases origin <;> exact ⟨_, rfl⟩

/-- Memory after an object is taken out, up to statistics. -/
theorem remove_eq (ho : m.object? r = some o) : ∃ referrers stats,
    m.remove r = { m.clearReferrers r with
      cells := (m.clearReferrers r).cells.setIfInBounds r none
      referrers
      pool := if o.origin = .slot then m.pool.giveBack r else m.pool
      stats } ∧
    ∀ t h i, (referrers.getD t []).count (h, i) =
      ((m.referrers.erase r).getD t []).count (h, i) -
        if h = r then o.weakTargets.count (i, t) else 0 := by
  obtain ⟨referrers, he⟩ := unwatchAll_eq r o.weakTargets (m.clearReferrers r)
  have hcount := count_referrers_unwatchAll r o.weakTargets (m.clearReferrers r)
  rw [he, referrers_clearReferrers] at hcount
  obtain ⟨stats, hv⟩ := vacate_eq { m.clearReferrers r with referrers } r o.origin
  refine ⟨referrers, stats, ?_, hcount⟩
  rw [remove, ho]
  dsimp only
  rw [he, hv, ← pool_clearReferrers m r]

theorem Aside.remove (m : Memory) (r : Ref) : Aside m (m.remove r) := by
  cases ho : m.object? r with
  | none =>
    have : m.remove r = m := by rw [Memory.remove, ho]
    rw [this]
    exact .refl m
  | some o =>
    obtain ⟨referrers, stats, he, -⟩ := remove_eq ho
    have hclear := Aside.clearReferrers m r
    rw [he]
    refine ⟨hclear.config, hclear.secret, hclear.types, hclear.deferred, hclear.arenas, hclear.scopes,
      by simpa using hclear.size, hclear.capacity, ?_⟩
    show (if o.origin = .slot then m.pool.giveBack r else m.pool).machine = m.pool.machine
    split
    · exact SlotPool.machine_giveBack m.pool r
    · rfl

theorem pool_remove (ho : m.object? r = some o) :
    (m.remove r).pool = if o.origin = .slot then m.pool.giveBack r else m.pool := by
  obtain ⟨referrers, stats, he, -⟩ := remove_eq ho
  rw [he]

theorem stats_clearReferrers (m : Memory) (r : Ref) :
    ∃ weakCleared, (m.clearReferrers r).stats = { m.stats with weakCleared } := by
  unfold clearReferrers
  dsimp only
  exact List.foldlRecOn (motive := fun n : Memory => ∃ weakCleared, n.stats = { m.stats with weakCleared }) _ _
    ⟨_, rfl⟩ fun _ hn _ _ => hn

/-- An object that is counted is freed. -/
theorem stats_remove (ho : m.object? r = some o) (harena : o.arena? = none) : ∃ weakCleared,
    (m.remove r).stats = { m.stats with freed := m.stats.freed + 1, weakCleared } := by
  obtain ⟨referrers, he⟩ := unwatchAll_eq r o.weakTargets (m.clearReferrers r)
  obtain ⟨weakCleared, hstats⟩ := stats_clearReferrers m r
  refine ⟨weakCleared, ?_⟩
  have hvacate : ∀ n : Memory, (n.vacate r o.origin).stats = { n.stats with freed := n.stats.freed + 1 } := by
    intro n
    unfold Object.arena? at harena
    cases horigin : o.origin with
    | arena id =>
      rw [horigin] at harena
      exact absurd harena (by simp)
    | heap => rfl
    | slot => rfl
  rw [remove, ho]
  dsimp only
  rw [he, hvacate]
  dsimp only
  rw [hstats]

/-- The object is gone, and the others have forgotten it. -/
theorem object?_remove (hw : Wired m) (hr : m.isLive r = true) (s : Ref) :
    (m.remove r).object? s = if s = r then none else (m.object? s).map (·.forget r) := by
  obtain ⟨o, ho⟩ := isLive_iff.1 hr
  obtain ⟨referrers, stats, he, -⟩ := remove_eq ho
  have hclear := object?_clearReferrers hw r s
  rw [he]
  unfold object? at hclear ⊢
  dsimp only
  rw [Array.getElem?_setIfInBounds]
  by_cases hs : r = s
  · subst hs
    rw [if_pos rfl, if_pos rfl]
    split <;> rfl
  · rw [if_neg hs, if_neg (Ne.symm hs), hclear]

theorem weakTarget?_remove (hw : Wired m) (hr : m.isLive r = true) (h : Ref) (i : Nat) :
    (m.remove r).weakTarget? h i =
      if h = r ∨ m.weakTarget? h i = some r then none else m.weakTarget? h i := by
  unfold weakTarget?
  rw [object?_remove hw hr]
  by_cases hh : h = r
  · simp [hh]
  · rw [if_neg hh]
    cases m.object? h with
    | none => simp
    | some o => simp [Object.weakTarget?_forget, hh]

theorem isLive_remove (hw : Wired m) (hr : m.isLive r = true) (s : Ref) :
    (m.remove r).isLive s = true ↔ s ≠ r ∧ m.isLive s = true := by
  unfold isLive
  rw [object?_remove hw hr]
  by_cases hs : s = r
  · simp [hs]
  · simp [hs]

theorem Wired.remove (hw : Wired m) (hr : m.isLive r = true) : Wired (m.remove r) := by
  obtain ⟨o, ho⟩ := isLive_iff.1 hr
  obtain ⟨referrers, stats, he, hcount⟩ := remove_eq ho
  have hlist : (m.remove r).referrers = referrers := by rw [he]
  refine ⟨fun t h i => ?_, fun h i t ht => ?_⟩
  · rw [hlist, hcount, weakTarget?_remove hw hr]
    have hown : ∀ t i, o.weakTargets.count (i, t) = if m.weakTarget? r i = some t then 1 else 0 := by
      intro t i
      have hmem := Object.mem_weakTargets (o := o) (i := i) (t := t)
      have : m.weakTarget? r i = o.weakTarget? i := by simp [weakTarget?, ho]
      rw [this, (Object.weakTargets_nodup o).count]
      simp only [hmem]
    rw [Std.HashMap.getD_erase]
    by_cases ht : r = t
    · subst ht
      rw [if_pos (by simp), List.count_nil, Nat.zero_sub]
      by_cases hc : h = r ∨ m.weakTarget? h i = some r
      · rw [if_pos hc, if_neg (by simp)]
      · rw [if_neg hc, if_neg fun e => hc (.inr e)]
    · rw [if_neg (by simpa using ht), hw.listed, hown]
      by_cases hh : h = r
      · subst hh
        simp
      · rw [if_neg hh, Nat.sub_zero]
        by_cases hc : m.weakTarget? h i = some r
        · have : ¬ m.weakTarget? h i = some t := by
            rw [hc]
            exact fun e => ht (Option.some.inj e)
          simp [hc, ht]
        · simp [hh, hc]
  · rw [weakTarget?_remove hw hr] at ht
    split at ht
    · exact absurd ht (by simp)
    · next hc =>
      push Not at hc
      refine (isLive_remove hw hr t).2 ⟨fun e => ?_, hw.live h i t ht⟩
      rw [e] at ht
      exact hc.2 ht

end Memory

end Reclamation
