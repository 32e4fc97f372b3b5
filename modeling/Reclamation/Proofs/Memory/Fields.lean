import Mathlib
import Reclamation.Memory.References
import Reclamation.Proofs.Memory.Tracing

/-!
# Writing fields

A weak field is not counted: writing it changes its holder and the list of weak fields, and memory is
as if no object had been taken out (`Without.writeWeak`). A strong field is: what it refers to
afterwards is taken off the ledger of references under way, and what it referred to before is put onto
it, so that the references and that ledger together stay the same (`references_setTarget`). Only a
field of an object that belongs to no component can be written, since the others are frozen.
-/

set_option autoImplicit false

namespace Reclamation

/-! ## One object -/

namespace Object

variable {o : Object} {index : Nat} {f : RefField} {target : Option Ref}

theorem fields_setTarget (o : Object) (index : Nat) (target : Option Ref) :
    (o.setTarget index target).fields = o.fields.modify index fun f => { f with target } := by
  obtain ⟨⟨tag, payload, shared, symmetric⟩, _⟩ := o
  cases payload with
  | int v => simp [setTarget, fields]
  | float v => simp [setTarget, fields]
  | record fs => rfl

theorem setTarget_eq (o : Object) (index : Nat) (target : Option Ref) :
    ∃ payload, o.setTarget index target = { o with payload } := by
  obtain ⟨⟨tag, payload, shared, symmetric⟩, _⟩ := o
  cases payload <;> exact ⟨_, rfl⟩

theorem target?_of_field (hf : o.fields[index]? = some f) : o.target? index = f.target := by
  rw [target?, hf]
  rfl

theorem mem_strongTargets_iff {x : Ref} : x ∈ o.strongTargets ↔
    ∃ (i : Nat) (f : RefField), o.fields[i]? = some f ∧ f.weak = false ∧ f.target = some x := by
  rw [strongTargets, List.mem_filterMap]
  constructor
  · rintro ⟨f, hf, hx⟩
    obtain ⟨i, hi⟩ := List.mem_iff_getElem?.1 hf
    refine ⟨i, f, hi, ?_⟩
    split at hx
    · exact absurd hx (by simp)
    · next hweak => exact ⟨by simpa using hweak, hx⟩
  · rintro ⟨i, f, hf, hweak, hx⟩
    exact ⟨f, List.mem_of_getElem? hf, by simp [hweak, hx]⟩

theorem coe_filterMap_cons (g : RefField → Option Ref) (a : RefField) (fields : List RefField) :
    (((a :: fields).filterMap g : List Ref) : Multiset Ref) = ↑(g a).toList + ↑(fields.filterMap g) := by
  rw [List.filterMap_cons]
  cases g a with
  | none => simp
  | some t => simp

/-- The strong fields of a list with one field written. -/
theorem filterMap_modify {g : RefField → Option Ref}
    (hg : ∀ f, g f = if f.weak then none else f.target) (target : Option Ref) :
    ∀ (fields : List RefField) (index : Nat) (f : RefField), fields[index]? = some f →
      f.weak = false →
        (((fields.modify index fun f => { f with target }).filterMap g : List Ref) : Multiset Ref) +
          ↑f.target.toList = ↑(fields.filterMap g) + ↑target.toList := by
  intro fields
  induction fields with
  | nil =>
    intro index f hf
    exact absurd hf (by simp)
  | cons a fields ih =>
    intro index f hf hweak
    cases index with
    | zero =>
      obtain rfl : a = f := by simpa using hf
      have hold : g a = a.target := by rw [hg, hweak]; rfl
      have hnew : g { a with target } = target := by rw [hg]; simp [hweak]
      rw [List.modify_zero_cons, coe_filterMap_cons, coe_filterMap_cons, hold, hnew]
      abel
    | succ index =>
      have ih := ih index f (by simpa using hf) hweak
      rw [List.modify_succ_cons, coe_filterMap_cons, coe_filterMap_cons, add_assoc, ih, add_assoc]

/-- What a strong field refers to comes instead of what it referred to. -/
theorem strongTargets_setTarget (hf : o.fields[index]? = some f) (hweak : f.weak = false)
    (target : Option Ref) :
    ((o.setTarget index target).strongTargets : Multiset Ref) + ↑f.target.toList =
      ↑o.strongTargets + ↑target.toList := by
  rw [strongTargets, strongTargets, fields_setTarget]
  exact filterMap_modify (fun _ => rfl) target o.fields index f hf hweak

theorem strongTargets_setTarget_of_weak (hf : o.fields[index]? = some f) (hweak : f.weak = true)
    (target : Option Ref) : (o.setTarget index target).strongTargets = o.strongTargets := by
  have hmap : (o.fields.modify index fun f => { f with target }).map
      (fun f => if f.weak then none else f.target) =
        o.fields.map fun f => if f.weak then none else f.target := by
    apply List.ext_getElem?
    intro i
    simp only [List.getElem?_map, List.getElem?_modify]
    by_cases hi : index = i
    · subst hi
      simp [hf, hweak]
    · simp [hi]
  have hid : ∀ l : List RefField, l.filterMap (fun f => if f.weak then none else f.target) =
      (l.map fun f => if f.weak then none else f.target).filterMap id := fun l => by
    rw [List.filterMap_map]
    rfl
  rw [strongTargets, strongTargets, fields_setTarget, hid, hid, hmap]

theorem weakTarget?_setTarget (hf : o.fields[index]? = some f) (target : Option Ref) (i : Nat) :
    (o.setTarget index target).weakTarget? i =
      if i = index ∧ f.weak = true then target else o.weakTarget? i := by
  rw [weakTarget?, weakTarget?, fields_setTarget, List.getElem?_modify]
  by_cases hi : index = i
  · subst hi
    cases hweak : f.weak <;> simp [hf, hweak]
  · simp [hi, Ne.symm hi]

theorem weakTarget?_of_field (hf : o.fields[index]? = some f) :
    o.weakTarget? index = if f.weak then f.target else none := by
  rw [weakTarget?, hf]
  rfl

/-- A field that refers to something is a weak one or a strong one. -/
theorem target_cases {t : Ref} (h : o.target? index = some t) :
    o.weakTarget? index = some t ∨ t ∈ o.strongTargets := by
  obtain ⟨f, hf, ht⟩ := Option.bind_eq_some_iff.1 h
  cases hweak : f.weak with
  | true => exact .inl (by rw [weakTarget?_of_field hf, if_pos hweak, ht])
  | false => exact .inr (mem_strongTargets_iff.2 ⟨index, f, hf, hweak, ht⟩)

end Object

namespace Memory

variable {m : Memory} {r : Ref} {o : Object} {index : Nat} {f : RefField} {target : Option Ref}

theorem isLive_update_iff {g : Object → Object} {x : Ref} :
    (m.update r g).isLive x = true ↔ m.isLive x = true := by
  rw [isLive_update]

theorem weakTarget?_update_setTarget (ho : m.object? r = some o) (hf : o.fields[index]? = some f)
    (target : Option Ref) (h : Ref) (i : Nat) :
    (m.update r (·.setTarget index target)).weakTarget? h i =
      if h = r ∧ i = index ∧ f.weak = true then target else m.weakTarget? h i := by
  rw [weakTarget?, object?_update]
  by_cases hh : h = r
  · subst hh
    simp only [↓reduceIte, ho, Option.map_some, Option.bind_some, true_and, weakTarget?]
    exact Object.weakTarget?_setTarget hf target i
  · simp [hh, weakTarget?]

theorem Housed.setTarget (h : Housed m) (r : Ref) (index : Nat) (target : Option Ref) :
    Housed (m.update r (·.setTarget index target)) :=
  h.update r fun o => by
    obtain ⟨payload, he⟩ := o.setTarget_eq index target
    rw [he]

theorem no_arena_setTarget (h : ∀ x o, m.object? x = some o → o.arena? = none) (r : Ref)
    (index : Nat) (target : Option Ref) : ∀ x o,
      (m.update r (·.setTarget index target)).object? x = some o → o.arena? = none := by
  intro x o' ho'
  rw [object?_update] at ho'
  split at ho'
  · obtain ⟨o, ho, rfl⟩ := Option.map_eq_some_iff.1 ho'
    obtain ⟨payload, he⟩ := o.setTarget_eq index target
    rw [he]
    exact h r o ho
  · exact h x o' ho'

/-! ## Weak fields -/

/-- Writing a weak field changes its holder and the list. -/
theorem writeWeak_eq (m : Memory) (r : Ref) (index : Nat) (old target : Option Ref) : ∃ referrers,
    m.writeWeak r index old target = { m.update r (·.setTarget index target) with referrers } ∧
      ∀ t h i, (referrers.getD t []).count (h, i) = (m.referrers.getD t []).count (h, i) -
        (if old = some t ∧ (r, index) = (h, i) then 1 else 0) +
          (if target = some t ∧ (r, index) = (h, i) then 1 else 0) := by
  -- first the old target loses the field
  have hun : ∀ n : Memory, ∃ referrers, old.elim n (fun t => n.unwatch r index t) =
      { n with referrers } ∧ ∀ t h i, (referrers.getD t []).count (h, i) =
        (n.referrers.getD t []).count (h, i) -
          (if old = some t ∧ (r, index) = (h, i) then 1 else 0) := by
    intro n
    cases old with
    | none => exact ⟨n.referrers, rfl, by simp⟩
    | some u =>
      refine ⟨_, rfl, fun t h i => ?_⟩
      have hget := getD_referrers_unwatch n r index u t
      unfold unwatch at hget
      dsimp only at hget
      rw [hget]
      by_cases ht : t = u
      · rw [if_pos ht, List.count_erase, ht]
        simp
      · rw [if_neg ht]
        simp [Ne.symm ht]
  obtain ⟨referrers, he, hcount⟩ := hun (m.update r (·.setTarget index target))
  unfold writeWeak
  dsimp only
  rw [he]
  cases target with
  | none => exact ⟨referrers, rfl, fun t h i => by rw [hcount]; simp [update]⟩
  | some u =>
    refine ⟨_, rfl, fun t h i => ?_⟩
    have hget := getD_referrers_watch { m.update r (·.setTarget index (some u)) with referrers } r
      index u t
    unfold watch at hget
    dsimp only at hget
    rw [hget]
    by_cases ht : t = u
    · rw [if_pos ht, List.count_cons, ht, hcount]
      simp [update]
    · rw [if_neg ht, hcount]
      simp [update, Ne.symm ht]

theorem Wired.writeWeak (h : Wired m) (ho : m.object? r = some o) (hf : o.fields[index]? = some f)
    (hweak : f.weak = true) (htarget : ∀ t, target = some t → m.isLive t = true) :
    Wired (m.writeWeak r index f.target target) := by
  obtain ⟨referrers, he, hcount⟩ := m.writeWeak_eq r index f.target target
  have hnow : m.weakTarget? r index = f.target := by
    rw [weakTarget?, ho, Option.bind_some, Object.weakTarget?_of_field hf, hweak]
    rfl
  have hweakTarget : ∀ x i, (m.writeWeak r index f.target target).weakTarget? x i =
      if x = r ∧ i = index then target else m.weakTarget? x i := fun x i => by
    have := weakTarget?_update_setTarget ho hf target x i
    rw [hweak] at this
    rw [he]
    simpa [weakTarget?, object?] using this
  have hlist : (m.writeWeak r index f.target target).referrers = referrers := by rw [he]
  refine ⟨fun t x i => ?_, fun x i t ht => ?_⟩
  · rw [hlist, hcount, h.listed, hweakTarget]
    by_cases hx : x = r ∧ i = index
    · obtain ⟨rfl, rfl⟩ := hx
      simp [hnow]
    · have hne : ¬ (r, index) = (x, i) := fun e => by
        obtain ⟨rfl, rfl⟩ := Prod.mk.inj e
        exact hx ⟨rfl, rfl⟩
      simp [hx, hne]
  · have hlive : m.isLive t = true := by
      rw [hweakTarget] at ht
      split at ht
      · exact htarget t ht
      · exact h.live x i t ht
    rw [he]
    exact isLive_update_iff.2 hlive

theorem Tidy.writeWeak (h : Tidy m) (ho : m.object? r = some o) (hf : o.fields[index]? = some f)
    (hweak : f.weak = true) (htarget : ∀ t, target = some t → m.isLive t = true) :
    Tidy (m.writeWeak r index f.target target) := by
  have hwired := h.wired.writeWeak ho hf hweak htarget
  obtain ⟨referrers, he, -⟩ := m.writeWeak_eq r index f.target target
  rw [he] at hwired ⊢
  have hhoused := h.housed.setTarget r index target
  exact ⟨hwired, ⟨hhoused.pool, hhoused.inUse_iff, hhoused.slot_lt, hhoused.slot_only⟩, h.registry,
    no_arena_setTarget h.no_arena r index target⟩

/-- All objects stay what they are but for a weak field. -/
theorem Without.writeWeak (ho : m.object? r = some o) (hf : o.fields[index]? = some f)
    (hweak : f.weak = true) (target : Option Ref) :
    Without [] m (m.writeWeak r index f.target target) := by
  obtain ⟨referrers, he, -⟩ := m.writeWeak_eq r index f.target target
  have halike : o.Alike (o.setTarget index target) :=
    ⟨o.setTarget_eq index target, Object.strongTargets_setTarget_of_weak hf hweak target⟩
  have hobject : ∀ x, (m.writeWeak r index f.target target).object? x =
      if x = r then some (o.setTarget index target) else m.object? x := fun x => by
    rw [he]
    have := object?_update m r x (·.setTarget index target)
    rw [ho] at this
    exact this
  refine ⟨by simp, fun x _ o' ho' => ?_, fun x o' ho' => ?_, by rw [he]; rfl, ?_, ?_⟩
  · rw [hobject]
    split
    · next e =>
      subst e
      obtain rfl := Option.some.inj (ho.symm.trans ho')
      exact ⟨_, rfl, halike⟩
    · exact ⟨o', ho', .refl o'⟩
  · rw [hobject] at ho'
    split at ho'
    · next e =>
      subst e
      obtain rfl := Option.some.inj ho'
      exact ⟨by simp, o, ho, halike⟩
    · exact ⟨by simp, o', ho', .refl o'⟩
  · rw [he]
    exact ⟨rfl, rfl, rfl, rfl, rfl, rfl, by simp [update], rfl, rfl⟩
  · rw [he]
    exact .of_pool rfl

/-! ## Strong fields -/

/-- With one object changed its references are different ones. -/
theorem referencesOutside_update {g : Object → Object} {group : List Ref}
    (ho : m.object? r = some o) (hr : r ∉ group) :
    (m.update r g).referencesOutside group + ↑o.strongTargets =
      m.referencesOutside group + ↑(g o).strongTargets := by
  have hmem : r ∈ (Finset.range m.cells.size).filter (· ∉ group) := by
    rw [Finset.mem_filter, Finset.mem_range]
    exact ⟨lt_size_of_isLive (isLive_of_object? ho), hr⟩
  have hobject : (m.update r g).object? r = some (g o) := by
    rw [object?_update, if_pos rfl, ho]
    rfl
  have hrest : ∀ x ∈ ((Finset.range m.cells.size).filter (· ∉ group)).erase r,
      (m.update r g).strongTargets x = m.strongTargets x := fun x hx => by
    rw [strongTargets, strongTargets, object?_update, if_neg (Finset.ne_of_mem_erase hx)]
  rw [referencesOutside, referencesOutside, size_cells_update,
    ← Finset.add_sum_erase _ _ hmem, ← Finset.add_sum_erase _ _ hmem,
    strongTargets_of_object? hobject, strongTargets_of_object? ho,
    Finset.sum_congr rfl fun x hx => by rw [hrest x hx]]
  abel

/-- The references and what is under way stay the same. -/
theorem references_setTarget {group : List Ref} (ho : m.object? r = some o)
    (hf : o.fields[index]? = some f) (hweak : f.weak = false) (hr : r ∉ group) :
    (m.update r (·.setTarget index target)).referencesOutside group + ↑f.target.toList =
      m.referencesOutside group + ↑target.toList := by
  have hsum := referencesOutside_update (g := (·.setTarget index target)) ho hr
  have hone := Object.strongTargets_setTarget hf hweak target
  refine add_right_cancel (b := (o.strongTargets : Multiset Ref)) ?_
  rw [add_right_comm, hsum, add_assoc, hone]
  abel

theorem count_references_setTarget (ho : m.object? r = some o) (hf : o.fields[index]? = some f)
    (hweak : f.weak = false) (outer : Multiset Ref) (x : Ref) :
    (outer + ↑f.target.toList + (m.update r (·.setTarget index target)).references).count x =
      (outer + ↑target.toList + m.references).count x := by
  have hsame : (m.update r (·.setTarget index target)).referencesOutside [] + ↑f.target.toList =
      m.referencesOutside [] + ↑target.toList := references_setTarget ho hf hweak List.not_mem_nil
  have hcount := congrArg (Multiset.count x) hsame
  simp only [references, Multiset.count_add] at hcount ⊢
  omega

theorem object?_setTarget_forth {x : Ref} {o : Object} (ho : m.object? x = some o) :
    ∃ payload, (m.update r (·.setTarget index target)).object? x = some { o with payload } := by
  obtain ⟨payload, he⟩ := o.setTarget_eq index target
  rw [object?_update]
  split
  · next hx => exact ⟨payload, by rw [← hx, ho, Option.map_some, he]⟩
  · exact ⟨o.payload, ho⟩

theorem object?_setTarget_back {x : Ref} {o' : Object}
    (ho' : (m.update r (·.setTarget index target)).object? x = some o') :
    ∃ o payload, m.object? x = some o ∧ o' = { o with payload } := by
  rw [object?_update] at ho'
  split at ho'
  · next hx =>
    obtain ⟨o, ho, rfl⟩ := Option.map_eq_some_iff.1 ho'
    obtain ⟨payload, he⟩ := o.setTarget_eq index target
    exact ⟨o, payload, hx ▸ ho, he⟩
  · exact ⟨o', o'.payload, ho', rfl⟩

theorem Tidy.writeStrong (h : Tidy m) (ho : m.object? r = some o) (hf : o.fields[index]? = some f)
    (hweak : f.weak = false) (target : Option Ref) :
    Tidy (m.update r (·.setTarget index target)) where
  wired := h.wired.of_weakTargets rfl
    (fun x i => by rw [weakTarget?_update_setTarget ho hf]; simp [hweak])
    fun x hx => isLive_update_iff.2 hx
  housed := h.housed.setTarget r index target
  registry := h.registry
  no_arena := no_arena_setTarget h.no_arena r index target

end Memory

namespace Balanced

open Memory

variable {s : Release} {outer : Multiset Ref} {r : Ref} {o : Object} {index : Nat} {f : RefField}
  {target : Option Ref}

/-- What fields refer to afterwards they referred to before, or it was under way. -/
theorem isLive_of_mem_setTarget (h : Balanced s outer ↑target.toList) (ho : s.memory.object? r = some o)
    (hf : o.fields[index]? = some f) (hweak : f.weak = false) {x : Ref}
    (hx : x ∈ (s.memory.update r (·.setTarget index target)).references + ↑f.target.toList) :
    s.memory.isLive x = true := by
  rw [references, references_setTarget ho hf hweak List.not_mem_nil] at hx
  rcases Multiset.mem_add.1 hx with hx | hx
  · obtain ⟨y, hxy⟩ := mem_references.1 hx
    exact h.targets_live y x hxy
  · exact h.ledger_live x (Multiset.mem_add.2 (.inr hx))

/-- A strong field takes the reference that is under way, and what it referred to is under way. -/
theorem setTarget (h : Balanced s outer ↑target.toList) (ho : s.memory.object? r = some o)
    (hf : o.fields[index]? = some f) (hweak : f.weak = false) (hcomp : o.component = none) :
    Balanced { s with memory := s.memory.update r (·.setTarget index target) } outer
      ↑f.target.toList where
  tidy := h.tidy.writeStrong ho hf hweak target
  targets_live y x hx := by
    refine isLive_update_iff.2 (h.isLive_of_mem_setTarget ho hf hweak (Multiset.mem_add.2 (.inl ?_)))
    exact mem_references.2 ⟨y, hx⟩
  ledger_live x hx := by
    rw [isLive_update]
    rcases Multiset.mem_add.1 hx with hx | hx
    · exact h.ledger_live x (Multiset.mem_add.2 (.inl hx))
    · exact h.isLive_of_mem_setTarget ho hf hweak (Multiset.mem_add.2 (.inr hx))
  plain x o' ho' hs hc hw := by
    obtain ⟨o₁, payload, ho₁, rfl⟩ := object?_setTarget_back ho'
    rw [count_references_setTarget ho hf hweak]
    exact h.plain x o₁ ho₁ hs hc hw
  plain_due x o' ho' hs hc := by
    obtain ⟨o₁, payload, ho₁, rfl⟩ := object?_setTarget_back ho'
    rw [count_references_setTarget ho hf hweak]
    exact h.plain_due x o₁ ho₁ hs hc
  symmetric x o' ho' hs := by
    obtain ⟨o₁, payload, ho₁, rfl⟩ := object?_setTarget_back ho'
    obtain ⟨hc, hcount, hinternal⟩ := h.symmetric x o₁ ho₁ hs
    have hrefs : (0 + ↑f.target.toList +
        (s.memory.update r (·.setTarget index target)).references).count x =
          (0 + ↑target.toList + s.memory.references).count x := count_references_setTarget ho hf hweak 0 x
    rw [zero_add, zero_add] at hrefs
    exact ⟨hc, hcount, hinternal.trans hrefs.symm⟩
  member x o' id ho' hc := by
    obtain ⟨o₁, payload, ho₁, rfl⟩ := object?_setTarget_back ho'
    exact h.member x o₁ id ho₁ hc
  component id e he := by
    refine (h.component id e he).of_members fun x hx o' ho' _ => ⟨o', ?_, rfl, rfl, rfl, rfl⟩
    rw [object?_update, if_neg fun hxr : x = r => h.notMem_members ho hcomp he (hxr ▸ hx), ho']
  external id e he := by
    rw [h.external id e he, add_assoc, add_assoc, add_comm (target.toList : Multiset Ref),
      ← references_setTarget ho hf hweak (h.notMem_members ho hcomp he),
      add_comm _ (f.target.toList : Multiset Ref)]
  external_due := h.external_due
  work_nodup := h.work_nodup
  work_object x hx := by
    obtain ⟨o₁, ho₁, hs, hc⟩ := h.work_object x hx
    obtain ⟨payload, ho'⟩ := object?_setTarget_forth ho₁
    exact ⟨_, ho', hs, hc⟩
  work_component := h.work_component
  candidates x hx := by
    obtain ⟨o₁, ho₁, hs⟩ := h.candidates x hx
    obtain ⟨payload, ho'⟩ := object?_setTarget_forth ho₁
    exact ⟨_, ho', hs⟩
  stale := h.stale

end Balanced

/-! ## Writing a field of settled memory -/

namespace Traced

open Memory

variable {s : Release} {extra : Multiset Ref} {r : Ref} {o : Object} {index : Nat} {f : RefField}

/-- What a strong field no longer refers to is rooted by being under way. -/
theorem setTarget (h : Traced s 0) (ho : s.memory.object? r = some o)
    (hf : o.fields[index]? = some f) (hweak : f.weak = false) (target : Option Ref) :
    Traced { s with memory := s.memory.update r (·.setTarget index target) } ↑f.target.toList := by
  obtain ⟨payload, hpayload⟩ := o.setTarget_eq index target
  refine h.mono (fun a ha _ => ha.imp_right fun ha => absurd ha (Multiset.notMem_zero a))
    (fun y a ha => ?_) fun a ha => .inl ?_
  · by_cases hy : y = r
    · subst hy
      rw [strongTargets_of_object? ho] at ha
      have hobject : (s.memory.update y (·.setTarget index target)).object? y =
          some (o.setTarget index target) := by
        rw [object?_update, if_pos rfl, ho]
        rfl
      have hmem : a ∈ ((o.setTarget index target).strongTargets : Multiset Ref) +
          ↑f.target.toList := by
        rw [Object.strongTargets_setTarget hf hweak]
        exact Multiset.mem_add.2 (.inl ha)
      rcases Multiset.mem_add.1 hmem with hmem | hmem
      · exact .inl (by rw [strongTargets_of_object? hobject]; exact hmem)
      · exact .inr (.inr hmem)
    · refine .inl ?_
      rw [strongTargets, object?_update, if_neg hy]
      exact ha
  · rcases isUnowned_update ho ha with ⟨rfl, hs, hc⟩ | ⟨-, ha⟩
    · rw [hpayload] at hs hc
      exact isUnowned_iff.2 ⟨o, ho, hs, hc⟩
    · exact ha

/-- Taking a reference makes no object unowned. -/
theorem acquire (h : Traced s extra) (hroom : ∀ o, s.memory.object? r = some o →
    o.symmetric = true → o.count.toNat + 1 < UInt32.size) :
    Traced { s with memory := s.memory.acquire r } extra := by
  refine h.mono (fun a ha _ => ha)
    (fun y a ha => .inl (by rwa [(recounted_acquire s.memory r).strongTargets])) fun a ha => .inl ?_
  dsimp only at ha
  unfold Memory.acquire at ha
  split at ha
  · exact ha
  · next o ho =>
    split at ha
    · exact ha
    · split at ha
      · exact ha
      · rcases isUnowned_update ho ha with ⟨-, hs, hc⟩ | ⟨-, ha⟩
        · have hcount := toNat_add_one (hroom o ho hs)
          rw [show o.count + 1 = 0 from hc] at hcount
          exact absurd hcount (by simp)
        · exact ha

theorem acquireEdge (h : Traced s extra) :
    Traced { s with memory := s.memory.acquireEdge r } extra := by
  unfold Memory.acquireEdge
  cases ho : s.memory.object? r with
  | none =>
    simp only [Option.any_none, Bool.false_eq_true, ↓reduceIte]
    exact h.acquire fun o ho' => by simp [ho] at ho'
  | some o =>
    by_cases hsym : o.symmetric = true
    · simp only [Option.any_some, hsym, ↓reduceIte]
      have hfields := strongTargets_update s.memory r
        (f := fun o => { o with internal := o.internal + 1 }) fun _ => rfl
      refine h.mono (fun a ha _ => ha) (fun y a ha => .inl (by rw [hfields]; exact ha))
        fun a ha => .inl ?_
      rcases isUnowned_update ho ha with ⟨rfl, hs, hc⟩ | ⟨-, ha⟩
      · exact isUnowned_iff.2 ⟨o, ho, hs, hc⟩
      · exact ha
    · simp only [Option.any_some, hsym, Bool.false_eq_true, ↓reduceIte]
      refine h.acquire fun o' ho' hs => ?_
      obtain rfl := Option.some.inj (ho.symm.trans ho')
      exact absurd hs hsym

end Traced

namespace Memory

variable {m : Memory} {outer : Multiset Ref} {r : Ref} {o : Object} {index : Nat} {f : RefField}
  {target : Option Ref}

/-- The release that writing a strong field starts. -/
def strongRelease (m : Memory) (r : Ref) (index : Nat) (old target : Option Ref) : Option Release :=
  let m := target.elim m m.acquireEdge
  let s : Release := { memory := m.update r (·.setTarget index target) }
  old.elim (some s) s.dropEdge

theorem writeStrong_eq (m : Memory) (r : Ref) (index : Nat) (old target : Option Ref) :
    m.writeStrong r index old target = (m.strongRelease r index old target).bind Release.run :=
  rfl

theorem Settled.strongRelease (h : m.Settled outer) (ho : m.object? r = some o)
    (hf : o.fields[index]? = some f) (hweak : f.weak = false) (hcomp : o.component = none)
    (htarget : ∀ t, target = some t → m.isLive t = true ∧ m.CanRefer t) :
    ∃ s, m.strongRelease r index f.target target = some s ∧ s.Settles outer ∧ Steady m s.memory := by
  -- the new target first
  obtain ⟨m', hm', hrecounted, hbal, htraced⟩ : ∃ m', target.elim m m.acquireEdge = m' ∧
      Recounted m m' ∧ Balanced { memory := m' } outer ↑target.toList ∧
        Traced { memory := m' } 0 := by
    cases target with
    | none => exact ⟨m, rfl, .refl m, h.balanced, h.traced⟩
    | some t =>
      obtain ⟨hlive, hroom⟩ := htarget t rfl
      exact ⟨_, rfl, recounted_acquireEdge m t, h.balanced.acquireEdge rfl hlive hroom,
        h.traced.acquireEdge⟩
  obtain ⟨o', ho', hfields, hcomp'⟩ : ∃ o', m'.object? r = some o' ∧ o'.fields = o.fields ∧
      o'.component = o.component := by
    obtain ⟨count, internal, ho'⟩ := hrecounted.forth ho
    exact ⟨_, ho', rfl, rfl⟩
  have hbal' := hbal.setTarget ho' (hfields ▸ hf) hweak (hcomp'.trans hcomp)
  have htraced' := htraced.setTarget ho' (hfields ▸ hf) hweak target
  have hsteady : Steady m (m'.update r (·.setTarget index target)) :=
    (Steady.of_recounted hrecounted).trans <| .update m' r fun o => by
      obtain ⟨payload, he⟩ := o.setTarget_eq index target
      rw [he]
  unfold Memory.strongRelease
  dsimp only
  rw [hm']
  cases hold : f.target with
  | none =>
    rw [hold] at hbal' htraced'
    exact ⟨_, rfl, hbal'.settles htraced', hsteady⟩
  | some t =>
    rw [hold] at hbal' htraced'
    have hunder : Balanced { memory := m'.update r (·.setTarget index target) } outer (t ::ₘ 0) := hbal'
    obtain ⟨s, hs, hbal''⟩ := hunder.dropEdge
    refine ⟨s, hs, hbal''.settles (htraced'.dropEdge (hbal'.tidy.no_arena t) hs), ?_⟩
    exact hsteady.trans (.of_recounted (Release.recounted_dropEdge hs))

/-- Writing a weak field of settled memory. -/
theorem Settled.writeWeak (h : m.Settled outer) (ho : m.object? r = some o)
    (hf : o.fields[index]? = some f) (hweak : f.weak = true)
    (htarget : ∀ t, target = some t → m.isLive t = true) :
    (m.writeWeak r index f.target target).Settled outer ∧
      Steady m (m.writeWeak r index f.target target) := by
  have hwithout := Without.writeWeak ho hf hweak target
  have htidy := h.balanced.tidy.writeWeak ho hf hweak htarget
  have hgroup : Closed m outer 0 [] := ⟨List.nodup_nil, by simp, by simp⟩
  have hwork : ([] : List Doomed).Nodup := List.nodup_nil
  have hcandidates : ∀ x ∈ ([] : List Ref), x ∈ [] ∧ x ∉ [] := by simp
  have hbal := h.balanced.without hgroup hwithout htidy
    (fun id e he => ⟨he, List.disjoint_nil_left _⟩) (fun id e he _ _ _ => he) hwork (by simp) (by simp)
    hcandidates 0
  refine ⟨⟨hbal, h.traced.mono (fun a ha _ => ha) (fun y a ha => .inl ?_) fun a ha => .inl ?_⟩,
    .of_without hwithout⟩
  · rw [hwithout.strongTargets]
    simpa using ha
  · exact (hwithout.isUnowned ha).2

end Memory

end Reclamation
