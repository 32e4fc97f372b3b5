import Mathlib
import Reclamation.Memory.Release
import Reclamation.Proofs.Memory.Storage

/-!
# References between objects

The strong fields of all objects together refer to a multiset of objects, `references`, in which an
object occurs as often as fields refer to it. Taking out a group of objects takes what their fields
refer to out of this multiset (`Without.referencesOutside`), and nothing else; that one equation
between multisets is what the counts of all objects are compared with.

Counts are changed without regard to fields: `Recounted` memory has the same objects with the same
fields in the same places, so it has the same references. Whoever gives up a reference lowers one count
at most (`Release.Lowers`).
-/

set_option autoImplicit false

namespace Reclamation

namespace Memory

variable {m m' : Memory} {r s : Ref} {o : Object} {group : List Ref}

/-! ## What fields refer to -/

/-- What the strong fields of the objects outside a group refer to. -/
def referencesOutside (m : Memory) (group : List Ref) : Multiset Ref :=
  ∑ h ∈ (Finset.range m.cells.size).filter (· ∉ group), (m.strongTargets h : Multiset Ref)

/-- What strong fields refer to. -/
def references (m : Memory) : Multiset Ref :=
  m.referencesOutside []

theorem isLive_of_mem_strongTargets {x : Ref} (h : x ∈ m.strongTargets s) : m.isLive s = true := by
  unfold strongTargets at h
  cases ho : m.object? s with
  | none => simp [ho] at h
  | some o => exact isLive_of_object? ho

theorem strongTargets_of_object? (ho : m.object? r = some o) :
    m.strongTargets r = o.strongTargets := by
  rw [strongTargets, ho]
  rfl

theorem strongTargets_of_not_isLive (h : ¬ m.isLive r = true) : m.strongTargets r = [] :=
  List.eq_nil_iff_forall_not_mem.2 fun _ hx => h (isLive_of_mem_strongTargets hx)

theorem mem_referencesOutside {x : Ref} :
    x ∈ m.referencesOutside group ↔ ∃ h, h ∉ group ∧ x ∈ m.strongTargets h := by
  simp only [referencesOutside, Multiset.mem_sum, Finset.mem_filter, Finset.mem_range,
    Multiset.mem_coe]
  constructor
  · rintro ⟨h, ⟨-, hh⟩, hx⟩
    exact ⟨h, hh, hx⟩
  · rintro ⟨h, hh, hx⟩
    exact ⟨h, ⟨lt_size_of_isLive (isLive_of_mem_strongTargets hx), hh⟩, hx⟩

theorem mem_references {x : Ref} : x ∈ m.references ↔ ∃ h, x ∈ m.strongTargets h := by
  rw [references, mem_referencesOutside]
  simp

/-- Cells beyond the last object do not count. -/
theorem referencesOutside_eq_sum {n : Nat} (hn : ∀ h, n ≤ h → m.strongTargets h = []) :
    m.referencesOutside group =
      ∑ h ∈ (Finset.range n).filter (· ∉ group), (m.strongTargets h : Multiset Ref) := by
  have hsame : ∀ k, (∀ h, k ≤ h → m.strongTargets h = []) → ∀ l, k ≤ l →
      ∑ h ∈ (Finset.range k).filter (· ∉ group), (m.strongTargets h : Multiset Ref) =
        ∑ h ∈ (Finset.range l).filter (· ∉ group), (m.strongTargets h : Multiset Ref) := by
    intro k hk l hl
    refine Finset.sum_subset ?_ fun h _ hh => ?_
    · intro h hh
      rw [Finset.mem_filter, Finset.mem_range] at hh ⊢
      exact ⟨Nat.lt_of_lt_of_le hh.1 hl, hh.2⟩
    · rw [Finset.mem_filter, Finset.mem_range] at hh
      rw [hk h]
      · rfl
      · by_contra hlt
        simp_all
  have hsize : ∀ h, m.cells.size ≤ h → m.strongTargets h = [] := fun h hh =>
    strongTargets_of_not_isLive fun hl => absurd (lt_size_of_isLive hl) (Nat.not_lt.2 hh)
  rw [referencesOutside, hsame _ hsize _ (Nat.le_max_left m.cells.size n),
    hsame _ hn _ (Nat.le_max_right m.cells.size n)]

theorem referencesOutside_congr (h : ∀ h, m'.strongTargets h = m.strongTargets h) :
    m'.referencesOutside group = m.referencesOutside group := by
  have hn : ∀ h, m.cells.size ≤ h → m'.strongTargets h = [] := fun x hx => by
    rw [h]
    exact strongTargets_of_not_isLive fun hl => absurd (lt_size_of_isLive hl) (Nat.not_lt.2 hx)
  rw [referencesOutside_eq_sum hn, referencesOutside]
  exact Finset.sum_congr rfl fun x _ => by rw [h]

theorem references_congr (h : ∀ h, m'.strongTargets h = m.strongTargets h) :
    m'.references = m.references :=
  referencesOutside_congr h

theorem sum_strongTargets (m : Memory) : ∀ {group : List Ref}, group.Nodup →
    ∑ h ∈ group.toFinset, (m.strongTargets h : Multiset Ref) = ↑(group.flatMap m.strongTargets)
  | [], _ => by simp
  | r :: group, hnodup => by
    obtain ⟨hr, hnodup⟩ := List.nodup_cons.1 hnodup
    rw [List.toFinset_cons, Finset.sum_insert (by simpa using hr), sum_strongTargets m hnodup,
      List.flatMap_cons, Multiset.coe_add]

/-- The references are those from a group and those from outside. -/
theorem references_eq_add (m : Memory) (hnodup : group.Nodup)
    (hlive : ∀ r ∈ group, m.isLive r = true) :
    m.references = m.referencesOutside group + ↑(group.flatMap m.strongTargets) := by
  have hsub : (Finset.range m.cells.size).filter (· ∈ group) = group.toFinset := by
    ext h
    simp only [Finset.mem_filter, Finset.mem_range, List.mem_toFinset, and_iff_right_iff_imp]
    exact fun hh => lt_size_of_isLive (hlive h hh)
  rw [references, referencesOutside, referencesOutside, ← sum_strongTargets m hnodup, ← hsub,
    add_comm, Finset.sum_filter_add_sum_filter_not]
  simp

/-- With a group of objects their references go. -/
theorem Without.referencesOutside (h : Without group m m') (hnodup : group.Nodup)
    (hlive : ∀ r ∈ group, m.isLive r = true) {other : List Ref} (hother : List.Disjoint group other) :
    m.referencesOutside other = m'.referencesOutside other + ↑(group.flatMap m.strongTargets) := by
  have hsub : ((Finset.range m.cells.size).filter (· ∉ other)).filter (· ∈ group) =
      group.toFinset := by
    ext h
    simp only [Finset.mem_filter, Finset.mem_range, List.mem_toFinset, and_iff_right_iff_imp]
    exact fun hh => ⟨lt_size_of_isLive (hlive h hh), hother hh⟩
  have hrest : m'.referencesOutside other = ∑ h ∈ ((Finset.range m.cells.size).filter
      (· ∉ other)).filter (· ∉ group), (m.strongTargets h : Multiset Ref) := by
    rw [Memory.referencesOutside, h.aside.size, Finset.sum_filter fun x => x ∉ group]
    refine Finset.sum_congr rfl fun x _ => ?_
    rw [h.strongTargets]
    split <;> simp_all
  rw [hrest, ← sum_strongTargets m hnodup, ← hsub, add_comm, Memory.referencesOutside,
    Finset.sum_filter_add_sum_filter_not]

theorem Without.references (h : Without group m m') (hnodup : group.Nodup)
    (hlive : ∀ r ∈ group, m.isLive r = true) :
    m.references = m'.references + ↑(group.flatMap m.strongTargets) :=
  h.referencesOutside hnodup hlive (List.disjoint_nil_right group)

/-! ## Changing counts -/

/-- The objects are the same but for their counts, and so are the components. -/
structure Recounted (m m' : Memory) : Prop where
  objects : ∀ r, (m'.object? r).map (fun o => { o with count := 0, internal := 0 }) =
    (m.object? r).map fun o => { o with count := 0, internal := 0 }
  members : ∀ id, (m'.components.entry? id).map (·.members) =
    (m.components.entry? id).map (·.members)
  referrers : m'.referrers = m.referrers
  pool : m'.pool = m.pool
  stats : m'.stats = m.stats
  aside : Aside m m'

namespace Recounted

theorem refl (m : Memory) : Recounted m m :=
  ⟨fun _ => rfl, fun _ => rfl, rfl, rfl, rfl, .refl m⟩

theorem trans {m'' : Memory} (h : Recounted m m') (h' : Recounted m' m'') : Recounted m m'' :=
  ⟨fun r => (h'.objects r).trans (h.objects r), fun id => (h'.members id).trans (h.members id),
    h'.referrers.trans h.referrers, h'.pool.trans h.pool, h'.stats.trans h.stats,
    h.aside.trans h'.aside⟩

theorem update (m : Memory) (r : Ref) {f : Object → Object}
    (hf : ∀ o, { f o with count := 0, internal := 0 } = { o with count := 0, internal := 0 }) :
    Recounted m (m.update r f) where
  objects s := by
    rw [object?_update]
    split
    · next e =>
      subst e
      cases m.object? s with
      | none => rfl
      | some o => exact congrArg some (hf o)
    · rfl
  members _ := rfl
  referrers := rfl
  pool := rfl
  stats := rfl
  aside := .update m r f

theorem raise (m : Memory) (id : ComponentId) :
    Recounted m { m with components := m.components.raise id } where
  objects _ := rfl
  members id' := by
    rw [ComponentRegistry.entry?_raise]
    split
    · next e => rw [e, Option.map_map]; rfl
    · rfl
  referrers := rfl
  pool := rfl
  stats := rfl
  aside := ⟨rfl, rfl, rfl, rfl, rfl, rfl, rfl, m.components.capacity_update id _, rfl⟩

theorem lower (m : Memory) (id : ComponentId) :
    Recounted m { m with components := m.components.lower id } where
  objects _ := rfl
  members id' := by
    rw [ComponentRegistry.entry?_lower]
    split
    · next e => rw [e, Option.map_map]; rfl
    · rfl
  referrers := rfl
  pool := rfl
  stats := rfl
  aside := ⟨rfl, rfl, rfl, rfl, rfl, rfl, rfl, m.components.capacity_update id _, rfl⟩

/-- What an object was before. -/
theorem object? (h : Recounted m m') (r : Ref) : (m.object? r = none ∧ m'.object? r = none) ∨
    ∃ o count internal, m.object? r = some o ∧ m'.object? r = some { o with count, internal } := by
  have := h.objects r
  cases ho : m.object? r with
  | none =>
    rw [ho] at this
    exact .inl ⟨rfl, Option.map_eq_none_iff.1 this⟩
  | some o =>
    rw [ho] at this
    obtain ⟨o', ho', he⟩ := Option.map_eq_some_iff.1 this
    refine .inr ⟨o, o'.count, o'.internal, rfl, ?_⟩
    rw [ho', Option.some.injEq]
    injection he with he₁ he₂ he₃ he₄ he₅ he₆ he₇
    obtain ⟨spec, _⟩ := o'
    simp_all

theorem back (h : Recounted m m') {r : Ref} {o' : Object} (ho' : m'.object? r = some o') :
    ∃ o count internal, m.object? r = some o ∧ o' = { o with count, internal } := by
  rcases h.object? r with ⟨-, hn⟩ | ⟨o, count, internal, ho, hs⟩
  · exact absurd (hn.symm.trans ho') (by simp)
  · exact ⟨o, count, internal, ho, Option.some.inj (ho'.symm.trans hs)⟩

theorem forth (h : Recounted m m') {r : Ref} {o : Object} (ho : m.object? r = some o) :
    ∃ count internal, m'.object? r = some { o with count, internal } := by
  rcases h.object? r with ⟨hn, -⟩ | ⟨o₀, count, internal, ho₀, hs⟩
  · exact absurd (hn.symm.trans ho) (by simp)
  · obtain rfl := Option.some.inj (ho₀.symm.trans ho)
    exact ⟨count, internal, hs⟩

theorem entry_back (h : Recounted m m') {id : ComponentId} {e : ComponentEntry}
    (he : m'.components.entry? id = some e) :
    ∃ e₀, m.components.entry? id = some e₀ ∧ e₀.members = e.members := by
  have hmembers := h.members id
  rw [he] at hmembers
  exact Option.map_eq_some_iff.1 hmembers.symm

theorem entry_forth (h : Recounted m m') {id : ComponentId} {e : ComponentEntry}
    (he : m.components.entry? id = some e) :
    ∃ e', m'.components.entry? id = some e' ∧ e'.members = e.members := by
  have hmembers := h.members id
  rw [he] at hmembers
  exact Option.map_eq_some_iff.1 hmembers

theorem isLive (h : Recounted m m') (r : Ref) : m'.isLive r = m.isLive r := by
  unfold Memory.isLive
  rcases h.object? r with ⟨ho, ho'⟩ | ⟨o, count, internal, ho, ho'⟩
  · rw [ho, ho']
  · rw [ho, ho']
    rfl

theorem strongTargets (h : Recounted m m') (r : Ref) : m'.strongTargets r = m.strongTargets r := by
  unfold Memory.strongTargets
  rcases h.object? r with ⟨ho, ho'⟩ | ⟨o, count, internal, ho, ho'⟩
  · rw [ho, ho']
  · rw [ho, ho']
    rfl

theorem weakTarget? (h : Recounted m m') (r : Ref) (i : Nat) :
    m'.weakTarget? r i = m.weakTarget? r i := by
  unfold Memory.weakTarget?
  rcases h.object? r with ⟨ho, ho'⟩ | ⟨o, count, internal, ho, ho'⟩
  · rw [ho, ho']
  · rw [ho, ho']
    rfl

theorem origin (h : Recounted m m') (r : Ref) : (m'.object? r).map (·.origin) = (m.object? r).map (·.origin) := by
  rcases h.object? r with ⟨ho, ho'⟩ | ⟨o, count, internal, ho, ho'⟩
  · rw [ho, ho']
  · rw [ho, ho']
    rfl

theorem tidy (h : Recounted m m') (ht : Tidy m) (hr : m'.components.Sound) : Tidy m' where
  wired := ht.wired.of_weakTargets h.referrers h.weakTarget? fun r hl => by rwa [h.isLive]
  housed := ht.housed.of_origins h.pool h.aside.size h.origin
  registry := hr
  no_arena r o' ho' := by
    obtain ⟨o, count, internal, ho, rfl⟩ := h.back ho'
    exact ht.no_arena r o ho

end Recounted

theorem recounted_acquire (m : Memory) (r : Ref) : Recounted m (m.acquire r) := by
  unfold acquire
  split
  · exact .refl m
  · split
    · exact .refl m
    · split
      · exact .raise m _
      · exact .update m r fun _ => rfl

theorem recounted_acquireEdge (m : Memory) (r : Ref) : Recounted m (m.acquireEdge r) := by
  unfold acquireEdge
  split
  · exact .update m r fun _ => rfl
  · exact recounted_acquire m r

end Memory

/-! ## Giving references up changes counts only -/

namespace Memory

/-! ## Taking out a group -/

variable {m m' : Memory} {group : List Ref}

/-- Taking out objects one after the other, if it comes to anything. -/
theorem removeAll?_eq_some (h : m.removeAll? group = some m') : m' = group.foldl Memory.remove m := by
  induction group generalizing m with
  | nil => exact (Option.some.inj h).symm
  | cons r group ih =>
    obtain ⟨n, hn, hrest⟩ := Option.bind_eq_some_iff.1 ((List.foldlM_cons ..).symm.trans h)
    simp only [Option.ite_none_right_eq_some, Option.some.injEq] at hn
    obtain ⟨-, rfl⟩ := hn
    exact ih hrest

/-- Objects that are there can be taken out if each is named once. -/
theorem Tidy.removeAll?_eq (h : m.Tidy) (hnodup : group.Nodup) (hlive : ∀ x ∈ group, m.isLive x = true) :
    m.removeAll? group = some (group.foldl Memory.remove m) := by
  refine Tidy.removeAll_induction (P := fun m group => m.removeAll? group = some (group.foldl Memory.remove m))
    ?_ ?_ h hnodup hlive
  · exact fun _ => rfl
  · intro m r group _ hr _ hrest
    rw [removeAll?, List.foldlM_cons, if_pos hr]
    exact hrest

/-- And only then. -/
theorem Tidy.nodup_live_of_removeAll? (h : m.Tidy) (hout : m.removeAll? group = some m') :
    group.Nodup ∧ ∀ x ∈ group, m.isLive x = true := by
  induction group generalizing m with
  | nil => exact ⟨List.nodup_nil, fun x hx => absurd hx List.not_mem_nil⟩
  | cons r group ih =>
    obtain ⟨n, hn, hrest⟩ := Option.bind_eq_some_iff.1 ((List.foldlM_cons ..).symm.trans hout)
    simp only [Option.ite_none_right_eq_some, Option.some.injEq] at hn
    obtain ⟨hr, rfl⟩ := hn
    obtain ⟨hnodup, hlive⟩ := ih (h.remove hr) hrest
    have hback : ∀ x ∈ group, x ≠ r ∧ m.isLive x = true := fun x hx =>
      (isLive_remove h.wired hr x).1 (hlive x hx)
    refine ⟨List.nodup_cons.2 ⟨fun hmem => (hback r hmem).1 rfl, hnodup⟩, fun x hx => ?_⟩
    rcases List.mem_cons.1 hx with rfl | hx
    · exact hr
    · exact (hback x hx).2

end Memory

namespace Release

open Memory

variable {s t : Release} {r : Ref} {o : Object}

/-- What giving up a reference comes to, be it that of a field or that of the program. One count becomes lower, unless
the object is gone or in an arena. What may be due for that is put on the lists of the release. -/
inductive Lowers (s : Release) (r : Ref) : Release → Prop
  | gone : s.memory.object? r = none → Lowers s r { s with stale := r :: s.stale }
  /-- Objects in arenas are not counted. -/
  | nothing : Lowers s r s
  /-- The reference of a field to a symmetric object, which may be an orphan if the program has none. -/
  | internal {o : Object} {internal : UInt32} {candidates : List Ref} : s.memory.object? r = some o →
      o.symmetric = true → lowered? o.shared o.internal = some internal →
      candidates = (if o.count = 0 then r :: s.candidates else s.candidates) →
      Lowers s r { s with memory := s.memory.update r fun o => { o with internal }, candidates }
  /-- The reference of the program to a symmetric object, which may be an orphan if that was the last one. -/
  | count {o : Object} {count : UInt32} {candidates : List Ref} : s.memory.object? r = some o →
      o.symmetric = true → lowered? o.shared o.count = some count →
      candidates = (if count = 0 then r :: s.candidates else s.candidates) →
      Lowers s r { s with memory := s.memory.update r fun o => { o with count }, candidates }
  /-- An object that counts all its references alike. -/
  | plain {o : Object} {count : UInt32} {work : List Doomed} : s.memory.object? r = some o → o.symmetric = false →
      s.memory.countingComponent? o = none → lowered? o.shared o.count = some count →
      work = (if count = 0 then .object r :: s.work else s.work) →
      Lowers s r { s with memory := s.memory.update r fun o => { o with count }, work }
  /-- A member of a component, whose references are counted together. -/
  | component {o : Object} {id : ComponentId} {work : List Doomed} : s.memory.object? r = some o →
      o.symmetric = false → s.memory.countingComponent? o = some id →
      work = (if (s.memory.components.lower id).external? id = some 0 then .component id :: s.work else s.work) →
      Lowers s r { s with memory := { s.memory with components := s.memory.components.lower id }, work }

theorem lowers_dropCount (ho : s.memory.object? r = some o) (hsym : o.symmetric = false)
    (h : s.dropCount r o = some t) : Lowers s r t := by
  unfold dropCount at h
  split at h
  · next id hcounting =>
    obtain rfl := Option.some.inj h
    unfold lowerComponent
    dsimp only
    split
    · next hdue => exact .component ho hsym hcounting (if_pos hdue).symm
    · next hdue => exact .component ho hsym hcounting (if_neg hdue).symm
  · next hcounting =>
    obtain ⟨count, hlow, rfl⟩ := Option.map_eq_some_iff.1 h
    dsimp only
    split
    · next hdue => exact .plain ho hsym hcounting hlow (if_pos hdue).symm
    · next hdue => exact .plain ho hsym hcounting hlow (if_neg hdue).symm

theorem lowers_dropEdge (h : s.dropEdge r = some t) : Lowers s r t := by
  unfold dropEdge at h
  split at h
  · next hnone =>
    obtain rfl := Option.some.inj h
    exact .gone hnone
  · next o ho =>
    split at h
    · obtain rfl := Option.some.inj h
      exact .nothing
    · split at h
      · next hsym =>
        obtain ⟨internal, hlow, rfl⟩ := Option.map_eq_some_iff.1 h
        dsimp only
        split
        · next hdue => exact .internal ho hsym hlow (if_pos hdue).symm
        · next hdue => exact .internal ho hsym hlow (if_neg hdue).symm
      · next hsym => exact lowers_dropCount ho (by simpa using hsym) h

theorem lowers_dropRef (h : s.dropRef r = some t) : Lowers s r t := by
  unfold dropRef at h
  split at h
  · next hnone =>
    obtain rfl := Option.some.inj h
    exact .gone hnone
  · next o ho =>
    split at h
    · obtain rfl := Option.some.inj h
      exact .nothing
    · split at h
      · next hsym =>
        obtain ⟨count, hlow, rfl⟩ := Option.map_eq_some_iff.1 h
        dsimp only
        split
        · next hdue => exact .count ho hsym hlow (if_pos hdue).symm
        · next hdue => exact .count ho hsym hlow (if_neg hdue).symm
      · next hsym => exact lowers_dropCount ho (by simpa using hsym) h

/-- As long as nothing is on record the references that were given up were to objects that are there. -/
theorem isLive_of_dropRef (h : s.dropRef r = some t) (hstale : t.stale = []) : s.memory.isLive r = true := by
  unfold dropRef at h
  split at h
  · obtain rfl := Option.some.inj h
    exact absurd hstale (List.cons_ne_nil r s.stale)
  · next o ho => exact Memory.isLive_of_object? ho

theorem Lowers.recounted (h : Lowers s r t) : Recounted s.memory t.memory := by
  cases h with
  | gone | nothing => exact .refl s.memory
  | internal | count | plain => exact .update s.memory r fun _ => rfl
  | component => exact .lower s.memory _

theorem recounted_dropEdge (h : s.dropEdge r = some t) : Recounted s.memory t.memory :=
  (lowers_dropEdge h).recounted

theorem recounted_dropRef (h : s.dropRef r = some t) : Recounted s.memory t.memory :=
  (lowers_dropRef h).recounted

/-- What holds throughout while references are given up one after the other. -/
theorem foldlM_induction {drop : Release → Ref → Option Release} {P : Release → Prop} {rs : List Ref}
    (hdrop : ∀ {s t : Release} {r : Ref}, r ∈ rs → drop s r = some t → P s → P t) {s t : Release}
    (h : rs.foldlM drop s = some t) (hs : P s) : P t := by
  induction rs generalizing s with
  | nil =>
    obtain rfl := Option.some.inj h
    exact hs
  | cons r rs ih =>
    rw [List.foldlM_cons] at h
    obtain ⟨u, hu, hrest⟩ := Option.bind_eq_some_iff.1 h
    have hu' := hdrop List.mem_cons_self hu hs
    exact ih (fun hmem => hdrop (List.mem_cons_of_mem r hmem)) hrest hu'

theorem recounted_foldlM {drop : Release → Ref → Option Release}
    (hdrop : ∀ {s t r}, drop s r = some t → Recounted s.memory t.memory) {rs : List Ref} {s t : Release}
    (h : rs.foldlM drop s = some t) : Recounted s.memory t.memory :=
  foldlM_induction (P := fun u => Recounted s.memory u.memory) (fun _ hd hu => hu.trans (hdrop hd)) h (.refl _)

/-! ## Discarding a group -/

/-- What the members of a group refer to that are not members themselves. -/
theorem targetsOutside_eq (s : Release) (group : List Ref) :
    s.targetsOutside group = (group.flatMap s.memory.strongTargets).filter (· ∉ group) := by
  unfold targetsOutside
  refine List.filter_congr fun x _ => ?_
  simp

/-- What a discard comes to, if it comes to anything. -/
theorem discard_eq_some {group : List Ref} (h : s.discard group = some t) :
    (s.targetsOutside group).foldlM dropEdge
      { s with memory := group.foldl Memory.remove s.memory, freed := s.freed + group.length } = some t := by
  obtain ⟨m, hm, hdrops⟩ := Option.bind_eq_some_iff.1 h
  rwa [removeAll?_eq_some hm] at hdrops

theorem recounted_discard {group : List Ref} (h : s.discard group = some t) :
    Recounted (group.foldl Memory.remove s.memory) t.memory :=
  recounted_foldlM recounted_dropEdge (discard_eq_some h)

/-- Discarding objects that are there. -/
theorem discard_eq {group : List Ref} (htidy : s.memory.Tidy) (hnodup : group.Nodup)
    (hlive : ∀ x ∈ group, s.memory.isLive x = true) :
    s.discard group = (s.targetsOutside group).foldlM dropEdge
      { s with memory := group.foldl Memory.remove s.memory, freed := s.freed + group.length } := by
  rw [discard, htidy.removeAll?_eq hnodup hlive, Option.bind_some]

/-- Only objects that are there are discarded, each of them once. -/
theorem nodup_live_of_discard {group : List Ref} (htidy : s.memory.Tidy) (h : s.discard group = some t) :
    group.Nodup ∧ ∀ x ∈ group, s.memory.isLive x = true := by
  obtain ⟨m, hm, -⟩ := Option.bind_eq_some_iff.1 h
  exact htidy.nodup_live_of_removeAll? hm

end Release

end Reclamation
