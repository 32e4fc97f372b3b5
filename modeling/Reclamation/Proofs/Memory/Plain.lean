import Mathlib
import Reclamation.Proofs.Memory.Exactness

/-!
# Memory of plain objects

A plain object lies on the heap, counts all its references alike and belongs to no component. If all
objects are plain, a release only ever takes out one object at a time, to which nothing refers any
more (`Release.Step.sheds`): there are no components to be due and no candidates to look at. When it
is over, everything that is still there is held, waits to be given up or is in a field
(`Plain.referred`).

Cells of the heap are used once, so each of them has an object that is there or one that was freed.
`Plain.tally` counts them.
-/

set_option autoImplicit false

namespace Reclamation

/-! ## Plain objects -/

/-- An object on the heap that is counted by itself and counts all references alike. -/
structure Object.Plain (o : Object) : Prop where
  symmetric : o.symmetric = false
  component : o.component = none
  internal : o.internal = 0
  origin : o.origin = .heap

/-- An object but for its counts. -/
def Object.bare (o : Object) : Object :=
  { o with count := 0, internal := 0 }

theorem Object.eq_of_bare {o o' : Object} (h : o.bare = o'.bare) (hcount : o.count = o'.count)
    (hinternal : o.internal = o'.internal) : o = o' :=
  calc
    o = { o.bare with count := o.count, internal := o.internal } := rfl
    _ = { o'.bare with count := o'.count, internal := o'.internal } := by rw [h, hcount, hinternal]
    _ = o' := rfl

theorem Object.Plain.setTarget {o : Object} (h : o.Plain) (index : Nat) (target : Option Ref) :
    (o.setTarget index target).Plain := by
  obtain ⟨payload, he⟩ := o.setTarget_eq index target
  rw [he]
  exact ⟨h.symmetric, h.component, h.internal, h.origin⟩

theorem Object.Plain.forget {o : Object} (h : o.Plain) (r : Ref) : (o.forget r).Plain :=
  ⟨h.symmetric, h.component, h.internal, h.origin⟩

namespace Memory

variable {m m' : Memory} {r x : Ref} {o : Object}

/-! ## Counting objects -/

theorem population_eq (m : Memory) : m.population = (List.range m.cells.size).countP m.isLive := by
  have hmap : m.cells.toList.map (·.isSome) = (List.range m.cells.size).map m.isLive := by
    apply List.ext_getElem?
    intro i
    rw [List.getElem?_map, List.getElem?_map, Array.getElem?_toList]
    by_cases hi : i < m.cells.size
    · simp [isLive, object?, hi]
    · simp [hi]
  have hcount := congrArg (List.countP id) hmap
  rw [List.countP_map, List.countP_map] at hcount
  rw [population, ← Array.countP_toList]
  exact hcount

theorem population_congr (hsize : m'.cells.size = m.cells.size)
    (hlive : ∀ x, m'.isLive x = m.isLive x) : m'.population = m.population := by
  rw [population_eq, population_eq, hsize, funext hlive]

/-- There are plain objects only, and every cell was used for one of them. -/
structure Plain (m : Memory) : Prop where
  object : ∀ r o, m.object? r = some o → o.Plain
  entry : ∀ id, m.components.entry? id = none
  tally : m.stats.freed + m.population = m.cells.size

namespace Plain

theorem ofConfigOn (config : Config) (secret : UInt64) (machine : Machine) :
    (Memory.ofConfigOn config secret machine).Plain := by
  refine ⟨fun r o ho => ?_, fun id => ?_, rfl⟩
  · exact absurd ho (by simp [Memory.object?, Memory.ofConfigOn])
  · simp [Memory.ofConfigOn, ComponentRegistry.entry?]

theorem of_cells (h : m.Plain) (hcells : m'.cells = m.cells) (hcomponents : m'.components = m.components)
    (hfreed : m'.stats.freed = m.stats.freed) : m'.Plain where
  object r o ho := h.object r o (by rwa [Memory.object?, ← hcells])
  entry id := by rw [hcomponents, h.entry]
  tally := by rw [hfreed, Memory.population, hcells]; exact h.tally

theorem update (h : m.Plain) (r : Ref) {f : Object → Object} (hf : ∀ o, o.Plain → (f o).Plain) :
    (m.update r f).Plain where
  object x o' ho' := by
    rw [object?_update] at ho'
    split at ho'
    · obtain ⟨o, ho, rfl⟩ := Option.map_eq_some_iff.1 ho'
      exact hf o (h.object r o ho)
    · exact h.object x o' ho'
  entry := h.entry
  tally := by
    rw [population_update, size_cells_update]
    exact h.tally

theorem setTarget (h : m.Plain) (r : Ref) (index : Nat) (target : Option Ref) :
    (m.update r (·.setTarget index target)).Plain :=
  h.update r fun _ ho => ho.setTarget index target

theorem recount (h : m.Plain) (r : Ref) (count : Object → UInt32) :
    (m.update r fun o => { o with count := count o }).Plain :=
  h.update r fun _ ho => ⟨ho.symmetric, ho.component, ho.internal, ho.origin⟩

theorem countingComponent? (h : m.Plain) (ho : m.object? r = some o) :
    m.countingComponent? o = none := by
  rw [Memory.countingComponent?, (h.object r o ho).component]
  rfl

theorem allocate (h : m.Plain) {spec : ObjectSpec} (hsym : spec.symmetric = false) :
    (m.allocate spec).1.Plain where
  object x o ho := by
    have hobject := m.countAllocation.object?_place { spec with } x
    rw [Memory.allocate, hobject] at ho
    split at ho
    · rw [← Option.some.inj ho]
      exact ⟨hsym, rfl, rfl, rfl⟩
    · exact h.object x o ho
  entry := h.entry
  tally := by
    have htally := h.tally
    have hcells : (m.allocate spec).1.cells = m.cells.push (some { spec with }) := rfl
    have hfreed : (m.allocate spec).1.stats.freed = m.stats.freed := rfl
    rw [Memory.population] at htally ⊢
    rw [hcells, hfreed, Array.countP_push, Array.size_push]
    simp only [Option.isSome_some, ↓reduceIte]
    omega

/-! ## Taking and giving up references -/

theorem acquire (h : m.Plain) (r : Ref) : (m.acquire r).Plain := by
  unfold Memory.acquire
  split
  · exact h
  · next o ho =>
    split
    · exact h
    · rw [h.countingComponent? ho]
      exact h.recount r (·.count + 1)

theorem acquireEdge (h : m.Plain) (r : Ref) : (m.acquireEdge r).Plain := by
  unfold Memory.acquireEdge
  split
  · next hsym =>
    obtain ⟨o, ho, hsym⟩ := (Option.any_eq_true _ _).1 hsym
    rw [(h.object r o ho).symmetric] at hsym
    exact absurd hsym (by decide)
  · exact h.acquire r

end Plain

end Memory

namespace Release

open Memory

variable {s t : Release} {r : Ref} {o : Object}

theorem Lowers.keepsPlain (hlowers : Lowers s r t) (h : s.memory.Plain) : t.memory.Plain := by
  cases hlowers with
  | gone | nothing => exact h
  | @internal o _ _ ho hsym =>
    rw [(h.object r o ho).symmetric] at hsym
    exact absurd hsym (by decide)
  | @count o _ _ ho hsym =>
    rw [(h.object r o ho).symmetric] at hsym
    exact absurd hsym (by decide)
  | @plain _ count => exact h.recount r fun _ => count
  | component ho _ hcounting =>
    rw [h.countingComponent? ho] at hcounting
    exact absurd hcounting (by simp)

theorem plain_dropEdge (h : s.memory.Plain) (ht : s.dropEdge r = some t) : t.memory.Plain :=
  (lowers_dropEdge ht).keepsPlain h

theorem plain_dropRef (h : s.memory.Plain) (ht : s.dropRef r = some t) : t.memory.Plain :=
  (lowers_dropRef ht).keepsPlain h

theorem plain_foldlM {drop : Release → Ref → Option Release}
    (hdrop : ∀ {s t r}, s.memory.Plain → drop s r = some t → t.memory.Plain) {rs : List Ref} {s : Release}
    (h : s.memory.Plain) (ht : rs.foldlM drop s = some t) : t.memory.Plain :=
  foldlM_induction (P := fun u => u.memory.Plain) (fun _ hd hu => hdrop hu hd) ht h

end Release

/-! ## Taking out one object -/

namespace Memory

variable {m m' m'' : Memory} {r x : Ref} {o : Object}

theorem Plain.remove (h : m.Plain) (htidy : m.Tidy) (hr : m.isLive r = true) : (m.remove r).Plain := by
  obtain ⟨o, ho⟩ := isLive_iff.1 hr
  refine ⟨fun x o' ho' => ?_, fun id => ?_, ?_⟩
  · rw [object?_remove htidy.wired hr] at ho'
    split at ho'
    · exact absurd ho' (by simp)
    · obtain ⟨ox, hox, rfl⟩ := Option.map_eq_some_iff.1 ho'
      exact (h.object x ox hox).forget r
  · rw [components_remove, h.entry]
  · have harena : o.arena? = none := by rw [Object.arena?, (h.object r o ho).origin]
    obtain ⟨weakCleared, hstats⟩ := stats_remove ho harena
    rw [hstats, (Aside.remove m r).size, ← h.tally, ← population_remove hr]
    dsimp only
    omega

/-- An object to which no field refers is gone, and the others have forgotten it. -/
structure Sheds (r : Ref) (m m' : Memory) : Prop where
  live : m.isLive r = true
  unreferenced : r ∉ m.references
  object : ∀ x, (m'.object? x).map Object.bare =
    if x = r then none else (m.object? x).map fun o => (o.forget r).bare
  aside : Aside m m'

namespace Sheds

theorem isLive_iff (h : Sheds r m m') (x : Ref) : m'.isLive x = true ↔ x ≠ r ∧ m.isLive x = true := by
  have hx := congrArg Option.isSome (h.object x)
  rw [Option.isSome_map] at hx
  rw [isLive, hx]
  by_cases hxr : x = r
  · simp [hxr]
  · simp [hxr, isLive]

theorem strongTargets (h : Sheds r m m') (hx : x ≠ r) : m'.strongTargets x = m.strongTargets x := by
  have hobject := congrArg (Option.map Object.strongTargets) (h.object x)
  rw [if_neg hx, Option.map_map, Option.map_map] at hobject
  have hbare : ∀ o : Object, o.bare.strongTargets = o.strongTargets := fun _ => rfl
  unfold Memory.strongTargets
  cases ho' : m'.object? x with
  | none =>
    cases ho : m.object? x with
    | none => rfl
    | some o => simp [ho', ho] at hobject
  | some o' =>
    cases ho : m.object? x with
    | none => simp [ho', ho] at hobject
    | some o => simpa [ho', ho, hbare] using hobject

/-- A field that is there was there before. -/
theorem refers (h : Sheds r m m') {y : Ref} (hyx : m'.Refers y x) : m.Refers y x := by
  have hy := ((h.isLive_iff y).1 (isLive_of_mem_strongTargets hyx)).1
  rw [Refers, h.strongTargets hy] at hyx
  exact hyx

theorem references_le (h : Sheds r m m') : m'.references ≤ m.references := by
  rw [references, references, referencesOutside, referencesOutside, h.aside.size]
  refine Finset.sum_le_sum fun x _ => ?_
  by_cases hx : x = r
  · rw [strongTargets_of_not_isLive fun hlive => ((h.isLive_iff x).1 hlive).1 hx]
    exact Multiset.zero_le _
  · rw [h.strongTargets hx]

end Sheds

end Memory

namespace Release

open Memory

variable {s t : Release} {outer extra : Multiset Ref} {r : Ref} {work : List Doomed}

/-- A step takes out one object that nothing refers to. -/
theorem Step.sheds (hplain : s.memory.Plain) (hbal : Balanced s outer extra) (hstep : Step s t) :
    ∃ r, r ∉ outer ∧ Sheds r s.memory t.memory ∧ t.memory.Plain := by
  have hcomponent : ∀ id, .component id ∉ s.work := fun id hid => by
    obtain ⟨e, he⟩ := hbal.work_component id hid
    rw [hplain.entry] at he
    exact absurd he (by simp)
  cases hstep with
  | @object _ r work hw hd =>
    have hmem : .object r ∈ s.work := by rw [hw]; exact List.mem_cons_self
    obtain ⟨o, ho, hsym, hcomp⟩ := hbal.work_object r hmem
    have hlive := isLive_of_object? ho
    have hdue := (hbal.plain_due r o ho hsym hcomp).1 hmem
    rw [Multiset.count_eq_zero, Multiset.mem_add, Multiset.mem_add, not_or, not_or] at hdue
    have hrecounted : Recounted (s.memory.remove r) t.memory := recounted_discard hd
    refine ⟨r, hdue.1.1, ⟨hlive, hdue.2, fun x => ?_, ?_⟩, ?_⟩
    · have hobject := hrecounted.objects x
      have hremove := object?_remove hbal.tidy.wired hlive x
      rw [hremove] at hobject
      refine hobject.trans ?_
      split
      · rfl
      · exact Option.map_map ..
    · exact (Aside.remove s.memory r).trans hrecounted.aside
    · exact plain_foldlM (fun h hd => plain_dropEdge h hd) (hplain.remove hbal.tidy hlive) (discard_eq_some hd)
  | component hw => exact absurd (by rw [hw]; exact List.mem_cons_self) (hcomponent _)
  | ended hw => exact absurd (by rw [hw]; exact List.mem_cons_self) (hcomponent _)
  | @orphans _ r rest _ hc =>
    obtain ⟨o, ho, hsym⟩ := hbal.candidates r (by rw [hc]; exact List.mem_cons_self)
    rw [(hplain.object r o ho).symmetric] at hsym
    exact absurd hsym (by decide)

/-- A release keeps what taking out one object keeps. -/
theorem Steps.keeps {P : Memory → Prop} (hplain : s.memory.Plain) (hbal : Balanced s outer extra)
    (hP : ∀ r m m', r ∉ outer → Sheds r m m' → P m → P m') (h : P s.memory) (hsteps : Steps s t) :
    P t.memory ∧ t.memory.Plain := by
  induction hsteps with
  | refl => exact ⟨h, hplain⟩
  | tail hsteps hstep ih =>
    obtain ⟨h, hplain⟩ := ih
    obtain ⟨r, hr, hsheds, hplain'⟩ := hstep.sheds hplain (hbal.steps hsteps)
    exact ⟨hP r _ _ hr hsheds h, hplain'⟩

theorem Steps.references_le (hplain : s.memory.Plain) (hbal : Balanced s outer extra)
    (hsteps : Steps s t) : t.memory.references ≤ s.memory.references :=
  (hsteps.keeps (P := fun m => m.references ≤ s.memory.references) hplain hbal
    (fun _ _ _ _ hsheds hle => hsheds.references_le.trans hle) le_rfl).1

end Release

/-! ## Nothing is there for nothing -/

namespace Memory

variable {m : Memory} {held lost : Multiset Ref} {x : Ref} {o : Object}

/-- Nothing is lost and no scope owns anything. -/
theorem Plain.count_eq (h : m.Plain) (hm : m.Consistent held lost) (ho : m.object? x = some o) :
    o.count.toNat = held.count x + m.deferred.count x + m.references.count x :=
  hm.counted.plain x o ho (h.object x o ho).symmetric (h.countingComponent? ho)

/-- How many references there are: those of the program, those that wait and those of fields. -/
def load (m : Memory) (held : Multiset Ref) : Nat :=
  Multiset.card held + m.deferred.length + Multiset.card m.references

theorem Plain.count_le_load (h : m.Plain) (hm : m.Consistent held lost) (ho : m.object? x = some o) :
    o.count.toNat ≤ m.load held := by
  rw [h.count_eq hm ho]
  exact Nat.add_le_add (Nat.add_le_add (Multiset.count_le_card x held) List.count_le_length)
    (Multiset.count_le_card x m.references)

/-- What is there is held, waits to be given up or is in a field. -/
theorem Plain.referred (h : m.Plain) (hm : m.Consistent held lost) (hx : m.isLive x = true) :
    x ∈ held ∨ x ∈ m.deferred ∨ x ∈ m.references := by
  obtain ⟨o, ho⟩ := isLive_iff.1 hx
  have hplain := h.object x o ho
  obtain ⟨hlost, hscopes⟩ := hm.not_mem_of_not_symmetric ho hplain.symmetric
  have hdue := hm.balanced.plain_due x o ho hplain.symmetric hplain.component
  have hcount : (held + lost + ↑m.deferred + m.scopeRefs + 0 + m.references).count x ≠ 0 :=
    fun hc => absurd (hdue.2 hc) List.not_mem_nil
  rw [Multiset.count_ne_zero] at hcount
  simp only [Multiset.mem_add, Multiset.mem_coe, Multiset.notMem_zero, or_false] at hcount
  tauto

end Memory

end Reclamation
