import Mathlib
import Reclamation.Proofs.Memory.Plain

/-!
# Memory that lags behind

A program that puts decrements off has objects in memory that the same program without delay has freed
already. `Lags m n held` is how the two memories compare: the second has all that the first has, with
the same fields, and what it has besides is not held and keeps itself in memory to no end. Going back
from such an object through strong fields one meets only objects of that kind, and one cannot go back
for ever (`Acc`), so no cycle is among them. That is what a count can free.

Taking out an object of either memory keeps the relation (`Lags.shed_ahead`, `Lags.shed_behind`),
and so does whatever is done to both. Weak fields are the one thing that differs: in the first memory
those to freed objects are empty (`Object.pruned`). When nothing waits any more, the object with
which going back would end has no reason to be there, and the memories are the same (`Lags.object_eq`).
-/

set_option autoImplicit false

namespace Reclamation

/-! ## Weak fields to what is gone -/

namespace Object

variable {o : Object} {p q : Ref → Bool} {index : Nat} {target : Option Ref}

/-- The object without its weak fields to what is not live. -/
def pruned (o : Object) (live : Ref → Bool) : Object :=
  o.emptied fun i => (o.weakTarget? i).any (!live ·)

theorem forget_eq_pruned (o : Object) (r : Ref) : o.forget r = o.pruned (· != r) := by
  refine o.emptied_congr fun i _ _ _ => ?_
  cases o.weakTarget? i with
  | none => rfl
  | some t =>
    rw [Bool.eq_iff_iff]
    simp

theorem bare_pruned (o : Object) (p : Ref → Bool) : (o.pruned p).bare = o.bare.pruned p :=
  rfl

theorem bare_setTarget (o : Object) (index : Nat) (target : Option Ref) :
    (o.setTarget index target).bare = o.bare.setTarget index target := by
  obtain ⟨⟨tag, payload, shared, symmetric⟩, _⟩ := o
  cases payload <;> rfl

theorem weakTarget?_pruned (o : Object) (p : Ref → Bool) (i : Nat) :
    (o.pruned p).weakTarget? i = (o.weakTarget? i).filter p := by
  rw [pruned, weakTarget?_emptied]
  cases o.weakTarget? i with
  | none => rfl
  | some t => cases hp : p t <;> simp [hp, Option.filter]

theorem pruned_congr (h : ∀ i t, o.weakTarget? i = some t → p t = q t) : o.pruned p = o.pruned q := by
  refine o.emptied_congr fun i _ _ _ => ?_
  cases hi : o.weakTarget? i with
  | none => rfl
  | some t => simp [h i t hi]

theorem pruned_eq_self (h : ∀ i t, o.weakTarget? i = some t → p t = true) : o.pruned p = o := by
  refine (o.emptied_congr fun i _ _ _ => ?_).trans o.emptied_false
  cases hi : o.weakTarget? i with
  | none => rfl
  | some t => simp [h i t hi]

theorem pruned_pruned (o : Object) (p q : Ref → Bool) :
    (o.pruned p).pruned q = o.pruned fun t => p t && q t := by
  rw [pruned, funext fun i => congrArg (Option.any (!q ·)) (weakTarget?_pruned o p i), pruned,
    emptied_emptied]
  refine o.emptied_congr fun i _ _ _ => ?_
  cases o.weakTarget? i with
  | none => rfl
  | some t => cases hp : p t <;> simp [hp]

@[simp] theorem strongTargets_pruned (o : Object) (p : Ref → Bool) :
    (o.pruned p).strongTargets = o.strongTargets := by
  refine strongTargets_emptied o fun i hi => ?_
  obtain ⟨t, ht, -⟩ := (Option.any_eq_true _ _).1 hi
  simp [ht]

/-- Writing a field and forgetting what is gone do not disturb each other. -/
theorem setTarget_pruned (h : ∀ t, target = some t → p t = true) :
    (o.setTarget index target).pruned p = (o.pruned p).setTarget index target := by
  obtain ⟨⟨tag, payload, shared, symmetric⟩, _⟩ := o
  cases payload with
  | int v => rfl
  | float v => rfl
  | record fields =>
    simp only [pruned, emptied, setTarget, Payload.emptied, weakTarget?, Object.fields]
    congr 3
    apply List.ext_getElem?
    intro i
    simp only [getElem?_emptiedFields, List.getElem?_modify]
    cases fields[i]? with
    | none => simp
    | some f =>
      obtain ⟨weak, old⟩ := f
      by_cases hi : index = i
      · have hold : ∀ c : Bool, (if c then ({ weak } : RefField) else { weak, target := old }).weak =
            weak := fun c => by cases c <;> rfl
        cases target with
        | none => simp [hi, hold]
        | some t =>
          cases weak with
          | false => simp [hi]
          | true => simp [hi, hold, h t rfl]
      · simp [hi]

theorem map_weak_pruned (o : Object) (p : Ref → Bool) :
    (o.pruned p).fields.map (·.weak) = o.fields.map (·.weak) := by
  rw [pruned, fields_emptied]
  apply List.ext_getElem?
  intro i
  rw [List.getElem?_map, List.getElem?_map, getElem?_emptiedFields]
  cases o.fields[i]? with
  | none => rfl
  | some f =>
    simp only [Option.map_some]
    split <;> rfl

/-- A strong field that is written refers to the new target, and the others to what they did. -/
theorem mem_strongTargets_setTarget {x : Ref} (hx : x ∈ (o.setTarget index target).strongTargets) :
    x ∈ o.strongTargets ∨ target = some x := by
  obtain ⟨i, f', hf', hweak, hx⟩ := mem_strongTargets_iff.1 hx
  rw [fields_setTarget, List.getElem?_modify] at hf'
  obtain ⟨f, hf, rfl⟩ := Option.map_eq_some_iff.1 hf'
  by_cases hi : index = i
  · rw [if_pos hi] at hx
    exact .inr hx
  · rw [if_neg hi] at hweak hx
    exact .inl (mem_strongTargets_iff.2 ⟨i, f, hf, hweak, hx⟩)

end Object

/-! ## What is there only for a while -/

/-- Going back from a place where a property holds does not end later if the property is kept. -/
theorem acc_of_back {α : Type} {before before' : α → α → Prop} {p : α → Prop}
    (h : ∀ y x, p x → before' y x → before y x ∧ p y) {x : α} (hx : Acc before x) :
    p x → Acc before' x := by
  induction hx with
  | intro x _ ih =>
    intro hp
    refine ⟨x, fun y hy => ?_⟩
    obtain ⟨hyx, hpy⟩ := h y x hp hy
    exact ih y hyx hpy

namespace Memory

/-- The second memory has what the first one has, and objects that nobody holds and that do not keep
each other in memory. -/
structure Lags (m n : Memory) (held : Multiset Ref) : Prop where
  size : n.cells.size = m.cells.size
  types : n.types = m.types
  object : ∀ x, m.isLive x = true →
    (m.object? x).map Object.bare = (n.object? x).map fun o => (o.pruned m.isLive).bare
  rest : ∀ x, n.isLive x = true → m.isLive x = false → x ∉ held ∧ Acc n.Refers x

namespace Lags

variable {m m' n n' : Memory} {held held' lost lost' : Multiset Ref} {r x y : Ref}

theorem refl (h : m.Wired) : Lags m m held where
  size := rfl
  types := rfl
  object x _ := by
    cases ho : m.object? x with
    | none => rfl
    | some o =>
      have hself : o.pruned m.isLive = o := Object.pruned_eq_self fun i t ht =>
        h.live x i t (by rw [weakTarget?, ho]; exact ht)
      rw [Option.map_some, Option.map_some, hself]
  rest _ hx hnot := absurd hx (ne_true_of_eq_false hnot)

theorem isLive (h : Lags m n held) (hx : m.isLive x = true) : n.isLive x = true := by
  have hobject := congrArg Option.isSome (h.object x hx)
  rw [Option.isSome_map, Option.isSome_map] at hobject
  exact hobject.symm.trans hx

/-- An object of both memories. -/
theorem exists_object (h : Lags m n held) {o : Object} (ho : m.object? x = some o) :
    ∃ o', n.object? x = some o' ∧ o.bare = (o'.pruned m.isLive).bare := by
  have hobject := h.object x (isLive_of_object? ho)
  rw [ho, Option.map_some] at hobject
  obtain ⟨o', ho', he⟩ := Option.map_eq_some_iff.1 hobject.symm
  exact ⟨o', ho', he.symm⟩

theorem strongTargets (h : Lags m n held) (hx : m.isLive x = true) :
    n.strongTargets x = m.strongTargets x := by
  obtain ⟨o, ho⟩ := isLive_iff.1 hx
  obtain ⟨o', ho', hbare⟩ := h.exists_object ho
  rw [strongTargets_of_object? ho, strongTargets_of_object? ho']
  have hfields : o.bare.strongTargets = (o'.pruned m.isLive).bare.strongTargets := by rw [hbare]
  exact (o'.strongTargets_pruned m.isLive).symm.trans hfields.symm

/-- An object has the same fields to write in both memories. -/
theorem map_weak (h : Lags m n held) {o o' : Object} (ho : m.object? x = some o)
    (ho' : n.object? x = some o') : o'.fields.map (·.weak) = o.fields.map (·.weak) ∧
      o'.frozen = o.frozen := by
  obtain ⟨o'', ho'', hbare⟩ := h.exists_object ho
  obtain rfl := Option.some.inj (ho'.symm.trans ho'')
  have hfields : o.bare.fields = (o'.pruned m.isLive).bare.fields := by rw [hbare]
  have hfrozen : o.bare.frozen = (o'.pruned m.isLive).bare.frozen := by rw [hbare]
  refine ⟨?_, hfrozen.symm⟩
  rw [← o'.map_weak_pruned m.isLive]
  exact (congrArg (List.map (·.weak)) hfields).symm

theorem refers (h : Lags m n held) (hyx : m.Refers y x) : n.Refers y x := by
  rw [Refers, h.strongTargets (isLive_of_mem_strongTargets hyx)]
  exact hyx

/-- Only what is gone from the first memory refers to what is gone from it. -/
theorem isLive_holder (h : Lags m n held) (htargets : ∀ y, ∀ x ∈ m.strongTargets y, m.isLive x = true)
    (hyx : n.Refers y x) (hx : m.isLive x = false) : m.isLive y = false := by
  by_contra hy
  rw [Bool.not_eq_false] at hy
  rw [Refers, h.strongTargets hy] at hyx
  exact ne_true_of_eq_false hx (htargets y x hyx)

/-! ## What does not matter -/

theorem of_cells (h : Lags m n held) (hm : m'.cells = m.cells) (hn : n'.cells = n.cells)
    (htypes : n'.types = m'.types) : Lags m' n' held := by
  obtain ⟨config, secret, types, cells, referrers, components, pool, deferred, arenas, scopes,
    stats⟩ := m'
  obtain ⟨config', secret', types', cells', referrers', components', pool', deferred', arenas',
    scopes', stats'⟩ := n'
  dsimp only at hm hn htypes
  subst hm hn htypes
  exact ⟨h.size, rfl, h.object, h.rest⟩

theorem recounted (h : Lags m n held) (hm : Recounted m m') (hn : Recounted n n') :
    Lags m' n' held where
  size := by rw [hn.aside.size, hm.aside.size, h.size]
  types := by rw [hn.aside.types, hm.aside.types, h.types]
  object x hx := by
    rw [hm.isLive] at hx
    have hobject := h.object x hx
    have hcounts : (m'.object? x).map Object.bare = (m.object? x).map Object.bare := hm.objects x
    have hcounts' : (n'.object? x).map Object.bare = (n.object? x).map Object.bare := hn.objects x
    rw [hcounts, hobject, funext hm.isLive]
    have hpruned := congrArg (Option.map (·.pruned m.isLive)) hcounts'
    rw [Option.map_map, Option.map_map] at hpruned
    exact hpruned.symm
  rest x hx hnot := by
    rw [hn.isLive] at hx
    rw [hm.isLive] at hnot
    have hrefers : n'.Refers = n.Refers := by
      funext a b
      rw [Refers, Refers, hn.strongTargets]
    rw [hrefers]
    exact h.rest x hx hnot

theorem mono (h : Lags m n held) (hheld : ∀ x ∈ held', x ∈ held) : Lags m n held' where
  size := h.size
  types := h.types
  object := h.object
  rest x hx hnot := ⟨fun hmem => (h.rest x hx hnot).1 (hheld x hmem), (h.rest x hx hnot).2⟩

/-- The program may take a reference to what the first memory has. -/
theorem hold (h : Lags m n held) (hr : m.isLive r = true) : Lags m n (r ::ₘ held) where
  size := h.size
  types := h.types
  object := h.object
  rest x hx hnot := by
    refine ⟨fun hmem => ?_, (h.rest x hx hnot).2⟩
    rcases Multiset.mem_cons.1 hmem with rfl | hmem
    · exact ne_true_of_eq_false hnot hr
    · exact (h.rest x hx hnot).1 hmem

/-! ## Taking out an object -/

/-- The first memory loses an object. In the second one only objects that the first one lost before
refer to it. -/
theorem shed_ahead (h : Lags m n held) (hs : Sheds r m m') (hr : r ∉ held) : Lags m' n held where
  size := h.size.trans hs.aside.size.symm
  types := h.types.trans hs.aside.types.symm
  object x hx := by
    obtain ⟨hxr, hx⟩ := (hs.isLive_iff x).1 hx
    obtain ⟨o, ho⟩ := isLive_iff.1 hx
    obtain ⟨o', ho', hbare⟩ := h.exists_object ho
    have hobject := hs.object x
    rw [if_neg hxr, ho, Option.map_some, o.forget_eq_pruned, Object.bare_pruned, hbare,
      ← Object.bare_pruned, Object.pruned_pruned] at hobject
    rw [hobject, ho', Option.map_some]
    congr 2
    refine Object.pruned_congr fun i t _ => ?_
    rw [Bool.eq_iff_iff, hs.isLive_iff]
    simp [and_comm]
  rest x hx hnot := by
    by_cases hxr : x = r
    · subst hxr
      refine ⟨hr, ⟨x, fun y hyx => ?_⟩⟩
      have hlive := isLive_of_mem_strongTargets hyx
      refine (h.rest y hlive ?_).2
      by_contra hy
      rw [Bool.not_eq_false] at hy
      rw [Refers, h.strongTargets hy] at hyx
      exact hs.unreferenced (mem_references.2 ⟨y, hyx⟩)
    · refine h.rest x hx ?_
      by_contra hlive
      rw [Bool.not_eq_false] at hlive
      exact ne_true_of_eq_false hnot ((hs.isLive_iff x).2 ⟨hxr, hlive⟩)

/-- The second memory loses an object that the first one has lost before. -/
theorem shed_behind (h : Lags m n held) (hs : Sheds r n n') (hr : m.isLive r = false) :
    Lags m n' held where
  size := hs.aside.size.trans h.size
  types := hs.aside.types.trans h.types
  object x hx := by
    have hxr : x ≠ r := by
      rintro rfl
      exact ne_true_of_eq_false hr hx
    obtain ⟨o', ho'⟩ := isLive_iff.1 (h.isLive hx)
    have hobject := hs.object x
    rw [if_neg hxr, ho', Option.map_some] at hobject
    have hpruned := congrArg (Option.map (·.pruned m.isLive)) hobject
    rw [Option.map_map, Option.map_some, ← Object.bare_pruned, o'.forget_eq_pruned,
      Object.pruned_pruned] at hpruned
    rw [h.object x hx, ho', Option.map_some]
    refine Eq.trans ?_ hpruned.symm
    congr 2
    refine Object.pruned_congr fun i t _ => ?_
    by_cases ht : t = r
    · simp [ht, hr]
    · simp [ht]
  rest x hx hnot := by
    obtain ⟨-, hlive⟩ := (hs.isLive_iff x).1 hx
    obtain ⟨hheld, hacc⟩ := h.rest x hlive hnot
    exact ⟨hheld, Subrelation.accessible (fun hyz => hs.refers hyz) hacc⟩

/-! ## Changing both -/

/-- A field that is written refers to its new target, and the others refer to what they did. -/
theorem refers_setTarget {index : Nat} {target : Option Ref}
    (hyx : (n.update r (·.setTarget index target)).Refers y x) : n.Refers y x ∨ target = some x := by
  rw [Refers, Memory.strongTargets, object?_update] at hyx
  by_cases hy : y = r
  · subst hy
    cases ho : n.object? y with
    | none => simp [ho] at hyx
    | some o =>
      rw [if_pos rfl, ho] at hyx
      rcases Object.mem_strongTargets_setTarget hyx with hx | hx
      · exact .inl (by rw [Refers, strongTargets_of_object? ho]; exact hx)
      · exact .inr hx
  · rw [if_neg hy] at hyx
    exact .inl hyx

/-- A field is written in both memories. -/
theorem setTarget (h : Lags m n held) (htargets : ∀ y, ∀ x ∈ m.strongTargets y, m.isLive x = true)
    (r : Ref) (index : Nat) {target : Option Ref}
    (htarget : ∀ t, target = some t → m.isLive t = true) :
    Lags (m.update r (·.setTarget index target)) (n.update r (·.setTarget index target)) held where
  size := by rw [size_cells_update, size_cells_update, h.size]
  types := h.types
  object x hx := by
    rw [isLive_update] at hx
    have hlive : (m.update r (·.setTarget index target)).isLive = m.isLive :=
      funext fun y => isLive_update m r y _
    rw [hlive, object?_update, object?_update]
    split
    · next hxr =>
      obtain ⟨o, ho⟩ := isLive_iff.1 (hxr ▸ hx)
      obtain ⟨o', ho', hbare⟩ := h.exists_object ho
      rw [ho, ho']
      simp only [Option.map_some]
      rw [Object.bare_setTarget, hbare, Object.setTarget_pruned htarget, Object.bare_setTarget]
    · exact h.object x hx
  rest x hx hnot := by
    rw [isLive_update] at hx hnot
    obtain ⟨hheld, hacc⟩ := h.rest x hx hnot
    refine ⟨hheld, acc_of_back (p := fun x => m.isLive x = false) (fun y z hz hyz => ?_) hacc hnot⟩
    rcases refers_setTarget hyz with hyz | ht
    · exact ⟨hyz, h.isLive_holder htargets hyz hz⟩
    · exact absurd (htarget z ht) (ne_true_of_eq_false hz)

/-- An object is allocated in both memories. -/
theorem allocate (h : Lags m n held) (hn : n.Wired) {spec : ObjectSpec} (hspec : spec.IsBlank) :
    Lags (m.allocate spec).1 (n.allocate spec).1 ((m.allocate spec).2 ::ₘ held) where
  size := by
    show (n.cells.push _).size = (m.cells.push _).size
    rw [Array.size_push, Array.size_push, h.size]
  types := h.types
  object x hx := by
    have hborn := Born.allocate m hspec
    have hborn' := Born.allocate n hspec
    have hsame : (n.allocate spec).2 = (m.allocate spec).2 := h.size
    rw [hsame] at hborn'
    rw [hborn.object, hborn'.object]
    split
    · next hxr =>
      rw [Option.map_some, Option.map_some, Object.pruned_eq_self fun i t ht => ?_]
      rw [Object.weakTarget?_of_isBlank hspec] at ht
      exact absurd ht (by simp)
    · next hxr =>
      have hlive : m.isLive x = true := by
        rw [Memory.isLive, hborn.object, if_neg hxr] at hx
        exact hx
      obtain ⟨o', ho'⟩ := isLive_iff.1 (h.isLive hlive)
      rw [h.object x hlive, ho', Option.map_some, Option.map_some]
      congr 2
      refine Object.pruned_congr fun i t ht => ?_
      -- no field refers to the new object yet
      have ht' : t ≠ (m.allocate spec).2 := by
        rintro rfl
        have hold := hn.live x i _ (by rw [weakTarget?, ho']; exact ht)
        rw [Memory.isLive, hborn'.free] at hold
        exact Bool.false_ne_true hold
      rw [Memory.isLive, Memory.isLive, hborn.object, if_neg ht']
  rest x hx hnot := by
    have hborn := Born.allocate m hspec
    have hborn' := Born.allocate n hspec
    have hsame : (n.allocate spec).2 = (m.allocate spec).2 := h.size
    rw [hsame] at hborn'
    have hxr : x ≠ (m.allocate spec).2 := by
      rintro rfl
      exact ne_true_of_eq_false hnot hborn.isLive_self
    rw [Memory.isLive, hborn'.object, if_neg hxr] at hx
    rw [Memory.isLive, hborn.object, if_neg hxr] at hnot
    obtain ⟨hheld, hacc⟩ := h.rest x hx hnot
    refine ⟨by simp [hxr, hheld], Subrelation.accessible (fun hyz => ?_) hacc⟩
    rwa [Refers, ← hborn'.strongTargets]

/-! ## Running a release in one of them -/

/-- The first memory goes through a release. -/
theorem release_ahead {s t : Release} {outer extra : Multiset Ref} (h : Lags s.memory n held)
    (hplain : s.memory.Plain) (hbal : Balanced s outer extra) (hheld : ∀ x ∈ held, x ∈ outer)
    (hsteps : Release.Steps s t) : Lags t.memory n held ∧ t.memory.Plain :=
  hsteps.keeps (P := fun m => Lags m n held) hplain hbal
    (fun r _ _ hr hsheds hlags => hlags.shed_ahead hsheds fun hmem => hr (hheld r hmem)) h

/-- The second memory goes through a release. The first one keeps nothing for nothing, so what the
second one loses is gone from the first. -/
theorem release_behind {s t : Release} {outer extra : Multiset Ref} (h : Lags m s.memory held)
    (hm : ∀ x, m.isLive x = true → x ∈ held ∨ x ∈ m.references)
    (hplain : s.memory.Plain) (hbal : Balanced s outer extra) (hheld : ∀ x ∈ held, x ∈ outer)
    (hsteps : Release.Steps s t) : Lags m t.memory held ∧ t.memory.Plain := by
  refine hsteps.keeps (P := fun n => Lags m n held) hplain hbal
    (fun r _ _ hr hsheds hlags => hlags.shed_behind hsheds ?_) h
  by_contra hlive
  rw [Bool.not_eq_false] at hlive
  rcases hm r hlive with hmem | hmem
  · exact hr (hheld r hmem)
  · obtain ⟨y, hyr⟩ := mem_references.1 hmem
    exact hsheds.unreferenced (mem_references.2 ⟨y, hlags.refers hyr⟩)

/-! ## Catching up -/

/-- When nothing waits any more, the second memory has nothing that the first one has not. -/
theorem isLive_eq (h : Lags m n held) (hm : m.Consistent held lost) (hn : n.Consistent held lost')
    (hplain : n.Plain) (hdeferred : n.deferred = []) : n.isLive = m.isLive := by
  have hnone : ∀ x, Acc n.Refers x → n.isLive x = true → m.isLive x = true := by
    intro x hacc
    induction hacc with
    | intro x _ ih =>
      intro hx
      by_contra hnot
      rw [Bool.not_eq_true] at hnot
      rcases hplain.referred hn hx with hmem | hmem | hmem
      · exact (h.rest x hx hnot).1 hmem
      · rw [hdeferred] at hmem
        exact List.not_mem_nil hmem
      · -- some object refers to it, and that one is gone from the first memory just as well
        obtain ⟨y, hyx⟩ := mem_references.1 hmem
        have hy := ih y hyx (isLive_of_mem_strongTargets hyx)
        exact ne_true_of_eq_false (h.isLive_holder hm.balanced.targets_live hyx hnot) hy
  funext x
  rw [Bool.eq_iff_iff]
  refine ⟨fun hx => ?_, h.isLive⟩
  by_contra hnot
  rw [Bool.not_eq_true] at hnot
  exact ne_true_of_eq_false hnot (hnone x (h.rest x hx hnot).2 hx)

/-- When nothing waits any more, both memories have the same objects, with the same fields and the same
counts, and as many were freed. -/
theorem object_eq (h : Lags m n held) (hm : m.Consistent held lost) (hn : n.Consistent held lost')
    (hplainm : m.Plain) (hplainn : n.Plain) (hm' : m.deferred = []) (hn' : n.deferred = []) :
    (∀ x, n.object? x = m.object? x) ∧ n.stats.freed = m.stats.freed := by
  have hlive := h.isLive_eq hm hn hplainn hn'
  have hrefs : n.references = m.references := references_congr fun x => by
    by_cases hx : m.isLive x = true
    · exact h.strongTargets hx
    · rw [strongTargets_of_not_isLive hx, strongTargets_of_not_isLive (by rwa [hlive])]
  refine ⟨fun x => ?_, ?_⟩
  · cases ho : m.object? x with
    | none =>
      have hx : n.isLive x = false := by rw [hlive, Memory.isLive, ho]; rfl
      simpa [Memory.isLive] using hx
    | some o =>
      obtain ⟨o', ho', hbare⟩ := h.exists_object ho
      rw [Object.pruned_eq_self fun i t ht => ?_] at hbare
      · have hcount := hplainm.count_eq hm ho
        have hcount' := hplainn.count_eq hn ho'
        rw [hrefs, hn', ← hm', ← hcount] at hcount'
        have hinternal := (hplainm.object x o ho).internal
        have hinternal' := (hplainn.object x o' ho').internal
        rw [ho']
        congr 1
        exact Object.eq_of_bare hbare.symm (UInt32.toNat_inj.1 hcount') (hinternal'.trans hinternal.symm)
      · rw [← hlive]
        exact hn.tidy.wired.live x i t (by rw [weakTarget?, ho']; exact ht)
  · have htally := hplainm.tally
    have htally' := hplainn.tally
    rw [h.size, population_congr h.size (congrFun hlive)] at htally'
    omega

end Lags

end Memory

end Reclamation
