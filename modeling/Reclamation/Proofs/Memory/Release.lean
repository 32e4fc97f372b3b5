import Mathlib
import Reclamation.Proofs.Memory.Orphans

/-!
# A release runs to its end

`Release.run` is read as a sequence of steps, each of which takes out one group of objects: one that is
due, the members of a component that is due, or what the candidates turn out to leave behind. In
balanced memory every step can be made, keeps all counts right (`Balanced.step`) and takes out only
objects that are there: none of them is gone already, nothing that refers to them or that they refer to
is gone (`Balanced.clean`). So a release ends with nothing left to do and all counts right
(`Balanced.run`), and an object that the outside refers to is still where it was, in the same
generation of its slot (`Balanced.ledger_live`, `Steps.steady`). What else is true of every step follows
from what discarding the group comes to (`Step.discards`).

Some things a release keeps in any memory, balanced or not. For these it is enough to look at one object
that is taken out and at memory whose counts change (`Memory.Lasting`).
-/

set_option autoImplicit false

namespace Reclamation

/-! ## Steps -/

namespace Release

/-- Taking out the next thing that is due. -/
inductive Step : Release → Release → Prop
  | object {s t : Release} {r : Ref} {work : List Doomed} : s.work = .object r :: work →
      ({ s with work } : Release).discard [r] = some t → Step s t
  | component {s t : Release} {id : ComponentId} {work : List Doomed} :
      s.work = .component id :: work → s.memory.components.isLive id = true →
      ({ s with work } : Release).endComponent id = some t → Step s t
  | ended {s : Release} {id : ComponentId} {work : List Doomed} : s.work = .component id :: work →
      s.memory.components.isLive id = false → Step s { s with work }
  | orphans {s t : Release} {r : Ref} {rest : List Ref} : s.work = [] → s.candidates = r :: rest →
      ({ s with candidates := [] } : Release).discard (s.memory.orphans (r :: rest)) = some t →
      Step s t

/-- Any number of steps. -/
def Steps : Release → Release → Prop :=
  Relation.ReflTransGen Step

/-- Nothing is left to do. -/
def Finished (s : Release) : Prop :=
  s.work = [] ∧ s.candidates = []

/-- The objects that the next step takes out. -/
def group (s : Release) : List Ref :=
  match s.work with
  | .object r :: _ => [r]
  | .component id :: _ => (s.memory.components.members? id).getD []
  | [] => s.memory.orphans s.candidates

variable {s t u : Release}

theorem group_of_object {r : Ref} {work : List Doomed} (hw : s.work = .object r :: work) : s.group = [r] := by
  rw [group, hw]

theorem group_of_component {id : ComponentId} {e : ComponentEntry} {work : List Doomed}
    (hw : s.work = .component id :: work) (he : s.memory.components.entry? id = some e) : s.group = e.members := by
  rw [group, hw]
  dsimp only
  rw [ComponentRegistry.members?, he, Option.map_some, Option.getD_some]

theorem group_of_nil (hw : s.work = []) : s.group = s.memory.orphans s.candidates := by
  rw [group, hw]

/-- A run goes on from where a step leads. -/
theorem run_of_step (h : Step s t) : s.run = t.run := by
  cases h with
  | object hw hd =>
    rw [run]
    split
    · next r' work' hw' =>
      obtain ⟨he, rfl⟩ := List.cons_eq_cons.1 (hw.symm.trans hw')
      obtain rfl := Doomed.object.inj he
      rw [hd]
    · next hw' => simp [hw] at hw'
    · next hw' => simp [hw] at hw'
  | component hw hl hd =>
    rw [run]
    split
    · next hw' => simp [hw] at hw'
    · next id' work' hw' =>
      obtain ⟨he, rfl⟩ := List.cons_eq_cons.1 (hw.symm.trans hw')
      obtain rfl := Doomed.component.inj he
      rw [dif_pos hl, hd]
    · next hw' => simp [hw] at hw'
  | ended hw hl =>
    rw [run]
    split
    · next hw' => simp [hw] at hw'
    · next id' work' hw' =>
      obtain ⟨he, rfl⟩ := List.cons_eq_cons.1 (hw.symm.trans hw')
      obtain rfl := Doomed.component.inj he
      rw [dif_neg (by simp [hl])]
    · next hw' => simp [hw] at hw'
  | orphans hw hc hd =>
    rw [run]
    split
    · next hw' => simp [hw] at hw'
    · next hw' => simp [hw] at hw'
    · split
      · next hc' => simp [hc] at hc'
      · next r' rest' hc' =>
        obtain ⟨rfl, rfl⟩ := List.cons_eq_cons.1 (hc.symm.trans hc')
        rw [hd]

theorem run_of_steps (h : Steps s t) : s.run = t.run := by
  induction h with
  | refl => rfl
  | tail _ hstep ih => exact ih.trans (run_of_step hstep)

theorem run_of_finished (h : Finished s) : s.run = some s := by
  rw [run]
  split
  · next hw => simp [h.1] at hw
  · next hw => simp [h.1] at hw
  · split
    · rfl
    · next hc => simp [h.2] at hc

/-- What a run comes to is where steps lead until nothing is left to do. -/
theorem steps_of_run (h : s.run = some t) : Steps s t ∧ t.Finished := by
  fun_induction run s with
  | case1 => exact absurd h (by simp)
  | case2 s r work hw u hd ih =>
    obtain ⟨hsteps, hfinished⟩ := ih h
    exact ⟨.head (.object hw hd) hsteps, hfinished⟩
  | case3 => exact absurd h (by simp)
  | case4 s id work hw hlive u hd ih =>
    obtain ⟨hsteps, hfinished⟩ := ih h
    exact ⟨.head (.component hw hlive hd) hsteps, hfinished⟩
  | case5 s id work hw hdead ih =>
    obtain ⟨hsteps, hfinished⟩ := ih h
    exact ⟨.head (.ended hw (by simpa using hdead)) hsteps, hfinished⟩
  | case6 s hw hc =>
    obtain rfl := Option.some.inj h
    exact ⟨.refl, hw, hc⟩
  | case7 => exact absurd h (by simp)
  | case8 s hw r rest hc u hd ih =>
    obtain ⟨hsteps, hfinished⟩ := ih h
    exact ⟨.head (.orphans hw hc hd) hsteps, hfinished⟩

end Release

/-! ## What holds throughout -/

/-- What is kept whatever is taken out and however references and components are counted. -/
structure Memory.Lasting (Q : Memory → Prop) : Prop where
  remove : ∀ {m : Memory} (r : Ref), Q m → Q (m.remove r)
  recount : ∀ {m m' : Memory}, Recounted m m' → Q m → Q m'
  count : ∀ {m : Memory} (components : ComponentRegistry) (stats : Statistics), Q m → Q { m with components, stats }

namespace Memory.Lasting

open Release

variable {Q : Memory → Prop} {s t : Release}

theorem removeAll (h : Lasting Q) {m : Memory} (hm : Q m) (group : List Ref) : Q (group.foldl Memory.remove m) :=
  List.foldlRecOn group _ hm fun _ hn r _ => h.remove r hn

theorem discard (h : Lasting Q) {group : List Ref} (hd : s.discard group = some t) (hs : Q s.memory) : Q t.memory := by
  exact h.recount (recounted_discard hd) (h.removeAll hs group)

theorem step (h : Lasting Q) (hstep : Step s t) (hs : Q s.memory) : Q t.memory := by
  cases hstep with
  | @object _ r work _ hd => exact h.discard (s := { s with work }) hd hs
  | @component _ id work _ _ hd =>
    obtain ⟨u, hu, rfl⟩ := Option.map_eq_some_iff.1 hd
    exact h.count _ _ (h.discard hu (h.count _ _ hs))
  | ended => exact hs
  | orphans _ _ hd => exact h.discard (s := { s with candidates := [] }) hd hs

theorem steps (h : Lasting Q) (hsteps : Steps s t) (hs : Q s.memory) : Q t.memory := by
  induction hsteps with
  | refl => exact hs
  | tail _ hstep ih => exact h.step hstep ih

end Memory.Lasting

/-! ## Taking out what is there -/

namespace Memory

/-- An object that can be taken out: it is live, and so are the holders of the weak fields that are
to be emptied; its slot, if it has one, is in use. -/
structure Removable (m : Memory) (r : Ref) : Prop where
  live : m.isLive r = true
  holders : ∀ f ∈ m.referrers.getD r [], m.isLive f.1 = true
  slot : ∀ o, m.object? r = some o → o.origin = .slot → m.pool.isInUse r = true

/-- Objects that can be taken out one after the other. -/
def RemovableInTurn : Memory → List Ref → Prop
  | _, [] => True
  | m, r :: rest => m.Removable r ∧ (m.remove r).RemovableInTurn rest

variable {m : Memory} {group : List Ref}

theorem Tidy.removable {r : Ref} (h : m.Tidy) (hr : m.isLive r = true) : m.Removable r where
  live := hr
  holders := by
    rintro ⟨x, i⟩ hx
    have hweak := h.wired.mem_iff.1 hx
    unfold weakTarget? at hweak
    obtain ⟨o, ho, -⟩ := Option.bind_eq_some_iff.1 hweak
    exact isLive_of_object? ho
  slot o ho hslot := (h.housed.inUse_iff r).2 ⟨o, ho, hslot⟩

theorem Tidy.removableInTurn {group : List Ref} {m : Memory} (h : m.Tidy) (hnodup : group.Nodup)
    (hlive : ∀ r ∈ group, m.isLive r = true) : m.RemovableInTurn group :=
  Tidy.removeAll_induction (P := RemovableInTurn) (fun _ => trivial)
    (fun h hr _ hrest => ⟨h.removable hr, hrest⟩) h hnodup hlive

end Memory

/-- Nothing that is gone was touched so far, and the next step touches nothing that is: what it takes out
is there and is taken out once, what that refers to is there, and the candidates that it looks at are. -/
structure Release.Clean (s : Release) : Prop where
  stale : s.stale = []
  removable : s.memory.RemovableInTurn s.group
  targets : ∀ x ∈ s.group.flatMap s.memory.strongTargets, s.memory.isLive x = true
  candidates : ∀ x ∈ s.candidates, s.memory.isLive x = true
  component : ∀ id work, s.work = .component id :: work → s.memory.components.isLive id = true

/-! ## Steps in balanced memory -/

namespace Balanced

open Memory Release

variable {s t : Release} {outer extra : Multiset Ref}

/-- An object that is due has no references. -/
theorem closed_object (h : Balanced s outer extra) {r : Ref} (hr : .object r ∈ s.work) :
    Closed s.memory outer extra [r] := by
  obtain ⟨o, ho, hs, hc⟩ := h.work_object r hr
  have hzero := (h.plain_due r o ho hs hc).1 hr
  have hlive : ∀ x ∈ [r], s.memory.isLive x = true := fun x hx =>
    List.mem_singleton.1 hx ▸ isLive_of_object? ho
  rw [s.memory.references_eq_add (List.nodup_singleton r) hlive] at hzero
  simp only [Multiset.count_add, Nat.add_eq_zero_iff, Multiset.count_eq_zero] at hzero
  refine .of_not_mem (List.nodup_singleton r) hlive ?_ ?_ ?_ <;>
    · intro x hx
      rw [List.mem_singleton.1 hx]
      simp [hzero]

/-- The members of a component that is due have references from members only. -/
theorem closed_component (h : Balanced s outer extra) {id : ComponentId} {e : ComponentEntry}
    (hid : .component id ∈ s.work) (he : s.memory.components.entry? id = some e) :
    Closed s.memory outer extra e.members := by
  have hzero := (h.external_due id e he).1 hid
  rw [h.external id e he, Multiset.countP_eq_zero] at hzero
  simp only [Multiset.mem_add] at hzero
  have hfrozen := h.component id e he
  refine .of_not_mem hfrozen.nodup (fun x hx => ?_) (fun x hx hout => ?_) (fun x hx hextra => ?_)
    fun x hx hfield => ?_
  · obtain ⟨o, ho, -⟩ := hfrozen.frozen x hx
    exact isLive_of_object? ho
  · exact hzero x (.inl (.inl hout)) hx
  · exact hzero x (.inl (.inr hextra)) hx
  · exact hzero x (.inr hfield) hx

/-- What the next step takes out is a closed group. -/
theorem closed_group (h : Balanced s outer extra) : Closed s.memory outer extra s.group := by
  cases hw : s.work with
  | nil =>
    rw [group_of_nil hw]
    exact h.closed_orphans s.candidates
  | cons d work =>
    have hd : d ∈ s.work := by rw [hw]; exact List.mem_cons_self
    cases d with
    | object r =>
      rw [group_of_object hw]
      exact h.closed_object hd
    | component id =>
      obtain ⟨e, he⟩ := h.work_component id hd
      rw [group_of_component hw he]
      exact h.closed_component hd he

/-- What a group refers to is there. -/
theorem targets_of_group (h : Balanced s outer extra) (group : List Ref) :
    ∀ x ∈ group.flatMap s.memory.strongTargets, s.memory.isLive x = true := by
  intro x hx
  obtain ⟨y, -, hxy⟩ := List.mem_flatMap.1 hx
  exact h.targets_live y x hxy

theorem clean (h : Balanced s outer extra) : s.Clean where
  stale := h.stale
  removable := h.tidy.removableInTurn h.closed_group.nodup h.closed_group.live
  targets := h.targets_of_group s.group
  candidates x hx := by
    obtain ⟨o, ho, -⟩ := h.candidates x hx
    exact isLive_of_object? ho
  component id work hw := by
    obtain ⟨e, he⟩ := h.work_component id (by rw [hw]; simp)
    exact ComponentRegistry.isLive_iff.2 ⟨e, he⟩

theorem disjoint_members (h : Balanced s outer extra) {group : List Ref}
    (hgroup : ∀ x ∈ group, ∃ o, s.memory.object? x = some o ∧ o.component = none)
    {id : ComponentId} {e : ComponentEntry} (he : s.memory.components.entry? id = some e) :
    List.Disjoint group e.members := by
  intro x hx hm
  obtain ⟨o, ho, hc⟩ := hgroup x hx
  exact h.notMem_members ho hc he hm

/-- An object that is due. -/
theorem discard_object (h : Balanced s outer extra) {r : Ref} {work : List Doomed}
    (hw : s.work = .object r :: work) :
    ∃ t, ({ s with work } : Release).discard [r] = some t ∧ Balanced t outer extra := by
  have hmem : .object r ∈ s.work := by rw [hw]; simp
  obtain ⟨hnot, hnodup⟩ := List.nodup_cons.1 (hw ▸ h.work_nodup)
  obtain ⟨o, ho, hs, hc⟩ := h.work_object r hmem
  have hdisj : ∀ {id e}, s.memory.components.entry? id = some e → List.Disjoint [r] e.members :=
    h.disjoint_members fun x hx => ⟨o, List.mem_singleton.1 hx ▸ ho, hc⟩
  refine h.discard (h.closed_object hmem) h.tidy.registry (fun id e he => ⟨he, hdisj he⟩)
    (fun id e he _ _ _ => he) hnodup (fun x => ?_) (fun id => ?_) fun x hx => ⟨hx, fun hxr => ?_⟩
  · rw [hw, List.mem_cons, List.mem_singleton]
    constructor
    · exact fun hx => ⟨.inr hx, fun e => hnot (e ▸ hx)⟩
    · rintro ⟨he | hx, hne⟩
      · exact absurd (Doomed.object.inj he) hne
      · exact hx
  · rw [hw, List.mem_cons, or_iff_right (by simp)]
    exact ⟨fun hid => ⟨hid, h.work_component id (by rw [hw]; simp [hid])⟩, fun hid => hid.1⟩
  · obtain ⟨o', ho', hs'⟩ := h.candidates x hx
    rw [List.mem_singleton.1 hxr] at ho'
    obtain rfl := Option.some.inj (ho.symm.trans ho')
    rw [hs] at hs'
    exact absurd hs' (by decide)

/-- The members of a component that is due and was just taken off the registry. -/
theorem discard_component (h : Balanced s outer extra) {id : ComponentId} {e : ComponentEntry} {work : List Doomed}
    (hw : s.work = .component id :: work) (he : s.memory.components.entry? id = some e) :
    ∃ t, ({ s with memory := { s.memory with components := s.memory.components.take id }, work } : Release).discard
      e.members = some t ∧ Balanced t outer extra := by
  have hmem : .component id ∈ s.work := by rw [hw]; simp
  obtain ⟨hnot, hnodup⟩ := List.nodup_cons.1 (hw ▸ h.work_nodup)
  have hentry := ComponentRegistry.entry?_take he
  have hmember : ∀ x ∈ e.members, ∃ o, s.memory.object? x = some o ∧ o.symmetric = false ∧
      o.component = some id := fun x hx => by
    obtain ⟨o, ho, hs, hc, -⟩ := (h.component id e he).frozen x hx
    exact ⟨o, ho, hs, hc⟩
  refine h.discard (h.closed_component hmem he) (h.tidy.registry.take id) (fun id' e' he' => ?_)
    (fun id' e' he' x hx hxe => ?_) hnodup (fun x => ?_) (fun id' => ?_)
    fun x hx => ⟨hx, fun hxe => ?_⟩
  · rw [hentry] at he'
    split at he'
    · exact absurd he' (by simp)
    · next hid =>
      exact ⟨he', fun x hx hx' => hid (h.eq_of_mem_members he' he hx' hx)⟩
  · rw [hentry, if_neg, he']
    rintro rfl
    obtain rfl := Option.some.inj (he.symm.trans he')
    exact hxe hx
  · rw [hw, List.mem_cons, or_iff_right (by simp), iff_self_and]
    intro hx hxe
    obtain ⟨o, ho, -, hc⟩ := h.work_object x (by rw [hw]; simp [hx])
    obtain ⟨o', ho', -, hc'⟩ := hmember x hxe
    obtain rfl := Option.some.inj (ho.symm.trans ho')
    rw [hc] at hc'
    exact absurd hc' (by simp)
  · rw [hentry, hw, List.mem_cons]
    constructor
    · intro hid
      have hne : id' ≠ id := fun e' => hnot (e' ▸ hid)
      rw [if_neg hne]
      exact ⟨.inr hid, h.work_component id' (by rw [hw]; simp [hid])⟩
    · rintro ⟨he' | hid, e', hlive⟩
      · rw [if_pos (Doomed.component.inj he')] at hlive
        exact absurd hlive (by simp)
      · exact hid
  · obtain ⟨o, ho, hs⟩ := h.candidates x hx
    obtain ⟨o', ho', hs', -⟩ := hmember x hxe
    obtain rfl := Option.some.inj (ho.symm.trans ho')
    rw [hs] at hs'
    exact absurd hs' (by decide)

/-- A component that is due. -/
theorem endComponent (h : Balanced s outer extra) {id : ComponentId} {work : List Doomed}
    (hw : s.work = .component id :: work) :
    ∃ t, ({ s with work } : Release).endComponent id = some t ∧ Balanced t outer extra := by
  obtain ⟨e, he⟩ := h.work_component id (by rw [hw]; simp)
  obtain ⟨t, ht, hbal⟩ := h.discard_component hw he
  refine ⟨_, ?_, hbal.of_stats fun stats =>
    { stats with componentsReleased := stats.componentsReleased + 1 }⟩
  unfold Release.endComponent
  dsimp only
  rw [ComponentRegistry.members?, he, Option.map_some, Option.getD_some, ht]
  rfl

/-- What the candidates leave behind. -/
theorem discard_orphans (h : Balanced s outer extra) (hw : s.work = []) (candidates : List Ref) :
    ∃ t, ({ s with candidates := [] } : Release).discard (s.memory.orphans candidates) = some t ∧
      Balanced t outer extra := by
  have hdisj : ∀ {id e}, s.memory.components.entry? id = some e →
      List.Disjoint (s.memory.orphans candidates) e.members := h.disjoint_members fun x hx => by
    obtain ⟨o, ho, hs, -⟩ := isUnowned_iff.1 (isUnowned_of_mem_orphans hx)
    exact ⟨o, ho, (h.symmetric x o ho hs).1⟩
  refine h.discard (h.closed_orphans candidates) h.tidy.registry (fun id e he => ⟨he, hdisj he⟩)
    (fun id e he _ _ _ => he) h.work_nodup (fun x => ?_) (fun id => ?_) (by simp)
  · rw [hw]
    simp
  · rw [hw]
    simp

/-- A step keeps all counts right. -/
theorem step (h : Balanced s outer extra) (hstep : Step s t) : Balanced t outer extra := by
  cases hstep with
  | object hw hd =>
    obtain ⟨t', ht', hbal⟩ := h.discard_object hw
    obtain rfl := Option.some.inj (hd.symm.trans ht')
    exact hbal
  | component hw _ hd =>
    obtain ⟨t', ht', hbal⟩ := h.endComponent hw
    obtain rfl := Option.some.inj (hd.symm.trans ht')
    exact hbal
  | ended hw hl =>
    -- what is due is live
    rw [h.clean.component _ _ hw] at hl
    exact absurd hl (by decide)
  | orphans hw _ hd =>
    obtain ⟨t', ht', hbal⟩ := h.discard_orphans hw _
    obtain rfl := Option.some.inj (hd.symm.trans ht')
    exact hbal

theorem steps (h : Balanced s outer extra) (hsteps : Steps s t) : Balanced t outer extra := by
  induction hsteps with
  | refl => exact h
  | tail _ hstep ih => exact ih.step hstep

/-- As long as something is left to do, a step can be made. -/
theorem progress (h : Balanced s outer extra) : s.Finished ∨ ∃ t, Step s t := by
  cases hw : s.work with
  | cons d work =>
    refine .inr ?_
    cases d with
    | object r =>
      obtain ⟨t, ht, -⟩ := h.discard_object hw
      exact ⟨t, .object hw ht⟩
    | component id =>
      obtain ⟨t, ht, -⟩ := h.endComponent hw
      exact ⟨t, .component hw (h.clean.component id work hw) ht⟩
  | nil =>
    cases hc : s.candidates with
    | nil => exact .inl ⟨hw, hc⟩
    | cons r rest =>
      obtain ⟨t, ht, -⟩ := h.discard_orphans hw (r :: rest)
      exact .inr ⟨t, .orphans hw hc ht⟩

end Balanced

namespace Release

open Memory

variable {s t : Release} {outer extra : Multiset Ref}

/-- What a step does before it discards the next group. It takes a component that ends off the registry, and forgets
the candidates when it looks for orphans among what they lead to. -/
structure Prepared (s : Release) (components : ComponentRegistry) (candidates : List Ref) : Prop where
  sound : components.Sound
  capacity : components.capacity = s.memory.components.capacity
  back : ∀ id e, components.entry? id = some e → s.memory.components.entry? id = some e
  kept : ∀ id e, s.memory.components.entry? id = some e → ∀ x ∈ e.members, x ∉ s.group → components.entry? id = some e
  candidates : candidates = s.candidates ∨ candidates = [] ∧ s.group = s.memory.orphans s.candidates

theorem Prepared.mem_candidates {components : ComponentRegistry} {candidates : List Ref}
    (h : s.Prepared components candidates) {x : Ref} (hx : x ∈ candidates) : x ∈ s.candidates := by
  rcases h.candidates with rfl | ⟨rfl, -⟩
  · exact hx
  · exact absurd hx List.not_mem_nil

theorem Prepared.of_components (h : s.memory.components.Sound) {candidates : List Ref}
    (hcandidates : candidates = s.candidates ∨ candidates = [] ∧ s.group = s.memory.orphans s.candidates) :
    s.Prepared s.memory.components candidates where
  sound := h
  capacity := rfl
  back _ _ he := he
  kept _ _ he _ _ _ := he
  candidates := hcandidates

/-- What a step comes to: a group is discarded, and a component that ended with it is counted. -/
theorem Step.discards (h : Balanced s outer extra) (hstep : Step s t) : ∃ components work candidates u released,
    s.Prepared components candidates ∧
    ({ s with memory := { s.memory with components }, work, candidates } : Release).discard s.group = some u ∧
    t = { u with memory.stats.componentsReleased := released } := by
  have hsound := h.tidy.registry
  cases hstep with
  | @object _ r work hw hd =>
    rw [group_of_object hw]
    exact ⟨s.memory.components, work, s.candidates, t, t.memory.stats.componentsReleased,
      .of_components hsound (.inl rfl), hd, rfl⟩
  | @component _ id work hw hl hd =>
    obtain ⟨e, he⟩ := ComponentRegistry.isLive_iff.1 hl
    have hgroup := group_of_component hw he
    obtain ⟨u, hu, rfl⟩ := Option.map_eq_some_iff.1 hd
    dsimp only at hu
    rw [ComponentRegistry.members?, he, Option.map_some, Option.getD_some, ← hgroup] at hu
    have hentry := ComponentRegistry.entry?_take he
    refine ⟨s.memory.components.take id, work, s.candidates, u, _, ?_, hu, rfl⟩
    exact
      { sound := hsound.take id
        capacity := s.memory.components.capacity_take id
        back := fun id' e' he' => by
          rw [hentry] at he'
          split at he'
          · exact absurd he' (by simp)
          · exact he'
        kept := fun id' e' he' x hx hout => by
          rw [hentry, if_neg, he']
          rintro rfl
          obtain rfl := Option.some.inj (he.symm.trans he')
          exact hout (hgroup ▸ hx)
        candidates := .inl rfl }
  | ended hw hl =>
    -- what is due is live
    rw [h.clean.component _ _ hw] at hl
    exact absurd hl (by decide)
  | @orphans _ r rest hw hc hd =>
    have hgroup := group_of_nil hw
    rw [← hc, ← hgroup] at hd
    exact ⟨s.memory.components, s.work, [], t, t.memory.stats.componentsReleased,
      .of_components hsound (.inr ⟨rfl, hgroup⟩), hd, rfl⟩

end Release

/-! ## Every release ends -/

namespace Release

variable {s t : Release}

/-- What gets less with every step. -/
def measure (s : Release) : Nat ×ₗ Nat :=
  toLex (s.weight, s.work.length + s.candidates.length)

theorem measure_lt {n : Nat} (hn : n < s.work.length + s.candidates.length)
    (hle : t.weight < s.weight ∨
      t.weight = s.weight ∧ t.work.length + t.candidates.length = n) : t.measure < s.measure := by
  rcases hle with hlt | ⟨heq, hlen⟩
  · exact Prod.Lex.toLex_lt_toLex.2 (.inl hlt)
  · exact Prod.Lex.toLex_lt_toLex.2 (.inr ⟨heq, hlen ▸ hn⟩)

theorem Step.measure_lt (h : Step s t) : t.measure < s.measure := by
  cases h with
  | @object _ r work hw hd =>
    refine Release.measure_lt (n := work.length + s.candidates.length) (by simp [hw]) ?_
    rcases weight_discard hd with hlt | rfl
    · exact .inl hlt
    · exact .inr ⟨rfl, rfl⟩
  | @component _ id work hw hl hd =>
    have hlt := weight_endComponent (s := { s with work }) hl hd
    exact Prod.Lex.toLex_lt_toLex.2 (.inl hlt)
  | @ended id work hw hl =>
    exact Release.measure_lt (n := work.length + s.candidates.length) (by simp [hw])
      (.inr ⟨rfl, rfl⟩)
  | @orphans _ r rest hw hc hd =>
    refine Release.measure_lt (n := s.work.length) (by simp [hc]) ?_
    rcases weight_discard hd with hlt | rfl
    · exact .inl hlt
    · exact .inr ⟨rfl, by simp⟩

end Release

namespace Balanced

open Memory Release

/-- A release in balanced memory comes to its end, with all counts right. -/
theorem run {s : Release} {outer extra : Multiset Ref} (h : Balanced s outer extra) :
    ∃ t, Steps s t ∧ t.Finished ∧ s.run = some t ∧ Balanced t outer extra := by
  suffices hend : ∃ t, Steps s t ∧ t.Finished by
    obtain ⟨t, hsteps, hfinished⟩ := hend
    exact ⟨t, hsteps, hfinished, (run_of_steps hsteps).trans (run_of_finished hfinished),
      h.steps hsteps⟩
  induction hm : s.measure using WellFoundedLT.induction generalizing s with
  | ind n ih =>
    rcases h.progress with hfinished | ⟨u, hstep⟩
    · exact ⟨s, .refl, hfinished⟩
    · obtain ⟨t, hsteps, hfinished⟩ := ih u.measure (hm ▸ hstep.measure_lt) (h.step hstep) rfl
      exact ⟨t, .head hstep hsteps, hfinished⟩

end Balanced

/-! ## What a release leaves alone -/

/-- Memory in which no object is new: what is there was there before, in the same storage, and was
symmetric or not as it is now. -/
structure Memory.Steady (m m' : Memory) : Prop where
  aside : Aside m m'
  slots : SlotsKept m m'
  object : ∀ x o', m'.object? x = some o' → ∃ o, m.object? x = some o ∧ o'.symmetric = o.symmetric

namespace Memory.Steady

variable {m m' m'' : Memory}

theorem refl (m : Memory) : Steady m m :=
  ⟨.refl m, .refl m, fun _ o ho => ⟨o, ho, rfl⟩⟩

theorem trans (h : Steady m m') (h' : Steady m' m'') : Steady m m'' := by
  refine ⟨h.aside.trans h'.aside, h.slots.trans h'.slots, fun x o'' ho'' => ?_⟩
  obtain ⟨o', ho', hs'⟩ := h'.object x o'' ho''
  obtain ⟨o, ho, hs⟩ := h.object x o' ho'
  exact ⟨o, ho, hs'.trans hs⟩

theorem of_recounted (h : Recounted m m') : Steady m m' := by
  refine ⟨h.aside, .of_pool h.pool, fun x o' ho' => ?_⟩
  obtain ⟨o, count, internal, ho, rfl⟩ := h.back ho'
  exact ⟨o, ho, rfl⟩

theorem of_without {group : List Ref} (h : Without group m m') : Steady m m' := by
  refine ⟨h.aside, h.slots, fun x o' ho' => ?_⟩
  obtain ⟨-, o, ho, halike⟩ := h.back x o' ho'
  exact ⟨o, ho, halike.symmetric_eq⟩

theorem update (m : Memory) (r : Ref) {f : Object → Object}
    (hf : ∀ o, (f o).symmetric = o.symmetric) : Steady m (m.update r f) := by
  refine ⟨.update m r f, .of_pool rfl, fun x o' ho' => ?_⟩
  rw [object?_update] at ho'
  split at ho'
  · next e =>
    subst e
    obtain ⟨o, ho, rfl⟩ := Option.map_eq_some_iff.1 ho'
    exact ⟨o, ho, hf o⟩
  · exact ⟨o', ho', rfl⟩

/-- What counts objects or lists components does not matter. -/
theorem congr_left {components : ComponentRegistry}
    (hcapacity : components.capacity = m.components.capacity)
    (h : Steady { m with components } m') : Steady m m' :=
  ⟨{ h.aside with capacity := h.aside.capacity.trans hcapacity }, h.slots, h.object⟩

theorem congr_right {stats : Statistics} (h : Steady m m') : Steady m { m' with stats } :=
  ⟨{ h.aside with }, h.slots, h.object⟩

end Memory.Steady

namespace Release

open Memory

variable {s t : Release}

theorem steady_discard {group : List Ref} (htidy : s.memory.Tidy) (h : s.discard group = some t) :
    Steady s.memory t.memory := by
  obtain ⟨hnodup, hlive⟩ := nodup_live_of_discard htidy h
  have hremove := Without.removeAll htidy hnodup hlive
  exact (Steady.of_without hremove.1).trans (.of_recounted (recounted_discard h))

theorem Step.steady {outer extra : Multiset Ref} (h : Balanced s outer extra) (hstep : Step s t) :
    Steady s.memory t.memory := by
  obtain ⟨components, work, candidates, u, released, hprepared, hd, rfl⟩ := hstep.discards h
  have htidy := h.tidy.of_components hprepared.sound
  have hsteady := steady_discard htidy hd
  exact (hsteady.congr_left hprepared.capacity).congr_right

theorem Steps.steady {outer extra : Multiset Ref} (h : Balanced s outer extra) (hsteps : Steps s t) :
    Steady s.memory t.memory := by
  induction hsteps with
  | refl => exact .refl _
  | tail hsteps hstep ih => exact ih.trans (hstep.steady (h.steps hsteps))

end Release

end Reclamation
