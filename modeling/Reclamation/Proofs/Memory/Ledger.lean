import Mathlib
import Reclamation.Proofs.Memory.References

/-!
# Counts and references

The references to objects are those from fields and those on two ledgers: `outer` has the references
that the program, the queue of decrements and the scopes hold, and `extra` those that were in a field
of an object taken out and are still to be given up, or that are about to be put into a field.
`Balanced` says that all counts are right: the count of a plain object, the two counts of a symmetric
one and the shared count of a component are the numbers of references of their kind, and what has no
reference left is due.

Giving up or taking a reference moves one entry of a ledger and one count. There are three places where
the count can be: in a plain object (`recount_object`), in a symmetric one (`recount_symmetric`), in a
component (`recount_component`); each operation is one of them.
-/

set_option autoImplicit false

namespace Reclamation

/-- Objects of a group reach each other through the group. -/
def Memory.Knit (m : Memory) (group : List Ref) : Prop :=
  ∀ x ∈ group, ∀ y ∈ group, Relation.ReflTransGen
    (fun a b => a ∈ group ∧ b ∈ group ∧ b ∈ m.strongTargets a) x y

/-- A live component and its members. -/
structure Memory.Frozen (m : Memory) (id : ComponentId) (members : List Ref) : Prop where
  nodup : members.Nodup
  frozen : ∀ r ∈ members, ∃ o, m.object? r = some o ∧ o.symmetric = false ∧
    o.component = some id ∧ o.frozen = true
  knit : m.Knit members

/-- A component does not care for what happens outside it. -/
theorem Memory.Frozen.of_members {m m' : Memory} {id : ComponentId} {members : List Ref}
    (h : m.Frozen id members)
    (hmembers : ∀ r ∈ members, ∀ o, m.object? r = some o → o.component = some id →
      ∃ o', m'.object? r = some o' ∧ o'.symmetric = o.symmetric ∧ o'.component = o.component ∧
        o'.frozen = o.frozen ∧ o'.strongTargets = o.strongTargets) : m'.Frozen id members := by
  have hobject : ∀ r ∈ members, ∃ o o', m.object? r = some o ∧ m'.object? r = some o' ∧
      o'.symmetric = false ∧ o'.component = some id ∧ o'.frozen = true ∧
        o'.strongTargets = o.strongTargets := by
    intro r hr
    obtain ⟨o, ho, hs, hc, hf⟩ := h.frozen r hr
    obtain ⟨o', ho', hs', hc', hf', ht'⟩ := hmembers r hr o ho hc
    exact ⟨o, o', ho, ho', hs'.trans hs, hc'.trans hc, hf'.trans hf, ht'⟩
  refine ⟨h.nodup, fun r hr => ?_, fun x hx y hy => ?_⟩
  · obtain ⟨-, o', -, ho', hs, hc, hf, -⟩ := hobject r hr
    exact ⟨o', ho', hs, hc, hf⟩
  · refine Relation.ReflTransGen.mono (fun a b hab => ?_) x y (h.knit x hx y hy)
    obtain ⟨ha, hb, ht⟩ := hab
    obtain ⟨o, o', ho, ho', -, -, -, he⟩ := hobject a ha
    refine ⟨ha, hb, ?_⟩
    rw [strongTargets_of_object? ho']
    rw [strongTargets_of_object? ho] at ht
    rwa [he]

/-- All counts are right. -/
structure Balanced (s : Release) (outer extra : Multiset Ref) : Prop where
  tidy : s.memory.Tidy
  targets_live : ∀ h, ∀ x ∈ s.memory.strongTargets h, s.memory.isLive x = true
  ledger_live : ∀ x ∈ outer + extra, s.memory.isLive x = true
  /-- A tree that is freed whatever its count is due although its count was not lowered. -/
  plain : ∀ r o, s.memory.object? r = some o → o.symmetric = false → o.component = none →
    .object r ∉ s.work → o.count.toNat = (outer + extra + s.memory.references).count r
  plain_due : ∀ r o, s.memory.object? r = some o → o.symmetric = false → o.component = none →
    (.object r ∈ s.work ↔ (outer + extra + s.memory.references).count r = 0)
  symmetric : ∀ r o, s.memory.object? r = some o → o.symmetric = true → o.component = none ∧
    o.count.toNat = outer.count r ∧ o.internal.toNat = (extra + s.memory.references).count r
  member : ∀ r o id, s.memory.object? r = some o → o.component = some id →
    ∃ e, s.memory.components.entry? id = some e ∧ r ∈ e.members
  component : ∀ id e, s.memory.components.entry? id = some e → s.memory.Frozen id e.members
  external : ∀ id e, s.memory.components.entry? id = some e → e.external =
    (outer + extra + s.memory.referencesOutside e.members).countP (· ∈ e.members)
  external_due : ∀ id e, s.memory.components.entry? id = some e →
    (.component id ∈ s.work ↔ e.external = 0)
  work_nodup : s.work.Nodup
  work_object : ∀ r, .object r ∈ s.work → ∃ o, s.memory.object? r = some o ∧
    o.symmetric = false ∧ o.component = none
  work_component : ∀ id, .component id ∈ s.work → ∃ e, s.memory.components.entry? id = some e
  candidates : ∀ r ∈ s.candidates, ∃ o, s.memory.object? r = some o ∧ o.symmetric = true
  stale : s.stale = []

/-- References to a member are counted at its component as long as that is live. -/
theorem Memory.countingComponent?_eq_component {m : Memory} {o : Object}
    (h : ∀ id, o.component = some id → ∃ e, m.components.entry? id = some e) :
    m.countingComponent? o = o.component := by
  unfold countingComponent?
  cases hc : o.component with
  | none => rfl
  | some id =>
    obtain ⟨e, he⟩ := h id hc
    simp [ComponentRegistry.isLive, he]

theorem countP_mem_congr {l : List Ref} {a b : Multiset Ref} (h : ∀ x ∈ l, a.count x = b.count x) :
    a.countP (· ∈ l) = b.countP (· ∈ l) := by
  rw [Multiset.countP_eq_card_filter, Multiset.countP_eq_card_filter]
  congr 1
  ext x
  rw [Multiset.count_filter, Multiset.count_filter]
  split
  · next hx => exact h x hx
  · rfl

namespace Balanced

open Memory

variable {s t : Release} {outer extra outer' extra' : Multiset Ref} {r : Ref} {o : Object}

theorem countingComponent?_eq (h : Balanced s outer extra) (ho : s.memory.object? r = some o) :
    s.memory.countingComponent? o = o.component := by
  refine countingComponent?_eq_component fun id hc => ?_
  obtain ⟨e, he, -⟩ := h.member r o id ho hc
  exact ⟨e, he⟩

/-- The counts have to do with the objects and the components only. -/
theorem of_objects (h : Balanced s outer extra) {m : Memory} (hobject : ∀ x, m.object? x = s.memory.object? x)
    (hcomponents : m.components = s.memory.components) (htidy : m.Tidy) :
    Balanced { s with memory := m } outer extra := by
  have htargets : ∀ x, m.strongTargets x = s.memory.strongTargets x := fun x => by
    rw [strongTargets, strongTargets, hobject]
  have hlive : ∀ x, m.isLive x = s.memory.isLive x := fun x => by rw [isLive, isLive, hobject]
  have hreferences : m.references = s.memory.references := references_congr htargets
  refine
    { h with
      tidy := htidy
      targets_live := fun y x hx => (hlive x).trans (h.targets_live y x (htargets y ▸ hx))
      ledger_live := fun x hx => (hlive x).trans (h.ledger_live x hx)
      plain := fun r o ho => ?_
      plain_due := fun r o ho => ?_
      symmetric := fun r o ho => ?_
      member := fun r o id ho => ?_
      component := fun id e he => ?_
      external := fun id e he => ?_
      external_due := fun id e he => h.external_due id e (hcomponents ▸ he)
      work_object := fun r hr => ?_
      work_component := fun id hid => hcomponents ▸ h.work_component id hid
      candidates := fun r hr => ?_ }
  · rw [hreferences]
    exact h.plain r o ((hobject r).symm.trans ho)
  · rw [hreferences]
    exact h.plain_due r o ((hobject r).symm.trans ho)
  · rw [hreferences]
    exact h.symmetric r o ((hobject r).symm.trans ho)
  · rw [hcomponents]
    exact h.member r o id ((hobject r).symm.trans ho)
  · exact (h.component id e (hcomponents ▸ he)).of_members fun x _ o ho _ =>
      ⟨o, (hobject x).trans ho, rfl, rfl, rfl, rfl⟩
  · rw [referencesOutside_congr htargets]
    exact h.external id e (hcomponents ▸ he)
  · rw [hobject]
    exact h.work_object r hr
  · rw [hobject]
    exact h.candidates r hr

theorem of_stats (h : Balanced s outer extra) (f : Statistics → Statistics) :
    Balanced { s with memory.stats := f s.memory.stats } outer extra :=
  h.of_objects (fun _ => rfl) rfl (h.tidy.of_objects (fun _ => rfl) (Nat.le_refl _) rfl rfl rfl)

/-- Two live components have no member in common. -/
theorem eq_of_mem_members (h : Balanced s outer extra) {id id' : ComponentId}
    {e e' : ComponentEntry} (he : s.memory.components.entry? id = some e)
    (he' : s.memory.components.entry? id' = some e') (hr : r ∈ e.members) (hr' : r ∈ e'.members) :
    id = id' := by
  obtain ⟨o, ho, -, hc, -⟩ := (h.component id e he).frozen r hr
  obtain ⟨o', ho', -, hc', -⟩ := (h.component id' e' he').frozen r hr'
  obtain rfl := Option.some.inj (ho.symm.trans ho')
  exact Option.some.inj (hc.symm.trans hc')

theorem mem_members_iff (h : Balanced s outer extra) (ho : s.memory.object? r = some o)
    {id : ComponentId} {e : ComponentEntry} (he : s.memory.components.entry? id = some e) :
    r ∈ e.members ↔ o.component = some id := by
  constructor
  · intro hr
    obtain ⟨o', ho', -, hc, -⟩ := (h.component id e he).frozen r hr
    obtain rfl := Option.some.inj (ho.symm.trans ho')
    exact hc
  · intro hc
    obtain ⟨e', he', hr⟩ := h.member r o id ho hc
    obtain rfl := Option.some.inj (he.symm.trans he')
    exact hr

/-- An object that belongs to no component is a member of none. -/
theorem notMem_members (h : Balanced s outer extra) (ho : s.memory.object? r = some o) (hcomp : o.component = none)
    {id : ComponentId} {e : ComponentEntry} (he : s.memory.components.entry? id = some e) : r ∉ e.members := by
  rw [h.mem_members_iff ho he, hcomp]
  simp

/-! ## Moving one count -/

/-- What has to be said about counts when only counts change. -/
theorem recount (h : Balanced s outer extra) {m : Memory} {work : List Doomed}
    {candidates : List Ref} (hm : Recounted s.memory m) (hr : m.components.Sound)
    (hledger : ∀ x ∈ outer' + extra', s.memory.isLive x = true)
    (hplain : ∀ r o, m.object? r = some o → o.symmetric = false → o.component = none →
      .object r ∉ work → o.count.toNat = (outer' + extra' + s.memory.references).count r)
    (hplainDue : ∀ r o, m.object? r = some o → o.symmetric = false → o.component = none →
      (.object r ∈ work ↔ (outer' + extra' + s.memory.references).count r = 0))
    (hsymmetric : ∀ r o, m.object? r = some o → o.symmetric = true →
      o.count.toNat = outer'.count r ∧ o.internal.toNat = (extra' + s.memory.references).count r)
    (hexternal : ∀ id e, m.components.entry? id = some e → e.external =
      (outer' + extra' + s.memory.referencesOutside e.members).countP (· ∈ e.members))
    (hexternalDue : ∀ id e, m.components.entry? id = some e →
      (.component id ∈ work ↔ e.external = 0))
    (hnodup : work.Nodup)
    (hobject : ∀ r, .object r ∈ work → ∃ o, s.memory.object? r = some o ∧
      o.symmetric = false ∧ o.component = none)
    (hcomponent : ∀ id, .component id ∈ work → ∃ e, s.memory.components.entry? id = some e)
    (hcandidates : ∀ r ∈ candidates, ∃ o, s.memory.object? r = some o ∧ o.symmetric = true) :
    Balanced { s with memory := m, work, candidates } outer' extra' where
  tidy := hm.tidy h.tidy hr
  targets_live x y hy := by
    rw [hm.strongTargets] at hy
    rw [hm.isLive]
    exact h.targets_live x y hy
  ledger_live x hx := by
    rw [hm.isLive]
    exact hledger x hx
  plain := by
    rw [references_congr hm.strongTargets]
    exact hplain
  plain_due := by
    rw [references_congr hm.strongTargets]
    exact hplainDue
  symmetric r o' ho' hs := by
    have hcounts := hsymmetric r o' ho' hs
    obtain ⟨o, count, internal, ho, rfl⟩ := hm.back ho'
    rw [references_congr hm.strongTargets]
    exact ⟨(h.symmetric r o ho hs).1, hcounts⟩
  member r o' id ho' hc := by
    obtain ⟨o, count, internal, ho, rfl⟩ := hm.back ho'
    obtain ⟨e, he, hmem⟩ := h.member r o id ho hc
    obtain ⟨e', he', hmem'⟩ := hm.entry_forth he
    exact ⟨e', he', hmem' ▸ hmem⟩
  component id e he := by
    obtain ⟨e₀, he₀, hmem⟩ := hm.entry_back he
    rw [← hmem]
    refine (h.component id e₀ he₀).of_members fun r _ o ho _ => ?_
    obtain ⟨count, internal, ho'⟩ := hm.forth ho
    exact ⟨_, ho', rfl, rfl, rfl, rfl⟩
  external id e he := by
    rw [referencesOutside_congr hm.strongTargets]
    exact hexternal id e he
  external_due := hexternalDue
  work_nodup := hnodup
  work_object r hr := by
    obtain ⟨o, ho, hs, hc⟩ := hobject r hr
    obtain ⟨count, internal, ho'⟩ := hm.forth ho
    exact ⟨_, ho', hs, hc⟩
  work_component id hid := by
    obtain ⟨e, he⟩ := hcomponent id hid
    obtain ⟨e', he', -⟩ := hm.entry_forth he
    exact ⟨e', he'⟩
  candidates r hr := by
    obtain ⟨o, ho, hs⟩ := hcandidates r hr
    obtain ⟨count, internal, ho'⟩ := hm.forth ho
    exact ⟨_, ho', hs⟩
  stale := h.stale

/-- References to one object are given up or taken. -/
structure Moves (r : Ref) (outer extra outer' extra' : Multiset Ref) : Prop where
  outer : ∀ x, x ≠ r → outer'.count x = outer.count x
  extra : ∀ x, x ≠ r → extra'.count x = extra.count x

namespace Moves

theorem count_add (h : Moves r outer extra outer' extra') {x : Ref} (hx : x ≠ r)
    (rest : Multiset Ref) : (outer' + extra' + rest).count x = (outer + extra + rest).count x := by
  simp [h.outer x hx, h.extra x hx]

theorem countP (h : Moves r outer extra outer' extra') {members : List Ref} (hr : r ∉ members)
    (rest : Multiset Ref) : (outer' + extra' + rest).countP (· ∈ members) =
      (outer + extra + rest).countP (· ∈ members) :=
  countP_mem_congr fun _ hx => h.count_add (fun e => hr (e ▸ hx)) rest

theorem isLive (h : Moves r outer extra outer' extra') {m : Memory} (hr : m.isLive r = true)
    (hledger : ∀ x ∈ outer + extra, m.isLive x = true) :
    ∀ x ∈ outer' + extra', m.isLive x = true := by
  intro x hx
  by_cases hx' : x = r
  · exact hx' ▸ hr
  · refine hledger x ?_
    rw [← Multiset.count_pos] at hx ⊢
    have := h.count_add hx' 0
    simp only [add_zero] at this
    omega

theorem cons_outer (r : Ref) (outer extra : Multiset Ref) :
    Moves r outer extra (r ::ₘ outer) extra :=
  ⟨fun _ hx => by simp [hx], fun _ _ => rfl⟩

theorem cons_extra (r : Ref) (outer extra : Multiset Ref) :
    Moves r outer extra outer (r ::ₘ extra) :=
  ⟨fun _ _ => rfl, fun _ hx => by simp [hx]⟩

theorem symm (h : Moves r outer extra outer' extra') : Moves r outer' extra' outer extra :=
  ⟨fun x hx => (h.outer x hx).symm, fun x hx => (h.extra x hx).symm⟩

end Moves

/-- An object that was updated, or another one. -/
theorem object?_update_cases {m : Memory} {f : Object → Object} (ho : m.object? r = some o)
    {x : Ref} {o' : Object} (ho' : (m.update r f).object? x = some o') :
    (x = r ∧ o' = f o) ∨ (x ≠ r ∧ m.object? x = some o') := by
  rw [object?_update] at ho'
  split at ho'
  · next e =>
    rw [ho] at ho'
    exact .inl ⟨e, (Option.some.inj ho').symm⟩
  · next e => exact .inr ⟨e, ho'⟩

/-- A plain object gets another count and other references. -/
theorem recount_object (h : Balanced s outer extra) (ho : s.memory.object? r = some o)
    (hsym : o.symmetric = false) (hcomp : o.component = none)
    (hmoves : Moves r outer extra outer' extra') {count : UInt32} (work : List Doomed)
    (hcount : count.toNat = (outer' + extra' + s.memory.references).count r)
    (hdue : .object r ∈ work ↔ (outer' + extra' + s.memory.references).count r = 0)
    (hwork : ∀ d, d ≠ .object r → (d ∈ work ↔ d ∈ s.work)) (hnodup : work.Nodup) :
    Balanced { s with memory := s.memory.update r fun o => { o with count }, work } outer' extra' := by
  refine h.recount (.update s.memory r fun _ => rfl) h.tidy.registry
    (hmoves.isLive (isLive_of_object? ho) h.ledger_live) ?_ ?_ ?_ ?_ ?_ hnodup ?_ ?_ h.candidates
  · intro x o' ho' hs hc hw
    rcases object?_update_cases ho ho' with ⟨rfl, rfl⟩ | ⟨hx, ho'⟩
    · exact hcount
    · rw [hmoves.count_add hx]
      exact h.plain x o' ho' hs hc fun hd => hw ((hwork _ (by simpa using hx)).2 hd)
  · intro x o' ho' hs hc
    rcases object?_update_cases ho ho' with ⟨rfl, rfl⟩ | ⟨hx, ho'⟩
    · exact hdue
    · rw [hmoves.count_add hx, hwork _ (by simpa using hx)]
      exact h.plain_due x o' ho' hs hc
  · intro x o' ho' hs
    rcases object?_update_cases ho ho' with ⟨rfl, rfl⟩ | ⟨hx, ho'⟩
    · rw [hsym] at hs
      exact absurd hs (by decide)
    · obtain ⟨-, hcount, hinternal⟩ := h.symmetric x o' ho' hs
      rw [hmoves.outer x hx, Multiset.count_add, hmoves.extra x hx, ← Multiset.count_add]
      exact ⟨hcount, hinternal⟩
  · intro id e he
    rw [hmoves.countP (h.notMem_members ho hcomp he)]
    exact h.external id e he
  · intro id e he
    rw [hwork _ (by simp)]
    exact h.external_due id e he
  · intro x hx
    by_cases hx' : x = r
    · exact ⟨o, hx' ▸ ho, hsym, hcomp⟩
    · exact h.work_object x ((hwork _ (by simpa using hx')).1 hx)
  · exact fun id hid => h.work_component id ((hwork _ (by simp)).1 hid)

/-- A symmetric object gets other counts and other references. -/
theorem recount_symmetric (h : Balanced s outer extra) (ho : s.memory.object? r = some o)
    (hsym : o.symmetric = true) (hmoves : Moves r outer extra outer' extra')
    (candidates : List Ref) {f : Object → Object}
    (hf : ∀ o, { f o with count := 0, internal := 0 } = { o with count := 0, internal := 0 })
    (hcount : (f o).count.toNat = outer'.count r)
    (hinternal : (f o).internal.toNat = (extra' + s.memory.references).count r)
    (hcandidates : ∀ x ∈ candidates, x = r ∨ x ∈ s.candidates) :
    Balanced { s with memory := s.memory.update r f, candidates } outer' extra' := by
  have hsym' : (f o).symmetric = true := (congrArg (·.symmetric) (hf o)).trans hsym
  have hcomp : o.component = none := (h.symmetric r o ho hsym).1
  refine h.recount (.update s.memory r hf) h.tidy.registry
    (hmoves.isLive (isLive_of_object? ho) h.ledger_live) ?_ ?_ ?_ ?_ h.external_due h.work_nodup
    h.work_object h.work_component ?_
  · intro x o' ho' hs hc hw
    rcases object?_update_cases ho ho' with ⟨rfl, rfl⟩ | ⟨hx, ho'⟩
    · rw [hsym'] at hs
      exact absurd hs (by decide)
    · rw [hmoves.count_add hx]
      exact h.plain x o' ho' hs hc hw
  · intro x o' ho' hs hc
    rcases object?_update_cases ho ho' with ⟨rfl, rfl⟩ | ⟨hx, ho'⟩
    · rw [hsym'] at hs
      exact absurd hs (by decide)
    · rw [hmoves.count_add hx]
      exact h.plain_due x o' ho' hs hc
  · intro x o' ho' hs
    rcases object?_update_cases ho ho' with ⟨rfl, rfl⟩ | ⟨hx, ho'⟩
    · exact ⟨hcount, hinternal⟩
    · obtain ⟨-, hcount, hinternal⟩ := h.symmetric x o' ho' hs
      rw [hmoves.outer x hx, Multiset.count_add, hmoves.extra x hx, ← Multiset.count_add]
      exact ⟨hcount, hinternal⟩
  · intro id e he
    rw [hmoves.countP (h.notMem_members ho hcomp he)]
    exact h.external id e he
  · intro x hx
    rcases hcandidates x hx with rfl | hx
    · exact ⟨o, ho, hsym⟩
    · exact h.candidates x hx

/-- A component gets another count and other references. -/
theorem recount_component (h : Balanced s outer extra) (ho : s.memory.object? r = some o)
    {id : ComponentId} (hcomp : o.component = some id) {e : ComponentEntry}
    (he : s.memory.components.entry? id = some e) (hmoves : Moves r outer extra outer' extra')
    {components : ComponentRegistry} (hsound : components.Sound)
    (hcapacity : components.capacity = s.memory.components.capacity) {external : Nat}
    (hentry : ∀ id', components.entry? id' =
      if id' = id then some { e with external } else s.memory.components.entry? id')
    (work : List Doomed)
    (hexternal : external =
      (outer' + extra' + s.memory.referencesOutside e.members).countP (· ∈ e.members))
    (hdue : .component id ∈ work ↔ external = 0)
    (hwork : ∀ d, d ≠ .component id → (d ∈ work ↔ d ∈ s.work)) (hnodup : work.Nodup) :
    Balanced { s with memory := { s.memory with components }, work } outer' extra' := by
  have hsym : o.symmetric = false := by
    by_contra hs
    rw [(h.symmetric r o ho (by simpa using hs)).1] at hcomp
    exact absurd hcomp (by simp)
  have hr : r ∈ e.members := (h.mem_members_iff ho he).2 hcomp
  have hne : ∀ x o', s.memory.object? x = some o' → o'.component ≠ some id → x ≠ r := by
    rintro x o' ho' hc rfl
    obtain rfl := Option.some.inj (ho.symm.trans ho')
    exact hc hcomp
  have hcases : ∀ id' e', components.entry? id' = some e' →
      (id' = id ∧ e' = { e with external }) ∨
        (id' ≠ id ∧ s.memory.components.entry? id' = some e') := by
    intro id' e' he'
    rw [hentry] at he'
    split at he'
    · next e => exact .inl ⟨e, (Option.some.inj he').symm⟩
    · next e => exact .inr ⟨e, he'⟩
  have hm : Recounted s.memory { s.memory with components } := by
    refine ⟨fun _ => rfl, fun id' => ?_, rfl, rfl, rfl,
      ⟨rfl, rfl, rfl, rfl, rfl, rfl, rfl, hcapacity, rfl⟩⟩
    rw [hentry]
    split
    · next e' => rw [e', he]; rfl
    · rfl
  refine h.recount hm hsound (hmoves.isLive (isLive_of_object? ho) h.ledger_live) ?_ ?_ ?_ ?_ ?_
    hnodup ?_ ?_ h.candidates
  · intro x o' ho' hs hc hw
    rw [hmoves.count_add (hne x o' ho' (by simp [hc]))]
    exact h.plain x o' ho' hs hc fun hd => hw ((hwork _ (by simp)).2 hd)
  · intro x o' ho' hs hc
    rw [hmoves.count_add (hne x o' ho' (by simp [hc])), hwork _ (by simp)]
    exact h.plain_due x o' ho' hs hc
  · intro x o' ho' hs
    obtain ⟨hc, hcount, hinternal⟩ := h.symmetric x o' ho' hs
    have hx := hne x o' ho' (by simp [hc])
    rw [hmoves.outer x hx, Multiset.count_add, hmoves.extra x hx, ← Multiset.count_add]
    exact ⟨hcount, hinternal⟩
  · intro id' e' he'
    rcases hcases id' e' he' with ⟨rfl, rfl⟩ | ⟨hid, he'⟩
    · exact hexternal
    · have hnot : r ∉ e'.members := fun hr' => hid (h.eq_of_mem_members he' he hr' hr)
      rw [hmoves.countP hnot]
      exact h.external id' e' he'
  · intro id' e' he'
    rcases hcases id' e' he' with ⟨rfl, rfl⟩ | ⟨hid, he'⟩
    · exact hdue
    · rw [hwork _ (by simpa using hid)]
      exact h.external_due id' e' he'
  · exact fun x hx => h.work_object x ((hwork _ (by simp)).1 hx)
  · intro id' hid'
    by_cases hid : id' = id
    · exact ⟨e, hid ▸ he⟩
    · exact h.work_component id' ((hwork _ (by simpa using hid)).1 hid')

end Balanced

end Reclamation
