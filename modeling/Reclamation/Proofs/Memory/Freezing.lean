import Mathlib
import Reclamation.Memory.Freeze
import Reclamation.Proofs.Graph.Components
import Reclamation.Proofs.Memory.Tracing

/-!
# Freezing keeps the counts right

A cycle becomes a component: its members are no longer counted one by one but together, by the
references that come from outside. How many these are is computed and not counted: the sum of the
members' own counts, less the references among them. In balanced memory the members' counts are their
references, so what is left is the number of references from outside (`Balanced.externalCount_eq`).

The cycles are the strongly connected components of the graph of the objects that can be frozen. So
they have no object in common and each can be frozen as if the others had not been (`Freezable.tail`).
-/

set_option autoImplicit false

namespace Reclamation

namespace Memory

variable {m : Memory} {members : List Ref} {r x : Ref} {id : ComponentId}

theorem isEligible_iff : m.isEligible x = true ↔ ∃ o, m.object? x = some o ∧ o.symmetric = false ∧
    o.arena? = none ∧ o.component = none := by
  simp only [isEligible, Option.any_eq_true, Bool.and_eq_true, Bool.not_eq_true',
    Option.isNone_iff_eq_none, and_assoc]

/-! ## The count of a group -/

theorem countP_mem_cons (h : r ∉ members) (refs : Multiset Ref) :
    refs.countP (· ∈ r :: members) = refs.count r + refs.countP (· ∈ members) := by
  induction refs using Multiset.induction_on with
  | empty => simp
  | cons x refs ih =>
    rw [Multiset.countP_cons, Multiset.countP_cons, Multiset.count_cons, ih]
    by_cases hx : x = r
    · subst hx
      simp [h]
      omega
    · simp only [List.mem_cons, hx, false_or, Ne.symm hx, ↓reduceIte]
      omega

/-- The counts of the members of a group together. -/
theorem totalCount_eq_countP {refs : Multiset Ref} (hnodup : members.Nodup)
    (h : ∀ x ∈ members, (m.object? x).elim 0 (·.count.toNat) = refs.count x) :
    m.totalCount members = refs.countP (· ∈ members) := by
  suffices hsum : ∀ n, members.foldl (fun n r => n + (m.object? r).elim 0 (·.count.toNat)) n =
      n + refs.countP (· ∈ members) by
    rw [totalCount, hsum]
    simp
  induction members with
  | nil =>
    intro n
    simp
  | cons r members ih =>
    intro n
    obtain ⟨hr, hnodup⟩ := List.nodup_cons.1 hnodup
    rw [List.foldl_cons, ih hnodup (fun x hx => h x (List.mem_cons_of_mem _ hx)),
      h r List.mem_cons_self, countP_mem_cons hr, Nat.add_assoc]

theorem innerReferences_eq_countP (m : Memory) (members : List Ref) :
    m.innerReferences members =
      (↑(members.flatMap m.strongTargets) : Multiset Ref).countP (· ∈ members) := by
  rw [innerReferences, Multiset.coe_countP]
  refine List.countP_congr fun x _ => ?_
  rw [Std.HashSet.contains_ofList, List.contains_eq_mem]

/-! ## Marking the members -/

/-- A member of a component. -/
def marked (id : ComponentId) (o : Object) : Object :=
  { o with component := some id, frozen := true }

theorem object?_markFrozen (id : ComponentId) (x : Ref) : ∀ (members : List Ref) (m : Memory),
    (m.markFrozen members id).object? x =
      if x ∈ members then (m.object? x).map (marked id) else m.object? x := by
  intro members
  induction members with
  | nil =>
    intro m
    rfl
  | cons r members ih =>
    intro m
    have hcons : m.markFrozen (r :: members) id = (m.update r (marked id)).markFrozen members id := rfl
    rw [hcons, ih, object?_update]
    by_cases hx : x = r
    · subst hx
      have htwice : ∀ o, marked id (marked id o) = marked id o := fun _ => rfl
      simp only [↓reduceIte, List.mem_cons, true_or, Option.map_map]
      split
      · cases m.object? x <;> simp [htwice]
      · rfl
    · simp [hx]

/-- Marking changes cells only. -/
theorem markFrozen_eq (id : ComponentId) : ∀ (members : List Ref) (m : Memory),
    m.markFrozen members id = { m with cells := (m.markFrozen members id).cells } := by
  intro members
  induction members with
  | nil => exact fun m => rfl
  | cons r members ih => exact fun m => ih _

theorem strongTargets_markFrozen (id : ComponentId) (x : Ref) : ∀ (members : List Ref) (m : Memory),
    (m.markFrozen members id).strongTargets x = m.strongTargets x := by
  intro members m
  rw [strongTargets, strongTargets, object?_markFrozen]
  split
  · cases m.object? x <;> rfl
  · rfl

theorem origin_markFrozen (id : ComponentId) (x : Ref) (members : List Ref) (m : Memory) :
    ((m.markFrozen members id).object? x).map (·.origin) = (m.object? x).map (·.origin) := by
  rw [object?_markFrozen]
  split
  · cases m.object? x <;> rfl
  · rfl

theorem Tidy.markFrozen (id : ComponentId) : ∀ {members : List Ref} {m : Memory}, m.Tidy →
    (m.markFrozen members id).Tidy := by
  intro members
  induction members with
  | nil => exact fun h => h
  | cons r members ih => exact fun h => ih (h.update r (fun _ => rfl) fun _ => rfl)

theorem Steady.markFrozen (id : ComponentId) : ∀ (members : List Ref) (m : Memory),
    Steady m (m.markFrozen members id) := by
  intro members
  induction members with
  | nil => exact fun m => .refl m
  | cons r members ih => exact fun m => (Steady.update m r (f := marked id) fun _ => rfl).trans (ih _)

theorem components_markFrozen (id : ComponentId) : ∀ (members : List Ref) (m : Memory),
    (m.markFrozen members id).components = m.components := by
  intro members
  induction members with
  | nil => exact fun m => rfl
  | cons r members ih => exact fun m => ih _

theorem isUnowned_markFrozen (m : Memory) (members : List Ref) (id : ComponentId) (x : Ref) :
    (m.markFrozen members id).isUnowned x = m.isUnowned x := by
  rw [isUnowned, isUnowned, object?_markFrozen]
  split
  · cases m.object? x <;> rfl
  · rfl

theorem totalCount_markFrozen {group : List Ref} :
    (m.markFrozen members id).totalCount group = m.totalCount group := by
  have hcount : ∀ x, ((m.markFrozen members id).object? x).elim 0 (·.count.toNat) =
      (m.object? x).elim 0 (·.count.toNat) := fun x => by
    rw [object?_markFrozen]
    split
    · cases m.object? x <;> rfl
    · rfl
  simp only [totalCount, hcount]

theorem innerReferences_markFrozen {group : List Ref} :
    (m.markFrozen members id).innerReferences group = m.innerReferences group := by
  have hfields : (m.markFrozen members id).strongTargets = m.strongTargets :=
    funext fun x => strongTargets_markFrozen id x members m
  simp only [innerReferences, hfields]

/-! ## Groups that can be frozen -/

/-- Groups that can be made components one after the other. -/
structure Freezable (m : Memory) (groups : List (List Ref)) : Prop where
  nodup : ∀ g ∈ groups, g.Nodup
  eligible : ∀ g ∈ groups, ∀ x ∈ g, m.isEligible x = true
  knit : ∀ g ∈ groups, m.Knit g
  disjoint : groups.Pairwise List.Disjoint
  /-- The counts of the components are words. -/
  fits : ∀ g ∈ groups, m.totalCount g - m.innerReferences g < UInt32.size
  /-- So is the number of an entry of the registry. -/
  room : min m.components.capacity (m.components.entries.size + groups.length) < UInt32.size

/-- The groups that are left when one has been frozen. -/
theorem Freezable.tail {groups : List (List Ref)} (h : m.Freezable (members :: groups))
    {components : ComponentRegistry} (hcapacity : components.capacity = m.components.capacity)
    (hsize : components.entries.size ≤ m.components.entries.size + 1) (id : ComponentId) :
    (({ m with components } : Memory).markFrozen members id).Freezable groups := by
  have hdisj := List.pairwise_cons.1 h.disjoint
  refine
    { nodup := fun g hg => h.nodup g (List.mem_cons_of_mem _ hg)
      eligible := fun g hg x hx => ?_
      knit := fun g hg x hx y hy => ?_
      disjoint := hdisj.2
      fits := fun g hg => ?_
      room := ?_ }
  · have hout : x ∉ members := fun hm => hdisj.1 g hg hm hx
    have hobject := object?_markFrozen id x members { m with components }
    rw [if_neg hout] at hobject
    rw [isEligible, hobject]
    exact h.eligible g (List.mem_cons_of_mem _ hg) x hx
  · refine Relation.ReflTransGen.mono (fun a b hab => ?_) x y
      (h.knit g (List.mem_cons_of_mem _ hg) x hx y hy)
    rw [strongTargets_markFrozen]
    exact hab
  · rw [totalCount_markFrozen, innerReferences_markFrozen]
    exact h.fits g (List.mem_cons_of_mem _ hg)
  · have hroom := h.room
    rw [components_markFrozen]
    dsimp only
    rw [List.length_cons] at hroom
    rw [hcapacity]
    omega

end Memory

namespace Balanced

open Memory

variable {s : Release} {outer extra : Multiset Ref} {members : List Ref}

/-- What remains of the members' counts without the references among them comes from outside. -/
theorem totalCount_sub_innerReferences (h : Balanced s outer extra) (hwork : ∀ x, .object x ∉ s.work)
    (hnodup : members.Nodup) (heligible : ∀ x ∈ members, s.memory.isEligible x = true) :
    s.memory.totalCount members - s.memory.innerReferences members =
      (outer + extra + s.memory.referencesOutside members).countP (· ∈ members) := by
  have hcount : ∀ x ∈ members, (s.memory.object? x).elim 0 (·.count.toNat) =
      (outer + extra + s.memory.references).count x := fun x hx => by
    obtain ⟨o, ho, hsym, -, hcomp⟩ := isEligible_iff.1 (heligible x hx)
    rw [ho]
    exact h.plain x o ho hsym hcomp (hwork x)
  have hlive : ∀ x ∈ members, s.memory.isLive x = true := fun x hx => by
    obtain ⟨o, ho, -⟩ := isEligible_iff.1 (heligible x hx)
    exact isLive_of_object? ho
  have htotal := totalCount_eq_countP hnodup hcount
  have hinner := s.memory.innerReferences_eq_countP members
  rw [s.memory.references_eq_add hnodup hlive, ← add_assoc, Multiset.countP_add] at htotal
  rw [htotal, hinner, Nat.add_sub_cancel]

/-- If a word can count it, that is the count of the group. -/
theorem externalCount_eq (h : Balanced s outer extra) (hwork : ∀ x, .object x ∉ s.work)
    (hnodup : members.Nodup) (heligible : ∀ x ∈ members, s.memory.isEligible x = true)
    (hfits : s.memory.totalCount members - s.memory.innerReferences members < UInt32.size) :
    s.memory.externalCount members =
      (outer + extra + s.memory.referencesOutside members).countP (· ∈ members) := by
  have hcount := h.totalCount_sub_innerReferences hwork hnodup heligible
  rw [hcount] at hfits
  rw [externalCount, hcount]
  refine Nat.min_eq_left ?_
  unfold UInt32.size at hfits
  omega

end Balanced

/-! ## A group becomes a component -/

/-- A group of objects that can be frozen has become the component of an id. -/
structure Release.Joins (s t : Release) (members : List Ref) (id : ComponentId) : Prop where
  eligible : ∀ x ∈ members, s.memory.isEligible x = true
  tidy : t.memory.Tidy
  object : ∀ x, t.memory.object? x =
    if x ∈ members then (s.memory.object? x).map (Memory.marked id) else s.memory.object? x
  fresh : s.memory.components.entry? id = none
  entry : ∃ e, t.memory.components.entry? id = some e ∧ e.members = members ∧
    e.external = s.memory.externalCount members
  others : ∀ id', id' ≠ id → t.memory.components.entry? id' = s.memory.components.entry? id'
  work : t.work = if s.memory.externalCount members = 0 then .component id :: s.work else s.work
  candidates : t.candidates = s.candidates
  stale : t.stale = s.stale

namespace Release.Joins

open Memory

variable {s t : Release} {outer extra : Multiset Ref} {members : List Ref} {id id' : ComponentId}
  {e : ComponentEntry} {x : Ref} {o : Object}

theorem strongTargets (h : s.Joins t members id) (x : Ref) :
    t.memory.strongTargets x = s.memory.strongTargets x := by
  rw [Memory.strongTargets, Memory.strongTargets, h.object]
  split
  · cases s.memory.object? x <;> rfl
  · rfl

theorem isLive (h : s.Joins t members id) (x : Ref) : t.memory.isLive x = s.memory.isLive x := by
  rw [Memory.isLive, Memory.isLive, h.object]
  split
  · cases s.memory.object? x <;> rfl
  · rfl

/-- An object is a member, and was eligible, or the same as before. -/
theorem object_cases (h : s.Joins t members id) (ho : t.memory.object? x = some o) :
    (x ∈ members ∧ o.symmetric = false ∧ o.component = some id) ∨ (x ∉ members ∧ s.memory.object? x = some o) := by
  rw [h.object] at ho
  split at ho
  · next hx =>
    obtain ⟨o', ho', hsym, -⟩ := isEligible_iff.1 (h.eligible x hx)
    rw [ho'] at ho
    obtain rfl := Option.some.inj ho
    exact .inl ⟨hx, hsym, rfl⟩
  · next hx => exact .inr ⟨hx, ho⟩

theorem entry_cases (h : s.Joins t members id) (he : t.memory.components.entry? id' = some e) :
    (id' = id ∧ e.members = members ∧ e.external = s.memory.externalCount members) ∨
      (id' ≠ id ∧ s.memory.components.entry? id' = some e) := by
  by_cases hid : id' = id
  · obtain ⟨new, hnew, hmembers, hexternal⟩ := h.entry
    rw [hid, hnew] at he
    obtain rfl := Option.some.inj he
    exact .inl ⟨hid, hmembers, hexternal⟩
  · rw [h.others id' hid] at he
    exact .inr ⟨hid, he⟩

theorem entry_of_old (h : s.Joins t members id) (he : s.memory.components.entry? id' = some e) :
    t.memory.components.entry? id' = some e := by
  rw [h.others id' fun hid => ?_, he]
  rw [hid, h.fresh] at he
  exact absurd he (by simp)

theorem mem_work (h : s.Joins t members id) {d : Doomed} (hd : d ≠ .component id) : d ∈ t.work ↔ d ∈ s.work := by
  rw [h.work]
  split
  · rw [List.mem_cons, or_iff_right hd]
  · exact Iff.rfl

theorem not_due (h : s.Joins t members id) (hb : Balanced s outer extra) : .component id ∉ s.work := fun hid => by
  obtain ⟨e, he⟩ := hb.work_component id hid
  rw [h.fresh] at he
  exact absurd he (by simp)

/-- No member was one before. -/
theorem notMem_of_old (h : s.Joins t members id) (hb : Balanced s outer extra)
    (he : s.memory.components.entry? id' = some e) (hx : x ∈ e.members) : x ∉ members := by
  intro hxm
  obtain ⟨o, ho, -, -, hc⟩ := isEligible_iff.1 (h.eligible x hxm)
  exact hb.notMem_members ho hc he hx

theorem member (h : s.Joins t members id) (hb : Balanced s outer extra) (ho : t.memory.object? x = some o)
    (hc : o.component = some id') : ∃ e, t.memory.components.entry? id' = some e ∧ x ∈ e.members := by
  rcases h.object_cases ho with ⟨hx, -, hcomp⟩ | ⟨-, ho⟩
  · obtain rfl := Option.some.inj (hcomp.symm.trans hc)
    obtain ⟨new, hnew, hmembers, -⟩ := h.entry
    exact ⟨new, hnew, hmembers ▸ hx⟩
  · obtain ⟨e, he, hx⟩ := hb.member x o id' ho hc
    exact ⟨e, h.entry_of_old he, hx⟩

theorem component (h : s.Joins t members id) (hb : Balanced s outer extra) (hnodup : members.Nodup)
    (hknit : s.memory.Knit members) (he : t.memory.components.entry? id' = some e) :
    t.memory.Frozen id' e.members := by
  rcases h.entry_cases he with ⟨rfl, hmembers, -⟩ | ⟨-, he⟩
  · rw [hmembers]
    refine ⟨hnodup, fun x hx => ?_, fun x hx y hy => ?_⟩
    · obtain ⟨o, ho, hs, -⟩ := isEligible_iff.1 (h.eligible x hx)
      exact ⟨marked id' o, by rw [h.object, if_pos hx, ho]; rfl, hs, rfl, rfl⟩
    · refine Relation.ReflTransGen.mono (fun a b hab => ?_) x y (hknit x hx y hy)
      rw [h.strongTargets]
      exact hab
  · refine (hb.component id' e he).of_members fun x hx o ho _ => ⟨o, ?_, rfl, rfl, rfl, rfl⟩
    rw [h.object, if_neg (h.notMem_of_old hb he hx), ho]

theorem external_due (h : s.Joins t members id) (hb : Balanced s outer extra)
    (he : t.memory.components.entry? id' = some e) : .component id' ∈ t.work ↔ e.external = 0 := by
  rcases h.entry_cases he with ⟨rfl, -, hexternal⟩ | ⟨hid, he⟩
  · rw [hexternal, h.work]
    split
    · next hz => simp [hz]
    · next hz => simp [hz, h.not_due hb]
  · rw [h.mem_work (by simpa using hid)]
    exact hb.external_due id' e he

theorem work_nodup (h : s.Joins t members id) (hb : Balanced s outer extra) : t.work.Nodup := by
  rw [h.work]
  split
  · exact List.nodup_cons.2 ⟨h.not_due hb, hb.work_nodup⟩
  · exact hb.work_nodup

theorem work_component (h : s.Joins t members id) (hb : Balanced s outer extra) (hdue : .component id' ∈ t.work) :
    ∃ e, t.memory.components.entry? id' = some e := by
  by_cases hid : id' = id
  · obtain ⟨new, hnew, -⟩ := h.entry
    exact ⟨new, hid ▸ hnew⟩
  · obtain ⟨e, he⟩ := hb.work_component id' ((h.mem_work (by simpa using hid)).1 hdue)
    exact ⟨e, h.entry_of_old he⟩

/-- A group whose count was right becomes a component whose count is right. -/
theorem balanced (h : s.Joins t members id) (hb : Balanced s outer extra) (hwork : ∀ x, .object x ∉ s.work)
    (hnodup : members.Nodup) (hknit : s.memory.Knit members)
    (hexternal : s.memory.externalCount members =
      (outer + extra + s.memory.referencesOutside members).countP (· ∈ members)) : Balanced t outer extra where
  tidy := h.tidy
  targets_live y x hx := by
    rw [h.strongTargets] at hx
    rw [h.isLive]
    exact hb.targets_live y x hx
  ledger_live x hx := by
    rw [h.isLive]
    exact hb.ledger_live x hx
  plain x o ho hs hc hw := by
    rcases h.object_cases ho with ⟨-, -, hcomp⟩ | ⟨-, ho⟩
    · exact absurd (hc.symm.trans hcomp) (by simp)
    · rw [references_congr h.strongTargets]
      exact hb.plain x o ho hs hc (hwork x)
  plain_due x o ho hs hc := by
    rcases h.object_cases ho with ⟨-, -, hcomp⟩ | ⟨-, ho⟩
    · exact absurd (hc.symm.trans hcomp) (by simp)
    · rw [references_congr h.strongTargets, h.mem_work (by simp)]
      exact hb.plain_due x o ho hs hc
  symmetric x o ho hs := by
    rcases h.object_cases ho with ⟨-, hs', -⟩ | ⟨-, ho⟩
    · exact absurd (hs.symm.trans hs') (by decide)
    · rw [references_congr h.strongTargets]
      exact hb.symmetric x o ho hs
  member x o id' ho hc := h.member hb ho hc
  component id' e he := h.component hb hnodup hknit he
  external id' e he := by
    rw [referencesOutside_congr h.strongTargets]
    rcases h.entry_cases he with ⟨-, hmembers, hcount⟩ | ⟨-, he⟩
    · rw [hcount, hmembers]
      exact hexternal
    · exact hb.external id' e he
  external_due id' e he := h.external_due hb he
  work_nodup := h.work_nodup hb
  work_object x hx := absurd ((h.mem_work (by simp)).1 hx) (hwork x)
  work_component id' hdue := h.work_component hb hdue
  candidates x hx := by
    rw [h.candidates] at hx
    obtain ⟨o, ho, hs⟩ := hb.candidates x hx
    refine ⟨o, ?_, hs⟩
    rw [h.object, if_neg, ho]
    intro hxm
    obtain ⟨o', ho', hs', -⟩ := isEligible_iff.1 (h.eligible x hxm)
    obtain rfl := Option.some.inj (ho.symm.trans ho')
    exact absurd (hs.symm.trans hs') (by decide)
  stale := h.stale.trans hb.stale

end Release.Joins

namespace Balanced

open Memory

variable {s : Release} {outer extra : Multiset Ref} {members : List Ref}

/-- A group becomes a component. -/
theorem markFrozen (h : Balanced s outer extra) (hwork : ∀ x, .object x ∉ s.work)
    (hnodup : members.Nodup) (heligible : ∀ x ∈ members, s.memory.isEligible x = true)
    (hknit : s.memory.Knit members)
    (hfits : s.memory.totalCount members - s.memory.innerReferences members < UInt32.size)
    (hsize : s.memory.components.entries.size < s.memory.components.capacity →
      s.memory.components.entries.size + 1 < UInt32.size)
    {components : ComponentRegistry} {id : ComponentId}
    (hreg : s.memory.components.register? members (s.memory.externalCount members) =
      some (components, id)) :
    Balanced { s with
      memory := ({ s.memory with components } : Memory).markFrozen members id
      work := if s.memory.externalCount members = 0 then .component id :: s.work else s.work }
      outer extra := by
  obtain ⟨hfresh, hentry, hothers⟩ := ComponentRegistry.entry?_register h.tidy.registry hsize hreg
  have hsound := (h.tidy.registry.register hsize hreg).1
  have hcomponents : (({ s.memory with components } : Memory).markFrozen members id).components =
      components := components_markFrozen id members _
  rw [← hcomponents] at hentry hothers
  have hjoins : s.Joins { s with
      memory := ({ s.memory with components } : Memory).markFrozen members id
      work := if s.memory.externalCount members = 0 then .component id :: s.work else s.work } members id :=
    { eligible := heligible
      tidy := (h.tidy.of_components hsound).markFrozen id
      object := fun x => object?_markFrozen id x members _
      fresh := hfresh
      entry := hentry
      others := hothers
      work := rfl
      candidates := rfl
      stale := rfl }
  exact hjoins.balanced h hwork hnodup hknit (h.externalCount_eq hwork hnodup heligible hfits)

end Balanced

/-! ## Freezing one group after the other -/

namespace Release

open Memory

variable {s : Release} {outer extra : Multiset Ref}

/-- The release once a group is the component of an id. -/
def frozen (s : Release) (members : List Ref) (components : ComponentRegistry) (id : ComponentId) :
    Release :=
  let m := ({ s.memory with components } : Memory).markFrozen members id
  { s with
    memory := { m with stats.componentsFrozen := m.stats.componentsFrozen + 1 }
    work := if s.memory.externalCount members = 0 then .component id :: s.work else s.work }

theorem freezeAll_cons (members : List Ref) (rest : List (List Ref)) (s : Release) :
    (∃ fault, freezeAll (members :: rest) s = (s, [], some fault)) ∨
      ∃ components id, s.memory.components.register? members
        (s.memory.externalCount members) = some (components, id) ∧
          (freezeAll (members :: rest) s).1 = (freezeAll rest (s.frozen members components id)).1 := by
  rw [freezeAll]
  dsimp only
  split
  · exact .inl ⟨_, rfl⟩
  · next components id hreg =>
    refine .inr ⟨components, id, hreg, ?_⟩
    unfold frozen
    dsimp only
    split <;> rfl

/-- Freezing groups keeps all counts right and overlooks no orphan. -/
theorem balanced_freezeAll : ∀ {groups : List (List Ref)} {s : Release}, Balanced s outer extra →
    Traced s extra → (∀ x, .object x ∉ s.work) → s.memory.Freezable groups →
      Balanced (freezeAll groups s).1 outer extra ∧ Traced (freezeAll groups s).1 extra ∧
        Steady s.memory (freezeAll groups s).1.memory := by
  intro groups
  induction groups with
  | nil =>
    intro s h htraced _ _
    exact ⟨h, htraced, .refl _⟩
  | cons members rest ih =>
    intro s h htraced hwork hgroups
    rcases freezeAll_cons members rest s with ⟨fault, he⟩ | ⟨components, id, hreg, he⟩
    · rw [he]
      exact ⟨h, htraced, .refl _⟩
    · have hsize : s.memory.components.entries.size < s.memory.components.capacity →
          s.memory.components.entries.size + 1 < UInt32.size := fun hlt => by
        have hroom := hgroups.room
        rw [List.length_cons] at hroom
        omega
      obtain ⟨-, hsizes, hcapacity⟩ := h.tidy.registry.register hsize hreg
      have hbal := h.markFrozen hwork (hgroups.nodup _ List.mem_cons_self)
        (hgroups.eligible _ List.mem_cons_self) (hgroups.knit _ List.mem_cons_self)
        (hgroups.fits _ List.mem_cons_self) hsize hreg
      have hbal' : Balanced (s.frozen members components id) outer extra := hbal.of_stats fun stats =>
        { stats with componentsFrozen := stats.componentsFrozen + 1 }
      have htraced' : Traced (s.frozen members components id) extra := by
        refine htraced.mono (fun a ha _ => ha) (fun y a ha => .inl ?_) fun a ha => .inl ?_
        · have := strongTargets_markFrozen id y members { s.memory with components }
          exact this ▸ ha
        · have := isUnowned_markFrozen { s.memory with components } members id a
          exact this ▸ ha
      have hwork' : ∀ x, .object x ∉ (if s.memory.externalCount members = 0 then
          .component id :: s.work else s.work) := fun x hx => by
        split at hx
        · rcases List.mem_cons.1 hx with hx | hx
          · exact absurd hx (by simp)
          · exact hwork x hx
        · exact hwork x hx
      have hrest : (s.frozen members components id).memory.Freezable rest :=
        { hgroups.tail hcapacity hsizes id with }
      have hfirst : Steady s.memory (s.frozen members components id).memory :=
        ((Steady.markFrozen id members { s.memory with components }).congr_left hcapacity).congr_right
      obtain ⟨hend, htracedEnd, hsteady⟩ := ih hbal' htraced' hwork' hrest
      rw [he]
      exact ⟨hend, htracedEnd, hfirst.trans hsteady⟩

end Release

/-! ## The cycles behind an object -/

namespace Memory

variable {m : Memory} {outer : Multiset Ref} {root x y : Ref}

theorem eligibleLinks_edge_iff : m.eligibleLinks.graph.Edge x y ↔
    y ∈ m.strongTargets x ∧ m.isEligible y = true := by
  have htargets : m.strongTargets x =
      (m.eligibleLinks.fields x).filterMap fun f => if f.weak then none else f.target := by
    unfold strongTargets eligibleLinks
    dsimp only
    cases m.object? x <;> rfl
  rw [Links.edge_iff, htargets, List.mem_filterMap]
  constructor
  · rintro ⟨-, f, hf, htarget⟩
    simp only [eligibleLinks, Option.ite_none_left_eq_some, Option.filter_eq_some_iff] at htarget
    obtain ⟨hstrong, hy, he⟩ := htarget
    exact ⟨⟨f, hf, by rw [if_neg hstrong, hy]⟩, he⟩
  · rintro ⟨⟨f, hf, hy⟩, he⟩
    rw [Option.ite_none_left_eq_some] at hy
    obtain ⟨o, ho, -⟩ := isEligible_iff.1 he
    refine ⟨lt_size_of_isLive (isLive_of_object? ho), f, hf, ?_⟩
    simp only [eligibleLinks, Option.ite_none_left_eq_some, Option.filter_eq_some_iff]
    exact ⟨hy.1, hy.2, he⟩

theorem isEligible_of_reaches (h : m.eligibleLinks.graph.Reaches x y) (hx : m.isEligible x = true) :
    m.isEligible y = true := by
  induction h with
  | refl => exact hx
  | step hedge _ ih => exact ih (eligibleLinks_edge_iff.1 hedge).2

/-- Inside a component of the graph objects reach each other. -/
theorem knit_of_mem_components {g : List Ref} (hg : g ∈ m.eligibleLinks.components [root]) :
    m.Knit g := by
  intro x hx y hy
  have hxy := ((Links.mem_component_iff hg hx).1 hy).1
  induction hxy with
  | refl => exact .refl
  | @step x z y hedge hzy ih =>
    -- the objects on the way are in the component as well
    have hyx := ((Links.mem_component_iff hg hx).1 hy).2
    have hz : z ∈ g := (Links.mem_component_iff hg hx).2 ⟨hedge.reaches, hzy.trans hyx⟩
    exact .head ⟨hx, hz, (eligibleLinks_edge_iff.1 hedge).1⟩ (ih hz hy)

theorem mem_components_of_mem_cyclesFrom {g : List Ref} (hg : g ∈ m.cyclesFrom root) :
    m.isEligible root = true ∧ g ∈ m.eligibleLinks.components [root] := by
  by_cases hroot : m.isEligible root = true
  · rw [cyclesFrom, if_pos hroot] at hg
    exact ⟨hroot, (List.mem_filter.1 hg).1⟩
  · rw [cyclesFrom, if_neg hroot] at hg
    exact absurd hg (by simp)

theorem nodup_of_mem_cyclesFrom {g : List Ref} (hg : g ∈ m.cyclesFrom root) : g.Nodup :=
  Links.component_nodup (mem_components_of_mem_cyclesFrom hg).2

theorem isEligible_of_mem_cyclesFrom {g : List Ref} (hg : g ∈ m.cyclesFrom root) (hx : x ∈ g) :
    m.isEligible x = true := by
  obtain ⟨hroot, hmem⟩ := mem_components_of_mem_cyclesFrom hg
  obtain ⟨r, hr, -, hreach⟩ := Links.exists_component_iff.1 ⟨g, hmem, hx⟩
  rw [List.mem_singleton.1 hr] at hreach
  exact isEligible_of_reaches hreach hroot

theorem disjoint_cyclesFrom (m : Memory) (root : Ref) : (m.cyclesFrom root).Pairwise List.Disjoint := by
  unfold cyclesFrom
  split
  · exact Links.components_disjoint.filter _
  · exact .nil

/-- The cycles behind an object can be frozen. -/
theorem freezable_cyclesFrom
    (hfits : ∀ g ∈ m.cyclesFrom root, m.totalCount g - m.innerReferences g < UInt32.size)
    (hroom : min m.components.capacity
      (m.components.entries.size + (m.cyclesFrom root).length) < UInt32.size) :
    m.Freezable (m.cyclesFrom root) where
  nodup _ hg := nodup_of_mem_cyclesFrom hg
  eligible _ hg _ hx := isEligible_of_mem_cyclesFrom hg hx
  knit _ hg := knit_of_mem_components (mem_components_of_mem_cyclesFrom hg).2
  disjoint := disjoint_cyclesFrom m root
  fits := hfits
  room := hroom

/-- Freezing settled memory starts a release that leaves settled memory. -/
theorem Settled.freeze (h : m.Settled outer)
    (hfits : ∀ g ∈ m.cyclesFrom root, m.totalCount g - m.innerReferences g < UInt32.size)
    (hroom : min m.components.capacity
      (m.components.entries.size + (m.cyclesFrom root).length) < UInt32.size) :
    (Release.freezeAll (m.cyclesFrom root) { memory := m }).1.Settles outer ∧
      Steady m (Release.freezeAll (m.cyclesFrom root) { memory := m }).1.memory := by
  obtain ⟨hbal, htraced, hsteady⟩ := Release.balanced_freezeAll h.balanced h.traced (by simp)
    (freezable_cyclesFrom hfits hroom)
  exact ⟨hbal.settles htraced, hsteady⟩

end Memory

end Reclamation
