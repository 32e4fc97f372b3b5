import Mathlib
import Reclamation.Proofs.Memory.Confluence
import Reclamation.Proofs.Memory.Programs

/-!
# The order within a batch does not matter

The references that a scope owns come in any order, and the queue of decrements is given up in batches. All references
of a batch are given up first and what is due is taken out after that. As the ledger with which the release ends does
not depend on their order, the objects that are left do not (`Memory.SameHeap`): they are the same objects with the
same fields and counts, the same weak fields are listed and the components are the same, and as many objects were freed
(`batches_confluent`). What does depend on the order is which free slot or entry of the registry is used next, and how
many weak fields are counted as emptied: that of an object which goes itself is one of them only if its target goes
first.

What is asked of memory is that counts are right for the references that are owned (`Memory.Accounts`). They are
wherever a program gets (`Attained.accounts`).
-/

set_option autoImplicit false

namespace Reclamation

open Memory

/-! ## Releases -/

namespace Memory

variable {m m' : Memory}

/-- Two memories have the same objects with the same fields and counts, list the same weak fields for each object, in
any order, and have the same components, and as many objects were freed. The order of what is free to be used again is
left open. -/
structure SameHeap (m m' : Memory) : Prop where
  object : ∀ x, m'.object? x = m.object? x
  watched : ∀ x, x ∈ m'.referrers ↔ x ∈ m.referrers
  referrers : ∀ x, (m'.referrers.getD x []).Perm (m.referrers.getD x [])
  component : ∀ id, m'.components.entry? id = m.components.entry? id
  freed : m'.stats.freed = m.stats.freed

/-- Give up references of the program, all of them before anything is taken out; the value is how many objects this
freed. -/
def giveUp (m : Memory) (drops : List Ref) : Outcome Nat :=
  .ofRelease (·.freed) ((drops.foldlM Release.dropRef { memory := m }).bind Release.run)

/-- All counts are right, and these are the references that are owned from outside. Objects of arenas are beside the
memory that is counted; references to them may be owned as well. -/
def Accounts (m : Memory) (owned : Multiset Ref) : Prop :=
  ∃ n regions, m = n.joined regions ∧ regions.Apart n ∧
    Balanced { memory := n } (owned.filter fun r => (regions.objects r).isNone) 0

end Memory

namespace Balanced

open Release

variable {n : Memory} {regions : Regions} {drops : List Ref} {rest hidden : Multiset Ref}

/-- Giving up the references of a batch begins a release. What the program gives up is not hidden, since it has
references to it. -/
theorem going_dropRefs (h : Balanced { memory := n } (↑drops + rest) 0) (hhides : n.Hides hidden)
    (htraced : Traced { memory := n } hidden) {u : Release} (hu : drops.foldlM Release.dropRef { memory := n } = some u)
    (hbal : Balanced u rest 0) : Going n rest hidden u := by
  have hobject : ∀ x ∈ hidden, ∃ o, n.object? x = some o ∧ o.symmetric = true ∧ o.count = 0 :=
    fun x hx => isUnowned_iff.1 (hhides.unowned x hx)
  have hgiven : ∀ r ∈ drops, r ∉ hidden := by
    intro r hr hhidden
    obtain ⟨o, ho, hsym, hzero⟩ := hobject r hhidden
    have hcount := (h.symmetric r o ho hsym).2.1
    rw [eq_zero_iff_toNat.1 hzero, eq_comm, Multiset.count_eq_zero] at hcount
    exact hcount (Multiset.mem_add.2 (.inl (Multiset.mem_coe.2 hr)))
  have hmisses : ({ memory := n } : Release).Misses hidden :=
    { symmetric := fun x hx o ho => by
        obtain ⟨o', ho', hsym, -⟩ := hobject x hx
        obtain rfl := Option.some.inj (ho.symm.trans ho')
        exact hsym
      holder := hhides.holder
      candidates := by simp }
  have htakes := takes_dropRefs h hu
  exact
    { balanced := hbal
      taken := ⟨[], htakes⟩
      counts := counts_foldlM counts_dropRef hu
      misses := hmisses.of_remnant htakes.remnant fun x hx => by
        rcases candidates_foldlM lowers_dropRef hu x hx with hx | hx
        · exact absurd hx List.not_mem_nil
        · exact hgiven x hx
      traced := htraced.dropRefs hu }

/-- It goes on to its end, and what is there at the end of any other is there at the end of this one. -/
theorem exists_ended (h : Balanced { memory := n } (↑drops + rest) 0) (hhides : n.Hides hidden)
    (htraced : Traced { memory := n } hidden) :
    ∃ t, (drops.foldlM Release.dropRef { memory := n }).bind Release.run = some t ∧ Steady n t.memory ∧ Ended n rest hidden t ∧
      ∀ t', Ended n rest hidden t' → ∀ x, t'.memory.isLive x = true → t.memory.isLive x = true := by
  obtain ⟨u, hu, hbal⟩ := h.dropRefs
  obtain ⟨t, hsteps, hfinished, hrun, -⟩ := hbal.run
  have hrecounted := recounted_foldlM recounted_dropRef hu
  have hgoing := h.going_dropRefs hhides htraced hu hbal
  refine ⟨t, by rw [hu]; exact hrun, (Steady.of_recounted hrecounted).trans (hsteps.steady hbal),
    ⟨hgoing.steps hsteps, hfinished⟩, fun t' ht' x hx => ?_⟩
  refine hgoing.isLive_of_ended ht' (fun y hy => ?_) hsteps hx
  rw [hrecounted.isLive]
  exact ht'.remnant.isLive hy

/-- With arenas beside memory a batch comes to what it comes to without them. References to objects of arenas are
given up without effect. -/
theorem batch_joined (h : Balanced { memory := n } (↑(regions.outside drops) + rest) 0) (hapart : regions.Apart n) :
    (drops.foldlM Release.dropRef { memory := n.joined regions }).bind Release.run =
      (((regions.outside drops).foldlM Release.dropRef { memory := n }).bind Release.run).map (·.joined regions) := by
  obtain ⟨u, hu, hbal⟩ := h.dropRefs
  have hdrops := dropRefs_joined drops (s := { memory := n }) hapart
  have hrun := run_joined hbal (hapart.of_recounted (recounted_foldlM recounted_dropRef hu))
  rw [hu, Option.bind_some, ← hrun]
  rw [hu] at hdrops
  exact congrArg (Option.bind · Release.run) hdrops

end Balanced

namespace Memory

variable {m m' n n' : Memory} {regions : Regions} {drops drops' : List Ref} {owned rest : Multiset Ref}

theorem SameHeap.joined (h : n.SameHeap n') (hapart : regions.Apart n) (hapart' : regions.Apart n') :
    (n.joined regions).SameHeap (n'.joined regions) where
  object x := by
    cases hx : regions.objects x with
    | none => rw [object?_joined_of_none hx, object?_joined_of_none hx, h.object]
    | some o => rw [object?_joined_of_some hapart hx, object?_joined_of_some hapart' hx]
  watched := h.watched
  referrers := h.referrers
  component := h.component
  freed := h.freed

namespace Accounts

/-- Neither the scopes nor the queue of decrements matter to counts. -/
theorem of_same (h : m.Accounts owned) (scopes : List Scope) (deferred : List Ref) :
    ({ m with scopes, deferred } : Memory).Accounts owned := by
  obtain ⟨n, regions, rfl, hapart, hbal⟩ := h
  refine ⟨{ n with scopes }, { regions with deferred }, rfl, ?_, ?_⟩
  · have hbeside : regions.Apart { n with scopes } := hapart.of_cells rfl fun _ => rfl
    exact hbeside.of_deferred deferred
  · exact hbal.of_objects (fun _ => rfl) rfl (hbal.tidy.of_objects (fun _ => rfl) (Nat.le_refl _) rfl rfl rfl)

/-- In whatever order the references of a batch are given up, the memory that is left is the same. -/
theorem confluent (h : m.Accounts (↑drops + rest)) (hperm : drops'.Perm drops) :
    ∃ t t', (drops.foldlM Release.dropRef { memory := m }).bind Release.run = some t ∧
      (drops'.foldlM Release.dropRef { memory := m }).bind Release.run = some t' ∧
        t.memory.SameHeap t'.memory ∧ t'.freed = t.freed := by
  obtain ⟨n, regions, rfl, hapart, hbal⟩ := h
  rw [Multiset.filter_add, regions.coe_outside] at hbal
  have hsame : (↑(regions.outside drops') : Multiset Ref) = ↑(regions.outside drops) :=
    Multiset.coe_eq_coe.2 (hperm.filter _)
  have hbal' : Balanced { memory := n } (↑(regions.outside drops') +
      rest.filter fun r => (regions.objects r).isNone) 0 := by
    rw [hsame]
    exact hbal
  obtain ⟨hidden, hhides, htraced⟩ := n.exists_hidden
  obtain ⟨t, hrun, hsteady, hended, hmost⟩ := hbal.exists_ended hhides htraced
  obtain ⟨t', hrun', hsteady', hended', hmost'⟩ := hbal'.exists_ended hhides htraced
  have hlive : ∀ x, t'.memory.isLive x = t.memory.isLive x := by
    intro x
    rw [Bool.eq_iff_iff]
    exact ⟨hmost t' hended' x, hmost' t hended x⟩
  obtain ⟨hfreed, hstats⟩ := hended.freed_eq hended' hlive
  have hheap : t.memory.SameHeap t'.memory :=
    { object := hended.object?_eq hended' hlive
      watched := hended.mem_referrers_iff hended' hlive
      referrers := hended.referrers_perm hended' hlive
      component := hended.entry?_eq hended' hlive
      freed := hstats }
  refine ⟨t.joined regions, t'.joined regions, ?_, ?_, ?_, hfreed⟩
  · rw [hbal.batch_joined hapart, hrun]
    rfl
  · rw [hbal'.batch_joined hapart, hrun']
    rfl
  · exact hheap.joined (hapart.of_steady hsteady) (hapart.of_steady hsteady')

end Accounts

end Memory

/-! ## Operations that give up a batch -/

/-- Both are carried out with the same value, and they leave the same objects. -/
def Outcome.Agrees (outcome outcome' : Outcome Nat) : Prop :=
  ∃ m m' k, outcome = .done m k ∧ outcome' = .done m' k ∧ m.SameHeap m'

namespace Memory

variable {m : Memory} {drops drops' : List Ref} {owned rest : Multiset Ref} {scope : Scope}
  {scopes : List Scope} {k : Nat}

theorem Accounts.giveUp (h : m.Accounts (↑drops + rest)) (hperm : drops'.Perm drops) :
    (m.giveUp drops).Agrees (m.giveUp drops') := by
  obtain ⟨t, t', hrun, hrun', hheap, hfreed⟩ := h.confluent hperm
  refine ⟨t.memory, t'.memory, t.freed, ?_, ?_, hheap⟩
  · rw [Memory.giveUp, hrun]
    rfl
  · rw [Memory.giveUp, hrun', ← hfreed]
    rfl

theorem exitScopeIn_eq (hscopes : m.scopes = scope :: scopes) (entries : Scope) :
    m.exitScopeIn entries = ({ m with scopes } : Memory).giveUp (m.owned entries) := by
  rw [exitScopeIn, hscopes]
  rfl

/-- The entries of a scope come out in no certain order. -/
theorem Accounts.exitScopeIn (h : m.Accounts (↑(m.owned scope) + rest)) (hscopes : m.scopes = scope :: scopes)
    {entries entries' : Scope} (hperm : entries.Perm scope) (hperm' : entries'.Perm scope) :
    (m.exitScopeIn entries).Agrees (m.exitScopeIn entries') := by
  have howned : (↑(m.owned scope) : Multiset Ref) = ↑(m.owned entries) :=
    Multiset.coe_eq_coe.2 (perm_owned hperm.symm)
  rw [howned] at h
  have hleft := h.of_same scopes m.deferred
  rw [exitScopeIn_eq hscopes, exitScopeIn_eq hscopes]
  exact hleft.giveUp (perm_owned (hperm'.trans hperm.symm))

/-- A batch is as long as the part of the queue that it is taken from. -/
theorem split_of_perm {waiting : List Ref} (hperm : drops.Perm (waiting.take k)) :
    (drops ++ waiting.drop k).take k = drops ∧ (drops ++ waiting.drop k).drop k = waiting.drop k := by
  have hlength := hperm.length_eq
  rw [List.length_take] at hlength
  rcases Nat.le_total k waiting.length with hle | hle
  · have hk : drops.length = k := by omega
    exact ⟨List.take_left' hk, List.drop_left' hk⟩
  · have hk : drops.length ≤ k := by omega
    rw [List.drop_of_length_le hle, List.append_nil]
    exact ⟨List.take_of_length_le hk, List.drop_of_length_le hk⟩

theorem applyDeferred_of_ne_nil (hdue : m.deferred.take k ≠ []) :
    m.applyDeferred k = .ofRelease (fun _ => (m.deferred.take k).length)
      ((((m.deferred.take k).foldlM Release.dropRef { memory := { m with deferred := m.deferred.drop k } }).bind
        Release.run).map fun s => { s with
          memory.stats.deferredApplied := s.memory.stats.deferredApplied + (m.deferred.take k).length }) :=
  if_neg (by simpa using hdue)

/-- The decrements of a batch may have been put into the queue in any order. -/
theorem Accounts.applyDeferred (h : m.Accounts (↑(m.deferred.take k) + rest))
    (hperm : drops.Perm (m.deferred.take k)) :
    (m.applyDeferred k).Agrees (({ m with deferred := drops ++ m.deferred.drop k } : Memory).applyDeferred k) := by
  obtain ⟨htake, hdrop⟩ := split_of_perm hperm
  have hlength := hperm.length_eq
  by_cases hdue : m.deferred.take k = []
  · -- nothing is due
    rw [hdue] at hperm
    obtain rfl := List.Perm.eq_nil hperm
    have hnone : ∀ n : Memory, n.deferred.take k = [] → n.applyDeferred k = .done n 0 := by
      intro n hn
      exact if_pos (by simpa using hn)
    exact ⟨m, _, 0, hnone m hdue, hnone _ htake, fun _ => rfl, fun _ => Iff.rfl, fun _ => .refl _, fun _ => rfl, rfl⟩
  · have hdue' : drops ≠ [] := by
      intro he
      rw [he] at hperm
      exact hdue hperm.symm.eq_nil
    obtain ⟨t, t', hrun, hrun', hheap, -⟩ := (h.of_same m.scopes (m.deferred.drop k)).confluent hperm
    rw [applyDeferred_of_ne_nil hdue, applyDeferred_of_ne_nil (by rwa [htake])]
    dsimp only
    rw [htake, hdrop, hrun, hrun', hlength]
    exact ⟨_, _, _, rfl, rfl, hheap.object, hheap.watched, hheap.referrers, hheap.component, hheap.freed⟩

end Memory

/-! ## Programs -/

/-- Wherever a program gets, counts are right for all references that it, the queue and the scopes have, and for
those that are lost. -/
theorem Attained.accounts {config : Config} {secret : UInt64} {m : Memory} {held : Multiset Ref}
    (h : Attained config secret m held) : ∃ lost, m.Accounts (held + lost + ↑m.deferred + m.scopeRefs) := by
  obtain ⟨n, regions, lost, rfl, hdivided⟩ := h.divided
  have hcounted : ∀ refs : Multiset Ref, (∀ x ∈ refs, n.isLive x = true) →
      refs.filter (fun r => (regions.objects r).isNone) = refs := by
    intro refs hrefs
    refine Multiset.filter_eq_self.2 fun x hx => ?_
    rw [objects_eq_none_of_isLive hdivided.apart (hrefs x hx)]
    rfl
  have hlive : ∀ x ∈ held + lost + n.scopeRefs, n.isLive x = true := by
    intro x hx
    refine hdivided.consistent.isLive_of_mem ?_
    simp only [Multiset.mem_add] at hx ⊢
    tauto
  refine ⟨lost, n, regions, rfl, hdivided.apart, ?_⟩
  have hledger : (held + lost + ↑(n.joined regions).deferred + (n.joined regions).scopeRefs).filter
      (fun r => (regions.objects r).isNone) = held + lost + ↑n.deferred + n.scopeRefs := by
    have hscopes : (n.joined regions).scopeRefs = n.scopeRefs := rfl
    have hqueue : (n.joined regions).deferred = regions.deferred := rfl
    rw [hscopes, hqueue, Multiset.filter_add, Multiset.filter_add, Multiset.filter_add, regions.coe_outside,
      hdivided.deferred, Regions.outside, hcounted held fun x hx => hlive x (by simp [hx]),
      hcounted lost fun x hx => hlive x (by simp [hx]), hcounted n.scopeRefs fun x hx => hlive x (by simp [hx])]
  rw [hledger]
  exact hdivided.consistent.settled.balanced

/-- Where all counts are right, the order of the references of a batch does not matter, be they given up by the
program, by a scope that is closed or from the queue of decrements: in every order the same objects are left with the
same fields and counts, the same weak fields are listed, the same components are left with the same members and
counts, and as many objects are freed. -/
theorem batches_confluent {m : Memory} {drops : List Ref} {rest : Multiset Ref} (h : m.Accounts (↑drops + rest)) :
    (∀ drops', drops'.Perm drops → (m.giveUp drops).Agrees (m.giveUp drops')) ∧
    (∀ scope scopes entries entries', m.scopes = scope :: scopes → m.owned scope = drops → entries.Perm scope →
      entries'.Perm scope → (m.exitScopeIn entries).Agrees (m.exitScopeIn entries')) ∧
    ∀ k drops', m.deferred.take k = drops → drops'.Perm drops →
      (m.applyDeferred k).Agrees
        (({ m with deferred := drops' ++ m.deferred.drop k } : Memory).applyDeferred k) := by
  refine ⟨fun drops' hperm => h.giveUp hperm, fun scope scopes entries entries' hscopes howned hperm hperm' => ?_,
    fun k drops' hdue hperm => ?_⟩
  · rw [← howned] at h
    exact h.exitScopeIn hscopes hperm hperm'
  · rw [← hdue] at h hperm
    exact h.applyDeferred hperm

/-- Two objects, the first of which refers to the second, and decrements that wait. -/
def Memory.queued (waiting : List Ref) : Memory :=
  { Memory.pair 2 with deferred := waiting }

theorem batches_confluent_queued :
    ((Memory.queued []).giveUp [1, 0]).Agrees ((Memory.queued []).giveUp [0, 1]) ∧
      ((Memory.queued [1, 0]).applyDeferred 2).Agrees ((Memory.queued [0, 1]).applyDeferred 2) := by
  obtain ⟨lost, hlinked⟩ := reachable_linked.attained.accounts
  have hledger : (1 ::ₘ {0} : Multiset Ref) + lost + ((Memory.pair 2).deferred : Multiset Ref) +
      (Memory.pair 2).scopeRefs = (([1, 0] : List Ref) : Multiset Ref) + lost := by
    have hdeferred : (Memory.pair 2).deferred = [] := rfl
    have hscopes : (Memory.pair 2).scopeRefs = 0 := rfl
    rw [hdeferred, hscopes, Multiset.coe_nil, add_zero, add_zero]
    rfl
  rw [hledger] at hlinked
  have hswap : [0, 1].Perm ([1, 0] : List Ref) := List.Perm.swap 1 0 []
  obtain ⟨hgiven, -, -⟩ := batches_confluent (hlinked.of_same [] [])
  obtain ⟨-, -, happlied⟩ := batches_confluent (hlinked.of_same [] [1, 0])
  exact ⟨hgiven [0, 1] hswap, happlied 2 [0, 1] rfl hswap⟩

end Reclamation
