import Mathlib
import Reclamation.Proofs.Memory.Fields
import Reclamation.Proofs.Memory.Freezing
import Reclamation.Proofs.Memory.Scopes

/-!
# Memory and those who refer to it

References from outside the objects are those that the program holds, those that wait in the queue of
decrements, those that scopes own, and those that are lost: an object that is allocated in a scope but
cannot be named by a handle is in nobody's hands. `Consistent` puts all four on one ledger and says
that memory is settled for it.

Each operation is shown to lead from consistent memory to consistent memory in one of three ways: it
takes references at once, it only moves them from one of the four to another (`Consistent.rearrange`),
or it starts a release that ends in consistent memory (`Release.Completes`).
-/

set_option autoImplicit false

namespace Reclamation

namespace Memory

variable {m m' : Memory} {held held' lost lost' : Multiset Ref} {r : Ref} {o : Object}

/-- All references are accounted for. -/
structure Consistent (m : Memory) (held lost : Multiset Ref) : Prop where
  settled : m.Settled (held + lost + ↑m.deferred + m.scopeRefs)
  scopes : m.Scoped
  capacity : m.components.capacity = m.config.componentCapacity
  lost_symmetric : ∀ x ∈ lost, ∀ o, m.object? x = some o → o.symmetric = true

end Memory

/-- A release in balanced memory that leaves memory in which all references are accounted for. -/
structure Release.Completes (s : Release) (held lost : Multiset Ref) : Prop where
  ends : ∃ t, Steps s t ∧ s.run = some t ∧ t.memory.Consistent held lost ∧
    Balanced s (held + lost + ↑t.memory.deferred + t.memory.scopeRefs) 0

/-- It reads and takes out only what is there. -/
theorem Release.Completes.clean {s t : Release} {held lost : Multiset Ref}
    (h : s.Completes held lost) (hsteps : Steps s t) : t.Clean := by
  obtain ⟨_, -, -, -, hbal⟩ := h.ends
  exact (hbal.steps hsteps).clean

/-- Taking a reference in settled memory. -/
theorem Memory.Settled.acquire {m : Memory} {outer : Multiset Ref} {r : Ref} (h : m.Settled outer)
    (hr : m.isLive r = true) (hroom : m.CanAcquire r) : (m.acquire r).Settled (r ::ₘ outer) := by
  refine ⟨h.balanced.acquire rfl hr hroom, h.traced.acquire fun o ho hs => ?_⟩
  exact hroom o ho (h.balanced.symmetric r o ho hs).1

/-- Giving up references in settled memory. -/
theorem Memory.Settled.drops {m : Memory} {rs : List Ref} {outer : Multiset Ref}
    (h : m.Settled (↑rs + outer)) : ∃ s, rs.foldlM Release.dropRef { memory := m } = some s ∧
      Recounted m s.memory ∧ s.Settles outer := by
  obtain ⟨s, hs, hbal⟩ := h.balanced.dropRefs
  exact ⟨s, hs, Release.recounted_foldlM Release.recounted_dropRef hs,
    hbal.settles (h.traced.dropRefs hs)⟩

namespace Memory.Consistent

variable {m m' : Memory} {held held' lost lost' : Multiset Ref} {r : Ref} {o : Object}

theorem balanced (h : m.Consistent held lost) :
    Balanced { memory := m } (held + lost + ↑m.deferred + m.scopeRefs) 0 :=
  h.settled.balanced

theorem tidy (h : m.Consistent held lost) : m.Tidy :=
  h.balanced.tidy

theorem isLive_of_mem (h : m.Consistent held lost) {x : Ref}
    (hx : x ∈ held + lost + ↑m.deferred + m.scopeRefs) : m.isLive x = true :=
  h.balanced.ledger_live x (by simpa using hx)

/-- What a field refers to is there. -/
theorem isLive_of_target (h : m.Consistent held lost) {r t : Ref} {o : Object} {index : Nat}
    (ho : m.object? r = some o) (ht : o.target? index = some t) : m.isLive t = true := by
  rcases Object.target_cases ht with hweak | hstrong
  · exact h.tidy.wired.live r index t (by rw [weakTarget?, ho]; exact hweak)
  · exact h.balanced.targets_live r t (by rwa [strongTargets_of_object? ho])

/-- What a scope owns is there. -/
theorem isLive_of_owned (h : m.Consistent held lost) {scope : Scope} (hscope : scope ∈ m.scopes) {x : Ref}
    (hx : x ∈ m.owned scope) : m.isLive x = true :=
  h.isLive_of_mem (by simp [mem_scopeRefs.2 ⟨scope, hscope, hx⟩])

/-- What entries of the innermost scope own is there. -/
theorem isLive_of_innermost (h : m.Consistent held lost) {scope entries : Scope} {scopes : List Scope}
    (hs : m.scopes = scope :: scopes) (hperm : entries.Perm m.innermost) {x : Ref} (hx : x ∈ m.owned entries) :
    m.isLive x = true := by
  have hx' : x ∈ m.owned scope := (perm_owned ((perm_innermost hs).1 hperm)).mem_iff.1 hx
  exact h.isLive_of_owned (hs ▸ List.mem_cons_self) hx'

/-- Memory without objects. -/
theorem ofConfigOn (config : Config) (secret : UInt64) (machine : Machine) :
    (ofConfigOn config secret machine).Consistent 0 0 := by
  have hnone : ∀ r, (Memory.ofConfigOn config secret machine).object? r = none := fun r => rfl
  have hentry : ∀ id, (Memory.ofConfigOn config secret machine).components.entry? id = none := fun id => by
    simp [Memory.ofConfigOn, ComponentRegistry.entry?]
  have hslot : ∀ r, (Memory.ofConfigOn config secret machine).pool.slot? r = none := fun r => by
    simp [Memory.ofConfigOn, SlotPool.ofLimitsOn, SlotPool.slot?, SlotPool.chunkIndex?]
  have htargets : ∀ r, (Memory.ofConfigOn config secret machine).strongTargets r = [] := fun r => rfl
  have hempty : ∀ r, (Memory.ofConfigOn config secret machine).weakTarget? r = fun _ => none := fun r => rfl
  have hledger : (0 : Multiset Ref) + 0 + ↑(Memory.ofConfigOn config secret machine).deferred +
      (Memory.ofConfigOn config secret machine).scopeRefs = 0 := rfl
  have htidy : (Memory.ofConfigOn config secret machine).Tidy := by
    refine ⟨⟨fun t h i => ?_, fun h i t ht => ?_⟩,
      ⟨.ofLimitsOn config.pool machine, fun r => ?_, fun r x hx => ?_, fun r x o hx => ?_⟩, .empty _,
      fun r o ho => ?_⟩
    · rw [hempty]
      simp [Memory.ofConfigOn]
    · rw [hempty] at ht
      exact absurd ht (by simp)
    · simp [SlotPool.isInUse, hslot, hnone]
    · rw [hslot] at hx
      exact absurd hx (by simp)
    · rw [hslot] at hx
      exact absurd hx (by simp)
    · rw [hnone] at ho
      exact absurd ho (by simp)
  refine ⟨?_, ⟨by simp [Memory.ofConfigOn], by simp [Memory.ofConfigOn]⟩, rfl, by simp⟩
  rw [hledger]
  refine ⟨?_, fun x hx => ?_⟩
  · refine
      { tidy := htidy
        targets_live := fun h x hx => ?_
        ledger_live := by simp
        plain := fun r o ho => ?_
        plain_due := fun r o ho => ?_
        symmetric := fun r o ho => ?_
        member := fun r o id ho => ?_
        component := fun id e he => ?_
        external := fun id e he => ?_
        external_due := fun id e he => ?_
        work_nodup := List.nodup_nil
        work_object := by simp
        work_component := by simp
        candidates := by simp
        stale := rfl }
    · rw [htargets] at hx
      exact absurd hx (by simp)
    all_goals first
      | · rw [hnone] at ho
          exact absurd ho (by simp)
      | · rw [hentry] at he
          exact absurd he (by simp)
  · obtain ⟨o, ho, -⟩ := isUnowned_iff.1 hx
    rw [hnone] at ho
    exact absurd ho (by simp)

/-! ## Ways to go on -/

/-- Whoever has a reference afterwards, it is the same references. -/
theorem rearrange (h : m.Consistent held lost) (hcells : m'.cells = m.cells)
    (hlist : m'.referrers = m.referrers) (hcomponents : m'.components = m.components)
    (hpool : m'.pool = m.pool) (hconfig : m'.config = m.config) (hscoped : m'.Scoped)
    (hlost : ∀ x ∈ lost', ∀ o, m.object? x = some o → o.symmetric = true)
    (hledger : held' + lost' + ↑m'.deferred + m'.scopeRefs =
      held + lost + ↑m.deferred + m.scopeRefs) : m'.Consistent held' lost' where
  settled := by
    rw [hledger]
    have hobject : ∀ x, m'.object? x = m.object? x := fun x => by rw [object?, object?, hcells]
    exact h.settled.of_objects hobject hcomponents
      (h.tidy.of_objects hobject (by rw [hcells]) hlist hcomponents hpool)
  scopes := hscoped
  capacity := by rw [hcomponents, hconfig, h.capacity]
  lost_symmetric x hx o ho := hlost x hx o (by rwa [object?, ← hcells])

/-- What was counted and which types there are does not matter. -/
theorem of_stats (h : m.Consistent held lost) (types : Std.HashMap TypeTag TypeLayout)
    (stats : Statistics) : ({ m with types, stats } : Memory).Consistent held lost :=
  h.rearrange rfl rfl rfl rfl rfl ⟨h.scopes.entries, h.scopes.distinct⟩ h.lost_symmetric rfl

/-- Scopes keep what they own. -/
theorem scopeRefs_eq (h : m.Consistent held lost) (hages : Ages m m') (hscopes : m'.scopes = m.scopes)
    {outer : Multiset Ref} (hset : m'.Settled (outer + m.scopeRefs)) : m'.scopeRefs = m.scopeRefs := by
  refine h.scopes.scopeRefs_eq hages h.tidy.housed.pool hset.balanced.tidy.housed.pool hscopes ?_
  exact fun x hx => hset.balanced.ledger_live x (by simp [hx])

theorem next (h : m.Consistent held lost) (hages : Ages m m') (hscopes : m'.scopes = m.scopes)
    (hcapacity : m'.components.capacity = m.components.capacity) (hconfig : m'.config = m.config)
    (hset : m'.Settled (held' + lost + ↑m'.deferred + m.scopeRefs)) : m'.Consistent held' lost := by
  have hrefs := h.scopeRefs_eq hages hscopes hset
  refine ⟨by rwa [hrefs], h.scopes.of_ages hages h.tidy.housed hscopes,
    by rw [hcapacity, hconfig, h.capacity], fun x hx o' ho' => ?_⟩
  obtain ⟨o, ho, hs⟩ := hages.object x o' (h.isLive_of_mem (by simp [hx])) ho'
  rw [hs]
  exact h.lost_symmetric x hx o ho

theorem next_of_steady (h : m.Consistent held lost) (hsteady : Steady m m')
    (hset : m'.Settled (held' + lost + ↑m.deferred + m.scopeRefs)) : m'.Consistent held' lost :=
  h.next (.of_steady hsteady hset.balanced.tidy.housed) hsteady.aside.scopes hsteady.aside.capacity
    hsteady.aside.config (by rwa [hsteady.aside.deferred])

/-- A release from consistent memory. -/
theorem completes {s : Release} (h : m.Consistent held lost) (hsteady : Steady m s.memory)
    (hs : s.Settles (held' + lost + ↑m.deferred + m.scopeRefs)) : s.Completes held' lost := by
  obtain ⟨t, hsteps, hrun, hset⟩ := hs.ends
  have hsteady' := hsteady.trans (hsteps.steady hs.balanced)
  refine ⟨t, hsteps, hrun, h.next_of_steady hsteady' hset, ?_⟩
  have hrefs := h.scopeRefs_eq (.of_steady hsteady' hset.balanced.tidy.housed) hsteady'.aside.scopes hset
  rw [hsteady'.aside.deferred, hrefs]
  exact hs.balanced

/-! ## Taking and giving up references -/

theorem acquire (h : m.Consistent held lost) (hr : m.isLive r = true) (hroom : m.CanAcquire r) :
    (m.acquire r).Consistent (r ::ₘ held) lost := by
  refine h.next_of_steady (.of_recounted (recounted_acquire m r)) ?_
  rw [Multiset.cons_add, Multiset.cons_add, Multiset.cons_add]
  exact h.settled.acquire hr hroom

/-- References that the program gives up. -/
theorem drops {rs : List Ref} (h : m.Consistent (↑rs + held) lost) :
    ∃ s, rs.foldlM Release.dropRef { memory := m } = some s ∧ s.Completes held lost := by
  have hset := h.settled
  rw [add_assoc, add_assoc, add_assoc] at hset
  obtain ⟨s, hs, hrecounted, hsettles⟩ := hset.drops
  rw [← add_assoc, ← add_assoc] at hsettles
  exact ⟨s, hs, h.completes (.of_recounted hrecounted) hsettles⟩

theorem drop (h : m.Consistent (r ::ₘ held) lost) :
    ∃ s, ({ memory := m } : Release).dropRef r = some s ∧ s.Completes held lost := by
  have hone : m.Consistent (↑[r] + held) lost := by
    simpa using h
  obtain ⟨s, hs, hcompletes⟩ := hone.drops
  refine ⟨s, ?_, hcompletes⟩
  obtain ⟨t, ht, he⟩ := Option.bind_eq_some_iff.1 hs
  rw [ht]
  exact he

/-- The first decrements that wait are the program's business now. -/
theorem undefer (h : m.Consistent held lost) (n : Nat) :
    ({ m with deferred := m.deferred.drop n } : Memory).Consistent (↑(m.deferred.take n) + held)
      lost := by
  refine h.rearrange rfl rfl rfl rfl rfl ⟨h.scopes.entries, h.scopes.distinct⟩ h.lost_symmetric ?_
  have hsplit : (m.deferred : Multiset Ref) = ↑(m.deferred.take n) + ↑(m.deferred.drop n) := by
    rw [Multiset.coe_add, List.take_append_drop]
  show ↑(m.deferred.take n) + held + lost + ↑(m.deferred.drop n) + m.scopeRefs = _
  rw [hsplit]
  abel

/-- A reference of the program waits to be given up. -/
theorem defer (h : m.Consistent (r ::ₘ held) lost) :
    ({ m with deferred := m.deferred ++ [r] } : Memory).Consistent held lost := by
  refine h.rearrange rfl rfl rfl rfl rfl ⟨h.scopes.entries, h.scopes.distinct⟩ h.lost_symmetric ?_
  show held + lost + ↑(m.deferred ++ [r]) + m.scopeRefs = _
  rw [← Multiset.coe_add, Multiset.coe_singleton, ← Multiset.singleton_add]
  abel

end Memory.Consistent

/-! ## Freeing a tree -/

/-- An object to which only the program refers is due, whatever its count, once the program has given
up all it has. -/
theorem Balanced.doom {s : Release} {outer extra outer' : Multiset Ref} {r : Ref} {o : Object}
    (h : Balanced s outer extra) (hwork : .object r ∉ s.work) (ho : s.memory.object? r = some o)
    (hsym : o.symmetric = false) (hcomp : o.component = none)
    (hmoves : Moves r outer extra outer' extra)
    (hzero : (outer' + extra + s.memory.references).count r = 0) :
    Balanced { s with work := .object r :: s.work } outer' extra := by
  refine h.recount (.refl s.memory) h.tidy.registry
    (hmoves.isLive (Memory.isLive_of_object? ho) h.ledger_live) ?_ ?_ ?_ ?_ ?_
    (List.nodup_cons.2 ⟨hwork, h.work_nodup⟩) ?_ ?_ h.candidates
  · intro x o' ho' hs hc hw
    rw [List.mem_cons, not_or] at hw
    rw [hmoves.count_add (fun e => hw.1 (by rw [e]))]
    exact h.plain x o' ho' hs hc hw.2
  · intro x o' ho' hs hc
    by_cases hx : x = r
    · subst hx
      exact ⟨fun _ => hzero, fun _ => List.mem_cons_self⟩
    · rw [hmoves.count_add hx, List.mem_cons, or_iff_right (by simpa using hx)]
      exact h.plain_due x o' ho' hs hc
  · intro x o' ho' hs
    have hx : x ≠ r := by
      rintro rfl
      obtain rfl := Option.some.inj (ho.symm.trans ho')
      rw [hsym] at hs
      exact absurd hs (by decide)
    rw [hmoves.outer x hx]
    exact (h.symmetric x o' ho' hs).2
  · intro id e he
    rw [hmoves.countP (h.notMem_members ho hcomp he)]
    exact h.external id e he
  · intro id e he
    rw [List.mem_cons, or_iff_right (by simp)]
    exact h.external_due id e he
  · intro x hx
    rcases List.mem_cons.1 hx with hx | hx
    · rw [Doomed.object.inj hx]
      exact ⟨o, ho, hsym, hcomp⟩
    · exact h.work_object x hx
  · intro id hid
    rw [List.mem_cons, or_iff_right (by simp)] at hid
    exact h.work_component id hid

namespace Memory.Consistent

variable {m m' : Memory} {held held' lost lost' : Multiset Ref} {r : Ref} {o : Object}

/-- Scopes own symmetric objects only, and only such objects are lost. -/
theorem not_mem_of_not_symmetric (h : m.Consistent held lost) (ho : m.object? r = some o)
    (hsym : o.symmetric = false) : r ∉ lost ∧ r ∉ m.scopeRefs := by
  constructor
  · intro hr
    rw [h.lost_symmetric r hr o ho] at hsym
    exact absurd hsym (by decide)
  · intro hr
    rw [h.scopes.symmetric h.tidy.housed.pool hr ho] at hsym
    exact absurd hsym (by decide)

theorem freeTree (h : m.Consistent held lost) (ho : m.object? r = some o)
    (hsym : o.symmetric = false) (hcomp : o.component = none) (hdeferred : r ∉ m.deferred)
    (hrefs : r ∉ m.references) : ({ memory := m, work := [.object r] } : Release).Completes
      (held.filter (· ≠ r)) lost := by
  obtain ⟨hlost, hscopes⟩ := h.not_mem_of_not_symmetric ho hsym
  have hmoves : Balanced.Moves r (held + lost + ↑m.deferred + m.scopeRefs) 0
      (held.filter (· ≠ r) + lost + ↑m.deferred + m.scopeRefs) 0 := by
    refine ⟨fun x hx => ?_, fun _ _ => rfl⟩
    simp only [Multiset.count_add]
    rw [Multiset.count_filter_of_pos (p := (· ≠ r)) hx]
  have hzero : (held.filter (· ≠ r) + lost + ↑m.deferred + m.scopeRefs + 0 + m.references).count r =
      0 := by
    rw [Multiset.count_eq_zero]
    simp [hlost, hscopes, hdeferred, hrefs]
  refine h.completes (.refl m) ?_
  exact (h.balanced.doom (by simp) ho hsym hcomp hmoves hzero).settles h.settled.traced

/-! ## Writing fields and freezing -/

/-- An object that is not frozen belongs to no component. -/
theorem component_eq_none (h : m.Consistent held lost) (ho : m.object? r = some o)
    (hfrozen : o.frozen = false) : o.component = none := by
  cases hcomp : o.component with
  | none => rfl
  | some id =>
    obtain ⟨e, he, hr⟩ := h.balanced.member r o id ho hcomp
    obtain ⟨o', ho', -, -, hfrozen'⟩ := (h.balanced.component id e he).frozen r hr
    obtain rfl := Option.some.inj (ho.symm.trans ho')
    rw [hfrozen] at hfrozen'
    exact absurd hfrozen' (by decide)

theorem writeWeak (h : m.Consistent held lost) {index : Nat} {f : RefField} {target : Option Ref}
    (ho : m.object? r = some o) (hf : o.fields[index]? = some f) (hweak : f.weak = true)
    (htarget : ∀ t, target = some t → m.isLive t = true) :
    (m.writeWeak r index f.target target).Consistent held lost := by
  obtain ⟨hset, hsteady⟩ := h.settled.writeWeak ho hf hweak htarget
  exact h.next_of_steady hsteady hset

theorem writeStrong (h : m.Consistent held lost) {index : Nat} {f : RefField} {target : Option Ref}
    (ho : m.object? r = some o) (hf : o.fields[index]? = some f) (hweak : f.weak = false)
    (hfrozen : o.frozen = false)
    (htarget : ∀ t, target = some t → m.isLive t = true ∧ m.CanRefer t) :
    ∃ s, m.strongRelease r index f.target target = some s ∧ s.Completes held lost := by
  obtain ⟨s, hs, hsettles, hsteady⟩ := h.settled.strongRelease ho hf hweak
    (h.component_eq_none ho hfrozen) htarget
  exact ⟨s, hs, h.completes hsteady hsettles⟩

theorem freeze (h : m.Consistent held lost) {root : Ref}
    (hfits : ∀ g ∈ m.cyclesFrom root, m.totalCount g - m.innerReferences g < UInt32.size)
    (hroom : m.config.componentCapacity < UInt32.size ∨
      m.components.entries.size + (m.cyclesFrom root).length < UInt32.size) :
    (Release.freezeAll (m.cyclesFrom root) { memory := m }).1.Completes held lost := by
  rw [← h.capacity, ← min_lt_iff] at hroom
  obtain ⟨hsettles, hsteady⟩ := h.settled.freeze hfits hroom
  exact h.completes hsteady hsettles

/-! ## Allocating -/

theorem allocate (h : m.Consistent held lost) {spec : ObjectSpec} (hspec : spec.IsBlank) :
    (m.allocate spec).1.Consistent ((m.allocate spec).2 ::ₘ held) lost := by
  have hages : Ages m (m.allocate spec).1 := .of_born (.allocate m hspec) rfl rfl fun y x hx => .inl hx
  refine h.next hages rfl rfl rfl ?_
  have hset := h.settled.allocate hspec
  rw [Multiset.cons_add, Multiset.cons_add, Multiset.cons_add]
  exact hset

theorem fillSlot (h : m.Consistent held lost) {spec : ObjectSpec} (hspec : spec.IsBlank)
    (ht : (m.pool.take (m.cells.size + 1)).2 = some r) :
    (m.fillSlot (m.pool.take (m.cells.size + 1)).1 r spec).Consistent (r ::ₘ held) lost := by
  obtain ⟨o, -, -, hborn⟩ := Born.fillSlot h.tidy.housed hspec ht
  have hages : Ages m (m.fillSlot (m.pool.take (m.cells.size + 1)).1 r spec) :=
    .of_born hborn rfl (SlotPool.machine_take ..) fun y x hx => h.tidy.housed.slot?_fillSlot ht hx
  refine h.next hages rfl rfl rfl ?_
  have hset := h.settled.fillSlot hspec ht
  rw [Multiset.cons_add, Multiset.cons_add, Multiset.cons_add]
  exact hset

theorem exhausted (h : m.Consistent held lost)
    (ht : (m.pool.take (m.cells.size + 1)).2 = none) :
    ({ m with pool := (m.pool.take (m.cells.size + 1)).1 } : Memory).Consistent held lost :=
  h.next (.exhausted ht) rfl rfl rfl (h.settled.exhausted ht)

/-! ## Scopes -/

theorem enterScope (h : m.Consistent held lost) : m.enterScope.Consistent held lost := by
  refine h.rearrange rfl rfl rfl rfl rfl ⟨fun scope hs e he => ?_, fun scope hs => ?_⟩
    h.lost_symmetric rfl
  · rcases List.mem_cons.1 hs with rfl | hs
    · exact absurd he (by simp)
    · exact h.scopes.entries scope hs e he
  · rcases List.mem_cons.1 hs with rfl | hs
    · exact List.nodup_nil
    · exact h.scopes.distinct scope hs

/-- What the innermost scope owned is the program's business now. -/
theorem leaveScope (h : m.Consistent held lost) {scope entries : Scope} {scopes : List Scope}
    (hs : m.scopes = scope :: scopes) (hperm : entries.Perm m.innermost) :
    ({ m with scopes } : Memory).Consistent (↑(m.owned entries) + held) lost := by
  have howned : (↑(m.owned entries) : Multiset Ref) = ↑(m.owned scope) :=
    Multiset.coe_eq_coe.2 (perm_owned ((perm_innermost hs).1 hperm))
  refine h.rearrange rfl rfl rfl rfl rfl
    ⟨fun s hmem => h.scopes.entries s (by rw [hs]; exact List.mem_cons_of_mem _ hmem),
      fun s hmem => h.scopes.distinct s (by rw [hs]; exact List.mem_cons_of_mem _ hmem)⟩
    h.lost_symmetric ?_
  show ↑(m.owned entries) + held + lost + ↑m.deferred + ↑(scopes.flatMap m.owned) = _
  rw [howned, scopeRefs, hs, List.flatMap_cons, ← Multiset.coe_add]
  abel

/-- The scope that owns an object has lost it, and the program has what it owned; otherwise nothing
has changed. -/
theorem disown (h : m.Consistent held lost) (r : Ref) :
    ({ m with scopes := m.disown r m.scopes } : Memory).Consistent
      (if r ∈ m.scopeRefs then r ::ₘ held else held) lost := by
  have hscoped : ({ m with scopes := m.disown r m.scopes } : Memory).Scoped := by
    refine ⟨fun scope' hs e he => ?_, fun scope' hs => ?_⟩
    · obtain ⟨scope, hs', hsublist⟩ := exists_sublist_of_mem_disown hs
      exact h.scopes.entries scope hs' e (hsublist.subset he)
    · obtain ⟨scope, hs', hsublist⟩ := exists_sublist_of_mem_disown hs
      exact (hsublist.map Prod.fst).nodup (h.scopes.distinct scope hs')
  have howned : ({ m with scopes := m.disown r m.scopes } : Memory).scopeRefs =
      (withdraw r m.ownedBy).sum := by
    rw [← sum_ownedBy, h.scopes.ownedBy_disown h.tidy.housed.pool r]
  refine h.rearrange rfl rfl rfl rfl rfl hscoped h.lost_symmetric ?_
  rw [howned, ← sum_ownedBy]
  by_cases hr : r ∈ m.ownedBy.sum
  · rw [if_pos hr, ← cons_sum_withdraw hr, ← Multiset.singleton_add, ← Multiset.singleton_add]
    abel
  · rw [if_neg hr, withdraw_of_notMem hr]

/-- A new object belongs to the innermost scope. -/
theorem addToScope (h : m.Consistent (r ::ₘ held) lost) {scope : Scope} {scopes : List Scope}
    {handle : Handle} (hs : m.scopes = scope :: scopes) (hhandle : m.handle r = .ok handle)
    (ho : m.object? r = some o) (hsym : o.symmetric = true) (hnot : r ∉ m.scopeRefs) :
    ({ m with scopes := scope.add r handle :: scopes } : Memory).Consistent held lost := by
  have hpool := h.tidy.housed.pool
  obtain ⟨hfit, x, hx, huse, hword⟩ := SlotPool.handle_eq_ok hhandle
  have hentry : m.Entry (r, handle) := by
    refine ⟨x.generation, x, hword, hfit, hx, (hpool.even_iff r x hx).2 huse, Nat.le_refl _,
      fun _ o' ho' => ?_⟩
    obtain rfl := Option.some.inj (ho.symm.trans ho')
    exact hsym
  have hmem : ∀ e ∈ scope.add r handle, e = (r, handle) ∨ e ∈ scope := fun e he => by
    rcases List.mem_cons.1 he with he | he
    · exact .inl he
    · exact .inr (List.mem_filter.1 he).1
  have hscoped : ({ m with scopes := scope.add r handle :: scopes } : Memory).Scoped := by
    refine ⟨fun s hmem' e he => ?_, fun s hmem' => ?_⟩
    · rcases List.mem_cons.1 hmem' with rfl | hmem'
      · rcases hmem e he with rfl | he
        · exact hentry
        · exact h.scopes.entries scope (by rw [hs]; exact List.mem_cons_self) e he
      · exact h.scopes.entries s (by rw [hs]; exact List.mem_cons_of_mem _ hmem') e he
    · rcases List.mem_cons.1 hmem' with rfl | hmem'
      · have hdistinct := h.scopes.distinct scope (by rw [hs]; exact List.mem_cons_self)
        refine List.nodup_cons.2 ⟨fun hr => ?_, (List.filter_sublist.map Prod.fst).nodup hdistinct⟩
        obtain ⟨e, he, her⟩ := List.mem_map.1 hr
        simpa [her] using (List.mem_filter.1 he).2
      · exact h.scopes.distinct s (by rw [hs]; exact List.mem_cons_of_mem _ hmem')
  have hout : r ∉ m.owned scope := fun hr =>
    hnot (mem_scopeRefs.2 ⟨scope, by rw [hs]; exact List.mem_cons_self, hr⟩)
  have howned := owned_add (fun e he => h.scopes.entries scope (by rw [hs]; exact List.mem_cons_self)
    e he) hpool hout (SlotPool.deref?_handle hhandle)
  refine h.rearrange rfl rfl rfl rfl rfl hscoped h.lost_symmetric ?_
  show held + lost + ↑m.deferred + ↑((scope.add r handle :: scopes).flatMap m.owned) = _
  rw [List.flatMap_cons, ← Multiset.coe_add, howned, scopeRefs, hs, List.flatMap_cons,
    ← Multiset.coe_add, ← Multiset.singleton_add, ← Multiset.singleton_add]
  abel

/-- A new object that no handle can name is lost. -/
theorem lose (h : m.Consistent (r ::ₘ held) lost) (ho : m.object? r = some o)
    (hsym : o.symmetric = true) : m.Consistent held (r ::ₘ lost) := by
  refine h.rearrange rfl rfl rfl rfl rfl ⟨h.scopes.entries, h.scopes.distinct⟩ (fun x hx o' ho' => ?_) ?_
  · rcases Multiset.mem_cons.1 hx with rfl | hx
    · obtain rfl := Option.some.inj (ho.symm.trans ho')
      exact hsym
    · exact h.lost_symmetric x hx o' ho'
  · rw [← Multiset.singleton_add, ← Multiset.singleton_add]
    abel

end Memory.Consistent

end Reclamation
