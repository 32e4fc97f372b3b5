import Mathlib
import Reclamation.Proofs.Memory.Exactness
import Reclamation.Proofs.Memory.SlotAddresses

/-!
# Programs that work with scopes

A program that allocates in scopes only, takes references and gives up no more of them than it took
is followed by a ledger (`ScopeLedger`): what each open scope owns, what the program owes, and what
lapsed. A release asks the scopes first. If one of them owns the object, that scope pays, although the
program gives up a reference that it took itself; the program's reference stays counted and nobody has
it any more.

In every state of such a run memory agrees with the ledger (`ScopeLedger.Matches`). One lemma for each
operation shows that the agreement is kept, and `ScopedRun.matches_ledger` puts them together. So
closing a scope gives up exactly what the ledger says that it owns, and when all scopes are closed and
nothing is owed, what is left is due to what lapsed.
-/

set_option autoImplicit false

namespace Reclamation

open Memory

/-! ## The ledger -/

/-- The references that are known of when a program works with scopes. -/
structure ScopeLedger where
  /-- Those that each open scope owns, the innermost scope first. -/
  owns : List (Multiset Ref) := []
  /-- Those that the program took and has not given up. -/
  owed : Multiset Ref := 0
  /-- Those that the program took and gave up while a scope paid for it. -/
  lapsed : Multiset Ref := 0

/-- Whether an operation is one for programs that work with scopes. -/
def Operation.isScoped : Operation → Bool
  | registerType _ _ | enterScope | exitScope _ | allocateScoped _ | allocateScopedType _ _ | acquire _
  | releaseScoped _ | setField _ _ _ => true
  | allocate _ | allocateType _ _ | allocateSlot _ | allocateSlotType _ _ | release _ | defer _
  | safePoint | drain | freeze _ | acquireComponent _ | freeTree _ => false

namespace ScopeLedger

/-- All references from outside the objects. -/
def all (l : ScopeLedger) : Multiset Ref :=
  l.owed + l.lapsed + l.owns.sum

/-- The program uses what is there, and gives up a reference only if it owes one. -/
structure Permits (l : ScopeLedger) (m : Memory) (op : Operation) : Prop where
  isScoped : op.isScoped = true
  allowed : op.Allowed m l.owed
  matched : ∀ r, op = .releaseScoped r → r ∈ l.owed

/-- The ledger after an operation that was carried out. -/
def after (l : ScopeLedger) (made : Option Ref) : Operation → ScopeLedger
  | .enterScope => { l with owns := 0 :: l.owns }
  | .exitScope _ => { l with owns := l.owns.tail }
  | .allocateScoped _ | .allocateScopedType _ _ =>
    made.elim l fun r => { l with owns := l.owns.modifyHead (r ::ₘ ·) }
  | .acquire r => { l with owed := r ::ₘ l.owed }
  | .releaseScoped r =>
    if r ∈ l.owns.sum then
      { owns := withdraw r l.owns, owed := l.owed.erase r, lapsed := r ::ₘ l.lapsed }
    else { l with owed := l.owed.erase r }
  | .registerType _ _ | .setField _ _ _ | .allocate _ | .allocateType _ _ | .allocateSlot _
  | .allocateSlotType _ _ | .release _ | .defer _ | .safePoint | .drain | .freeze _
  | .acquireComponent _ | .freeTree _ => l

/-- Memory agrees with the ledger. -/
structure Matches (l : ScopeLedger) (m : Memory) : Prop where
  consistent : m.Consistent (l.owed + l.lapsed) 0
  owned : m.ownedBy = l.owns
  deferred : m.deferred = []
  symmetric : ∀ r o, m.object? r = some o → o.symmetric = true
  nameable : m.pool.Nameable

namespace Matches

variable {l l' : ScopeLedger} {m m' : Memory} {r : Ref} {o : Object}

theorem ofConfigOn (config : Config) (secret : UInt64) {machine : Machine} (hlow : machine.Low) :
    Matches {} (.ofConfigOn config secret machine) where
  consistent := .ofConfigOn config secret machine
  owned := rfl
  deferred := rfl
  symmetric _ _ ho := nomatch ho
  nameable := .ofLimitsOn config.pool hlow

theorem housed (h : l.Matches m) : m.Housed :=
  h.consistent.tidy.housed

theorem sum_owns (h : l.Matches m) : l.owns.sum = m.scopeRefs := by
  rw [← h.owned, sum_ownedBy]

/-- Nothing waits and nothing is lost, so the ledger has all references. -/
theorem all_eq (h : l.Matches m) (howns : l'.owns = l.owns) :
    l'.owed + l'.lapsed + 0 + ↑m.deferred + m.scopeRefs = l'.all := by
  rw [h.deferred, ← h.sum_owns, all, howns, Multiset.coe_nil, add_zero, add_zero]

theorem settled (h : l.Matches m) : m.Settled l.all := by
  rw [← h.all_eq rfl]
  exact h.consistent.settled

/-- What the count of an object is. -/
theorem count_eq (h : l.Matches m) (ho : m.object? r = some o) : o.count.toNat = l.all.count r := by
  have hcount := (h.settled.balanced.symmetric r o ho (h.symmetric r o ho)).2.1
  simpa using hcount

theorem isLive_of_mem (h : l.Matches m) (hr : r ∈ l.all) : m.isLive r = true :=
  h.settled.balanced.ledger_live r (by simpa using hr)

/-! ## Ways to go on -/

/-- Memory in which no object is new. -/
theorem of_steady (h : l.Matches m) (hsteady : Steady m m') (howns : l'.owns = l.owns)
    (hset : m'.Settled l'.all) : l'.Matches m' where
  consistent := by
    rw [← h.all_eq howns] at hset
    exact h.consistent.next_of_steady hsteady hset
  owned := by
    have hhoused := hset.balanced.tidy.housed
    rw [howns, ← h.owned]
    refine h.consistent.scopes.ownedBy_eq (.of_steady hsteady hhoused) h.housed.pool hhoused.pool
      hsteady.aside.scopes fun x hx => hset.balanced.ledger_live x ?_
    rw [← h.sum_owns] at hx
    simp [all, howns, hx]
  deferred := hsteady.aside.deferred.trans h.deferred
  symmetric r o' ho' := by
    obtain ⟨o, ho, hsym⟩ := hsteady.object r o' ho'
    exact hsym.trans (h.symmetric r o ho)
  nameable := hsteady.nameable h.nameable

/-- A release runs to its end. -/
theorem ends {s : Release} (h : l.Matches m) (hsteady : Steady m s.memory) (howns : l'.owns = l.owns)
    (hs : s.Settles l'.all) :
    ∃ t, s.run = some t ∧ l'.Matches t.memory ∧ Steady m t.memory := by
  obtain ⟨t, hsteps, hrun, hset⟩ := hs.ends
  have hsteady' := hsteady.trans (hsteps.steady hs.balanced)
  exact ⟨t, hrun, h.of_steady hsteady' howns hset, hsteady'⟩

/-- References that the program gives up. -/
theorem drops {rs : List Ref} (h : Matches { l with owed := ↑rs + l.owed } m) :
    ∃ s t, rs.foldlM Release.dropRef { memory := m } = some s ∧ s.run = some t ∧
      l.Matches t.memory ∧ Steady m t.memory := by
  have hset := h.settled
  rw [all, add_assoc, add_assoc, ← add_assoc l.owed] at hset
  obtain ⟨s, hs, hrecounted, hsettles⟩ := hset.drops
  have hends : ∃ t, s.run = some t ∧ l.Matches t.memory ∧ Steady m t.memory :=
    h.ends (.of_recounted hrecounted) rfl hsettles
  obtain ⟨t, hrun, hm, hsteady⟩ := hends
  exact ⟨s, t, hs, hrun, hm, hsteady⟩

end Matches

/-- Whatever an operation comes to, memory agrees with the ledger. -/
def Covers (l : ScopeLedger) (op : Operation) : Outcome (Option Ref) → Prop
  | .done m made => (l.after made op).Matches m
  | .refused m _ => l.Matches m
  | .broken => False
  | .outOfMemory => True

namespace Matches

variable {l : ScopeLedger} {m : Memory} {r : Ref}

/-! ## Scopes -/

theorem enterScope (h : l.Matches m) : ({ l with owns := 0 :: l.owns } : ScopeLedger).Matches m.enterScope :=
  { h with
    consistent := h.consistent.enterScope
    owned := congrArg (0 :: ·) h.owned }

/-- Closing a scope gives up what it owns. -/
theorem exitScope {own : Multiset Ref} {outer : List (Multiset Ref)} {entries : Scope} (h : l.Matches m)
    (howns : l.owns = own :: outer) (hperm : entries.Perm m.innermost) :
    ∃ m', (Operation.exitScope entries).outcome m = .done m' none ∧
      ({ l with owns := outer } : ScopeLedger).Matches m' ∧
        ∀ x o', m'.object? x = some o' → ∃ o, m.object? x = some o := by
  obtain ⟨scope, scopes, hscopes, hown, houter⟩ := List.map_eq_cons_iff.1 (h.owned.trans howns)
  -- what the scope owns passes to the program, which gives it up at once
  have hleft : ({ owns := outer, owed := ↑(m.owned entries) + l.owed, lapsed := l.lapsed } :
      ScopeLedger).Matches { m with scopes } := by
    refine { h with consistent := ?_, owned := houter }
    rw [add_assoc]
    exact h.consistent.leaveScope hscopes hperm
  obtain ⟨s, t, hs, hrun, hm, hsteady⟩ := Matches.drops (l := { l with owns := outer }) hleft
  refine ⟨t.memory, ?_, hm, fun x o' ho' => ?_⟩
  · rw [Operation.outcome, Memory.exitScopeIn, hscopes]
    dsimp only
    rw [hs, Option.bind_some, hrun]
    rfl
  · obtain ⟨o, ho, -⟩ := hsteady.object x o' ho'
    exact ⟨o, ho⟩

theorem covers_exitScope {entries : Scope} (h : l.Matches m) (hperm : entries.Perm m.innermost) :
    l.Covers (.exitScope entries) ((Operation.exitScope entries).outcome m) := by
  cases howns : l.owns with
  | nil =>
    have hscopes : m.scopes = [] := List.map_eq_nil_iff.1 (h.owned.trans howns)
    rw [Operation.outcome, Memory.exitScopeIn, hscopes]
    exact h
  | cons own outer =>
    obtain ⟨m', hout, hm, -⟩ := h.exitScope howns hperm
    rw [hout, Covers, after, howns]
    exact hm

/-- A release is paid by the innermost scope that owns the object, and otherwise by the program. -/
theorem releaseScoped (h : l.Matches m) (hr : r ∈ l.owed) :
    ∃ m', (Operation.releaseScoped r).outcome m = .done m' none ∧
      (l.after none (.releaseScoped r)).Matches m' := by
  have hpool := h.housed.pool
  have hdisowned := h.consistent.disown r
  have howned := h.consistent.scopes.ownedBy_disown hpool r
  rw [← h.sum_owns] at hdisowned
  rw [h.owned] at howned
  -- either way one reference is given up: the program's own, or that of the scope, and then the
  -- program's lapses
  obtain ⟨l', hafter, hm⟩ : ∃ l', l.after none (.releaseScoped r) = l' ∧
      ({ l' with owed := ↑[r] + l'.owed } : ScopeLedger).Matches
        { m with scopes := m.disown r m.scopes } := by
    refine ⟨_, rfl, ?_⟩
    by_cases hmem : r ∈ l.owns.sum
    · rw [if_pos hmem] at hdisowned
      rw [after, if_pos hmem]
      refine { h with consistent := ?_, owned := howned }
      show Consistent _ (↑[r] + l.owed.erase r + r ::ₘ l.lapsed) 0
      rwa [Multiset.coe_singleton, Multiset.singleton_add, Multiset.cons_erase hr, Multiset.add_cons]
    · rw [if_neg hmem] at hdisowned
      rw [withdraw_of_notMem hmem] at howned
      rw [after, if_neg hmem]
      refine { h with consistent := ?_, owned := howned }
      show Consistent _ (↑[r] + l.owed.erase r + l.lapsed) 0
      rwa [Multiset.coe_singleton, Multiset.singleton_add, Multiset.cons_erase hr]
  obtain ⟨s, t, hs, hrun, hm', -⟩ := hm.drops
  have hdrop : ({ memory := { m with scopes := m.disown r m.scopes } } : Release).dropRef r = some s := by
    simpa using hs
  refine ⟨t.memory, ?_, by rwa [hafter]⟩
  rw [Operation.outcome, Memory.releaseScoped, Memory.release, hdrop, Option.bind_some, hrun]
  rfl

/-! ## References and fields -/

theorem covers_acquire (h : l.Matches m) (hr : m.isLive r = true) (hroom : m.CanAcquire r) :
    l.Covers (.acquire r) ((Operation.acquire r).outcome m) := by
  have hrecounted := recounted_acquire m r
  show (l.after none (.acquire r)).Matches (m.acquire r)
  refine h.of_steady (.of_recounted hrecounted) rfl ?_
  show (m.acquire r).Settled (r ::ₘ l.owed + l.lapsed + l.owns.sum)
  rw [Multiset.cons_add, Multiset.cons_add]
  exact h.settled.acquire hr hroom

/-- Writing a field changes what objects refer to and no reference from outside. -/
theorem covers_setField {index : Nat} {target : Option Ref} (h : l.Matches m)
    (hr : m.isLive r = true) (htarget : ∀ t, target = some t → m.isLive t = true ∧
      ∀ o f, m.object? r = some o → o.frozen = false → o.fields[index]? = some f → f.weak = false →
        m.CanRefer t) : l.Covers (.setField r index target)
          ((Operation.setField r index target).outcome m) := by
  obtain ⟨o, ho⟩ := isLive_iff.1 hr
  rw [Operation.outcome, Memory.setField, ho]
  dsimp only
  rcases Operation.fieldFault?_cases m o index target with
    ⟨fault, hfault⟩ | ⟨hfault, hfrozen, f, hf⟩
  · rw [hfault]
    exact h
  · have harena : o.arena?.isSome = false := by rw [h.consistent.tidy.no_arena r o ho]; rfl
    have hweak? : o.fields[index]?.any (·.weak) = f.weak := by rw [hf]; rfl
    simp only [hfault, harena, hweak?, Object.target?_of_field hf, Bool.false_eq_true, ↓reduceIte]
    cases hweak : f.weak with
    | true =>
      obtain ⟨hset, hsteady⟩ := h.settled.writeWeak ho hf hweak fun t ht => (htarget t ht).1
      exact h.of_steady hsteady rfl hset
    | false =>
      obtain ⟨s, hs, hsettles, hsteady⟩ := h.settled.strongRelease ho hf hweak
        (h.consistent.component_eq_none ho hfrozen) fun t ht =>
          ⟨(htarget t ht).1, (htarget t ht).2 o f ho hfrozen hf hweak⟩
      obtain ⟨t, hrun, hm, -⟩ := h.ends hsteady rfl hsettles
      rw [Memory.writeStrong_eq, hs, Option.bind_some, hrun]
      exact hm

/-! ## Allocating -/

/-- The pool has no slot to give. -/
theorem exhausted (h : l.Matches m) (hgrant : m.pool.exceedsMemory (m.cells.size + 1) = false)
    (ht : (m.pool.take (m.cells.size + 1)).2 = none) :
    l.Matches { m with pool := (m.pool.take (m.cells.size + 1)).1 } where
  consistent := h.consistent.exhausted ht
  owned := by
    rw [← h.owned]
    have hhoused := (h.consistent.exhausted ht).tidy.housed
    refine h.consistent.scopes.ownedBy_eq (.exhausted ht) h.housed.pool hhoused.pool rfl fun x hx => ?_
    exact h.consistent.isLive_of_mem (by simp [hx])
  deferred := h.deferred
  symmetric := h.symmetric
  nameable := h.nameable.take hgrant h.housed.slot?_next

theorem scopes_eq_nil (h : l.Matches m) (howns : l.owns = []) : m.scopes = [] :=
  List.map_eq_nil_iff.1 (h.owned.trans howns)

theorem exists_scopes (h : l.Matches m) (howns : l.owns ≠ []) :
    ∃ scope scopes, m.scopes = scope :: scopes :=
  List.exists_cons_of_ne_nil fun hnil => howns (by rw [← h.owned, ownedBy, hnil]; rfl)

/-- A reference that the program owes, apart from the others. -/
theorem consistent_cons (h : ({ l with owed := r ::ₘ l.owed } : ScopeLedger).Matches m) :
    m.Consistent (r ::ₘ (l.owed + l.lapsed)) 0 := by
  rw [← Multiset.cons_add]
  exact h.consistent

/-- A new object in a slot is the program's at first. -/
theorem fillSlot {spec : ObjectSpec} (h : l.Matches m) (hspec : spec.IsBlank) (hsym : spec.symmetric = true)
    (hgrant : m.pool.exceedsMemory (m.cells.size + 1) = false)
    (ht : (m.pool.take (m.cells.size + 1)).2 = some r) :
    ∃ m' o, m.allocateSlot spec = .done m' r ∧ m'.scopes = m.scopes ∧ o.origin = .slot ∧ Born r o m m' ∧
      ({ l with owed := r ::ₘ l.owed } : ScopeLedger).Matches m' := by
  obtain ⟨o, hslot, hosym, hborn⟩ := Born.fillSlot h.housed hspec ht
  have hfilled := h.consistent.fillSlot hspec ht
  have howned := h.consistent.scopes.ownedBy_eq
    (.of_born hborn rfl (SlotPool.machine_take ..) fun y x hx => h.housed.slot?_fillSlot ht hx) h.housed.pool
    hfilled.tidy.housed.pool rfl fun x hx => hborn.isLive (h.consistent.isLive_of_mem (by simp [hx]))
  refine ⟨m.fillSlot (m.pool.take (m.cells.size + 1)).1 r spec, o, ?_, rfl, hslot, hborn, ?_⟩
  · rw [Memory.allocateSlot, hgrant]
    dsimp only
    rw [ht]
    rfl
  · refine
      { consistent := ?_
        owned := howned.trans h.owned
        deferred := h.deferred
        symmetric := fun x o' ho' => ?_
        nameable := h.nameable.take hgrant h.housed.slot?_next }
    · show Consistent _ (r ::ₘ l.owed + l.lapsed) 0
      rwa [Multiset.cons_add]
    · rcases hborn.object_cases ho' with ⟨rfl, rfl⟩ | ⟨-, hold⟩
      · exact hosym.trans hsym
      · exact h.symmetric x o' hold

/-- The innermost scope takes over a reference of the program, if no scope owns the object. -/
theorem addToScope {scope : Scope} {scopes : List Scope} {handle : Handle} {o : Object}
    (h : ({ l with owed := r ::ₘ l.owed } : ScopeLedger).Matches m) (hscopes : m.scopes = scope :: scopes)
    (hhandle : m.handle r = .ok handle) (ho : m.object? r = some o) (hnot : r ∉ m.scopeRefs) :
    ({ l with owns := l.owns.modifyHead (r ::ₘ ·) } : ScopeLedger).Matches
      { m with scopes := scope.add r handle :: scopes } := by
  have hmem : scope ∈ m.scopes := by
    rw [hscopes]
    exact List.mem_cons_self
  have hadd : (↑(m.owned (scope.add r handle)) : Multiset Ref) = r ::ₘ ↑(m.owned scope) :=
    owned_add (h.consistent.scopes.entries scope hmem) h.housed.pool
      (fun hr => hnot (mem_scopeRefs.2 ⟨scope, hmem, hr⟩)) (SlotPool.deref?_handle hhandle)
  have howns : l.owns = ↑(m.owned scope) :: scopes.map fun scope => (↑(m.owned scope) : Multiset Ref) := by
    have howned := h.owned
    rw [ownedBy, hscopes] at howned
    exact howned.symm
  refine
    { h with
      consistent := h.consistent_cons.addToScope hscopes hhandle ho (h.symmetric r o ho) hnot
      owned := ?_ }
  show (↑(m.owned (scope.add r handle)) : Multiset Ref) ::
    scopes.map (fun scope => (↑(m.owned scope) : Multiset Ref)) = l.owns.modifyHead (r ::ₘ ·)
  rw [hadd, howns]
  rfl

/-- The innermost scope owns a new object. -/
theorem allocateScoped {spec : ObjectSpec} (h : l.Matches m) (hspec : spec.IsBlank)
    (howns : l.owns ≠ []) (hgrant : m.pool.exceedsMemory (m.cells.size + 1) = false)
    (ht : (m.pool.take (m.cells.size + 1)).2 = some r) :
    ∃ m', (Operation.allocateScoped spec).outcome m = .done m' (some r) ∧
      ({ l with owns := l.owns.modifyHead (r ::ₘ ·) } : ScopeLedger).Matches m' := by
  obtain ⟨scope, scopes, hscopes⟩ := h.exists_scopes howns
  have hspec' : ({ spec with symmetric := true } : ObjectSpec).IsBlank := hspec
  obtain ⟨m', o, hallocated, hsame, hslot, hborn, hm⟩ := h.fillSlot hspec' rfl hgrant ht
  have ho : m'.object? r = some o := by rw [hborn.object, if_pos rfl]
  have hsym := hm.symmetric r o ho
  have hnot := Operation.not_mem_scopeRefs hm.consistent_cons hborn hsym
  -- the addresses of slots fit a handle, so that the new object always gets one
  obtain ⟨handle, hhandle⟩ := hm.housed.exists_handle hm.nameable ho hslot
  refine ⟨{ m' with scopes := scope.add r handle :: scopes }, ?_,
    hm.addToScope (hsame.trans hscopes) hhandle ho hnot⟩
  rw [Operation.outcome, Memory.allocateScoped, hscopes]
  simp only [hallocated, Outcome.bind, hhandle]

theorem covers_allocateScoped {spec : ObjectSpec} (h : l.Matches m) (hspec : spec.IsBlank) :
    l.Covers (.allocateScoped spec) ((Operation.allocateScoped spec).outcome m) := by
  by_cases howns : l.owns = []
  · rw [Operation.outcome, Memory.allocateScoped, h.scopes_eq_nil howns]
    exact h
  obtain ⟨scope, scopes, hscopes⟩ := h.exists_scopes howns
  cases hgrant : m.pool.exceedsMemory (m.cells.size + 1) with
  | true =>
    rw [Operation.outcome, Memory.allocateScoped, hscopes, Memory.allocateSlot, hgrant]
    trivial
  | false =>
    cases ht : (m.pool.take (m.cells.size + 1)).2 with
    | none =>
      rw [Operation.outcome, Memory.allocateScoped, hscopes, Memory.allocateSlot, hgrant]
      dsimp only
      rw [ht]
      exact h.exhausted hgrant ht
    | some r =>
      obtain ⟨m', hout, hm⟩ := h.allocateScoped hspec howns hgrant ht
      rw [hout]
      exact hm

theorem covers_allocateScopedType (h : l.Matches m) (tag : TypeTag) (shared : Bool) :
    l.Covers (.allocateScopedType tag shared)
      ((Operation.allocateScopedType tag shared).outcome m) := by
  rw [Operation.outcome, Memory.allocateScopedType]
  cases hs : m.spec tag with
  | error fault => exact h
  | ok spec =>
    have hblank : ({ spec with shared } : ObjectSpec).IsBlank :=
      fun fields hfields => isBlank_of_spec hs fields hfields
    exact h.covers_allocateScoped hblank

/-! ## All operations -/

/-- Whatever a permitted operation comes to, memory agrees with the ledger. -/
theorem covers {op : Operation} (h : l.Matches m) (hop : l.Permits m op) :
    l.Covers op (op.outcome m) := by
  obtain ⟨hscoped, hallowed, hmatched⟩ := hop
  cases op with
  | registerType tag layout =>
    exact { h with consistent := h.consistent.of_stats (m.types.insert tag layout) m.stats }
  | enterScope => exact h.enterScope
  | exitScope entries => exact h.covers_exitScope hallowed
  | allocateScoped spec => exact h.covers_allocateScoped hallowed
  | allocateScopedType tag shared => exact h.covers_allocateScopedType tag shared
  | acquire r => exact h.covers_acquire hallowed.1 hallowed.2
  | releaseScoped r =>
    obtain ⟨m', hout, hm⟩ := h.releaseScoped (hmatched r rfl)
    rw [hout]
    exact hm
  | setField r index target => exact h.covers_setField hallowed.1 hallowed.2
  | allocate _ | allocateType _ _ | allocateSlot _ | allocateSlotType _ _ | release _ | defer _
  | safePoint | drain | freeze _ | acquireComponent _ | freeTree _ =>
    exact nomatch hscoped

/-! ## What is live -/

/-- All objects are symmetric, so all cycles are found. -/
theorem collectable (h : l.Matches m) : m.Collectable := by
  intro first rest hring
  refine .inl fun x hx => ?_
  obtain ⟨y, hxy⟩ := hring.exists_refers hx
  obtain ⟨o, ho⟩ := isLive_iff.1 (isLive_of_mem_strongTargets hxy)
  exact ⟨o, ho, h.symmetric x o ho⟩

theorem isLive_iff (h : l.Matches m) (x : Ref) : m.isLive x = true ↔ m.Reached l.all x :=
  ⟨h.settled.reached h.collectable, h.settled.isLive_of_reached⟩

/-- With all scopes closed and nothing owed, memory is empty unless something lapsed. -/
theorem forall_not_isLive_iff (h : l.Matches m) (howns : l.owns = []) (howed : l.owed = 0) :
    (∀ r, m.isLive r = false) ↔ l.lapsed = 0 := by
  have hall : l.all = l.lapsed := by simp [all, howns, howed]
  constructor
  · intro hnone
    refine Multiset.eq_zero_of_forall_notMem fun r hr => ?_
    have hlive := h.isLive_of_mem (hall ▸ hr)
    rw [hnone r] at hlive
    exact absurd hlive (by decide)
  · intro hlapsed r
    rw [Bool.eq_false_iff]
    intro hlive
    obtain ⟨x, hx, -⟩ := (h.isLive_iff r).1 hlive
    rw [hall, hlapsed] at hx
    exact absurd hx (Multiset.notMem_zero x)

end Matches

end ScopeLedger

/-! ## Runs -/

/-- The operations of a program that works with scopes, the memory that they lead to and the
ledger. -/
inductive ScopedRun (config : Config) (secret : UInt64) :
    List Operation → Memory → ScopeLedger → Prop
  | start {machine : Machine} : machine.Low → ScopedRun config secret [] (.ofConfigOn config secret machine) {}
  | done {ops : List Operation} {m m' : Memory} {l : ScopeLedger} {made : Option Ref}
      (op : Operation) : ScopedRun config secret ops m l → l.Permits m op →
        op.outcome m = .done m' made → ScopedRun config secret (ops ++ [op]) m' (l.after made op)
  | refused {ops : List Operation} {m m' : Memory} {l : ScopeLedger} {fault : Fault}
      (op : Operation) : ScopedRun config secret ops m l → l.Permits m op →
        op.outcome m = .refused m' fault → ScopedRun config secret (ops ++ [op]) m' l

variable {config : Config} {secret : UInt64} {ops : List Operation} {m : Memory} {l : ScopeLedger}

/-- Memory agrees with the ledger all the time. -/
theorem ScopedRun.matches_ledger (h : ScopedRun config secret ops m l) : l.Matches m := by
  induction h with
  | start hlow => exact .ofConfigOn config secret hlow
  | done op _ hop hout ih =>
    have hcovers := ih.covers hop
    rwa [hout] at hcovers
  | refused op _ hop hout ih =>
    have hcovers := ih.covers hop
    rwa [hout] at hcovers

/-- In every state of a program that works with scopes and releases only what it took, counts are
those of the ledger, and what is live is what one gets to from there. No operation breaks off. Closing
the innermost scope takes exactly one reference from each object that it owns, in whatever order. And
when all scopes are closed and the program owes nothing, nothing is live, unless a scope paid for a release:
the reference that the program took lapsed, and its object stays. -/
theorem scoped_references_settle (h : ScopedRun config secret ops m l) :
    m.ownedBy = l.owns ∧
    (∀ r o, m.object? r = some o → o.symmetric = true ∧ o.count.toNat = l.all.count r) ∧
    (∀ r, m.isLive r = true ↔ m.Reached l.all r) ∧
    (∀ op, l.Permits m op → op.outcome m ≠ .broken) ∧
    (∀ own outer, l.owns = own :: outer → own.Nodup ∧ ∀ entries, entries.Perm m.innermost →
      ∃ m', (Operation.exitScope entries).outcome m = .done m' none ∧ m'.ownedBy = outer ∧
        ∀ r o', m'.object? r = some o' → ∃ o, m.object? r = some o ∧
          o.count.toNat = o'.count.toNat + own.count r) ∧
    (l.owns = [] → l.owed = 0 → ((∀ r, m.isLive r = false) ↔ l.lapsed = 0)) := by
  have hm := h.matches_ledger
  refine ⟨hm.owned, fun r o ho => ⟨hm.symmetric r o ho, hm.count_eq ho⟩, hm.isLive_iff,
    fun op hop hout => ?_, fun own outer howns => ?_, hm.forall_not_isLive_iff⟩
  · have hcovers := hm.covers hop
    rw [hout] at hcovers
    exact hcovers
  · have hown : own ∈ m.ownedBy := by simp [hm.owned, howns]
    refine ⟨hm.consistent.scopes.nodup_of_mem_ownedBy hm.housed.pool hown, fun entries hperm => ?_⟩
    obtain ⟨m', hout, hm', hback⟩ := hm.exitScope howns hperm
    refine ⟨m', hout, hm'.owned, fun r o' ho' => ?_⟩
    obtain ⟨o, ho⟩ := hback r o' ho'
    refine ⟨o, ho, ?_⟩
    rw [hm.count_eq ho, hm'.count_eq ho']
    simp only [ScopeLedger.all, howns, List.sum_cons, Multiset.count_add]
    omega

/-! ## A reference that lapses -/

/-- A scope is opened, an object is allocated in it, and another reference to it is taken. -/
theorem exists_acquired : ∃ m, ScopedRun {} 0 [.enterScope, .allocateScoped cell, .acquire 1] m
    { owns := [{1}], owed := {1} } := by
  have hblank : cell.IsBlank := ObjectSpec.isBlank_ofFlags 0 [false] false false
  have hopened := (@ScopedRun.start {} 0 _ Machine.flat_low).done .enterScope ⟨rfl, trivial, nofun⟩ rfl
  obtain ⟨m, hout, -⟩ := hopened.matches_ledger.allocateScoped hblank (by simp [ScopeLedger.after])
    (show _ = false from rfl) (show _ = some 1 from rfl)
  have hmade := hopened.done (.allocateScoped cell) ⟨rfl, hblank, nofun⟩ hout
  have hm := hmade.matches_ledger
  have hlive : m.isLive 1 = true := hm.isLive_of_mem (by simp [ScopeLedger.all, ScopeLedger.after])
  have hroom : m.CanAcquire 1 := fun o ho _ => by
    rw [hm.count_eq ho]
    decide
  exact ⟨_, hmade.done (.acquire 1) ⟨rfl, ⟨hlive, hroom⟩, nofun⟩ rfl⟩

/-- If that reference is given up after the scope is closed, nothing is left. -/
theorem scoped_references_settle_kept :
    ∃ m entries, ScopedRun {} 0
      [.enterScope, .allocateScoped cell, .acquire 1, .exitScope entries, .releaseScoped 1] m {} ∧ ∀ r, m.isLive r = false := by
  obtain ⟨m, hrun⟩ := exists_acquired
  obtain ⟨-, -, -, -, hclose, -⟩ := scoped_references_settle hrun
  obtain ⟨-, hclose⟩ := hclose {1} [] rfl
  obtain ⟨m', hout, -⟩ := hclose m.innermost (.refl _)
  have hclosed := hrun.done (.exitScope m.innermost) ⟨rfl, .refl _, nofun⟩ hout
  have hone : (1 : Ref) ∈ ({1} : Multiset Ref) := Multiset.mem_singleton_self 1
  obtain ⟨m'', hout', -⟩ := hclosed.matches_ledger.releaseScoped hone
  have hreleased := hclosed.done (.releaseScoped 1)
    ⟨rfl, .inl hone, fun r hr => Operation.releaseScoped.inj hr ▸ hone⟩ hout'
  obtain ⟨-, -, -, -, -, hnone⟩ := scoped_references_settle hreleased
  exact ⟨m'', m.innermost, hreleased, (hnone rfl rfl).2 rfl⟩

/-- If it is given up before, the object outlives the scope, and there is nobody who could give it
up. -/
theorem live_after_release_in_scope :
    ∃ m entries, ScopedRun {} 0
      [.enterScope, .allocateScoped cell, .acquire 1, .releaseScoped 1, .exitScope entries] m
      { owns := [], owed := 0, lapsed := {1} } ∧ m.isLive 1 = true := by
  obtain ⟨m, hrun⟩ := exists_acquired
  have hone : (1 : Ref) ∈ ({1} : Multiset Ref) := Multiset.mem_singleton_self 1
  obtain ⟨m', hout, -⟩ := hrun.matches_ledger.releaseScoped hone
  have hreleased := hrun.done (.releaseScoped 1)
    ⟨rfl, .inl hone, fun r hr => Operation.releaseScoped.inj hr ▸ hone⟩ hout
  have hledger : ScopeLedger.after { owns := [{1}], owed := {1} } none (.releaseScoped 1) =
      { owns := [0], owed := 0, lapsed := {1} } := rfl
  rw [hledger] at hreleased
  obtain ⟨m'', hout', -⟩ := hreleased.matches_ledger.exitScope rfl (.refl m'.innermost)
  have hclosed := hreleased.done (.exitScope m'.innermost) ⟨rfl, .refl _, nofun⟩ hout'
  exact ⟨m'', m'.innermost, hclosed, hclosed.matches_ledger.isLive_of_mem (Multiset.mem_singleton_self 1)⟩

end Reclamation
