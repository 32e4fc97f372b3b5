import Mathlib
import Reclamation.Memory.Closure
import Reclamation.Proofs.Memory.Audit
import Reclamation.Proofs.Memory.SlotAddresses

/-!
# Requests that are refused

A request that is refused leaves memory as it was, wherever a program gets and whatever it asks for
(`refusals_change_nothing`). Most requests are checked before anything is changed. Four are not, and for each there is
a reason why the late check is passed:

* A slot is looked for after the pool tried to grow. It grows by one slot at least, as long as doubling the length of
  chunks stays within a word (`SlotPool.take_of_none`).
* An object in a scope is named after it was placed. Its slot is in use and its address fits a handle
  (`Memory.Supplied.handle_fillSlot`).
* An object of an arena is placed in a chunk that may have been opened for it. That chunk holds it
  (`BumpStore.open?_eq_none_iff`).
* A slot is given back in the middle of a release. The slots of all objects are in use, and remain so while others are
  taken out (`Memory.TakesBack.remove`).

Freezing is left out: when the registry is full, the components made so far stay.
-/

set_option autoImplicit false

namespace Reclamation

/-! ## Outcomes -/

namespace Outcome

variable {α β : Type} {m : Memory} {outcome : Outcome α}

/-- A refusal leaves memory as it was. -/
def Atomic (m : Memory) (outcome : Outcome α) : Prop :=
  ∀ m' fault, outcome = .refused m' fault → m' = m

theorem Atomic.done (m m' : Memory) (a : α) : Atomic m (.done m' a) := by
  intro n fault h
  cases h

theorem Atomic.refused (m : Memory) (fault : Fault) : Atomic m (.refused m fault : Outcome α) := by
  intro n fault' h
  cases h
  rfl

theorem Atomic.broken (m : Memory) : Atomic m (.broken : Outcome α) := by
  intro n fault h
  cases h

theorem Atomic.outOfMemory (m : Memory) : Atomic m (.outOfMemory : Outcome α) := by
  intro n fault h
  cases h

/-- A release is not refused. -/
theorem Atomic.ofRelease (m : Memory) (value : Release → α) (s? : Option Release) :
    Atomic m (.ofRelease value s?) := by
  cases s? with
  | none => exact .broken m
  | some s => exact .done m s.memory (value s)

/-- What comes after an outcome and is not refused. -/
theorem Atomic.bind (h : outcome.Atomic m) {next : Memory → α → Outcome β}
    (hnext : ∀ n a, (next n a).Atomic m) : (outcome.bind next).Atomic m := by
  cases outcome with
  | done n a => exact hnext n a
  | refused n fault =>
    obtain rfl := h n fault rfl
    exact .refused n fault
  | broken => exact .broken m
  | outOfMemory => exact .outOfMemory m

/-- What comes to a value or a fault without touching memory. -/
def ofExcept (m : Memory) : Except Fault α → Outcome α
  | .ok a => .done m a
  | .error fault => .refused m fault

theorem Atomic.ofExcept (m : Memory) (value : Except Fault α) : Atomic m (.ofExcept m value) := by
  cases value with
  | ok a => exact .done m m a
  | error fault => exact .refused m fault

end Outcome

/-! ## Slots -/

namespace SlotPool

variable {p : SlotPool} {base r : Ref}

/-- Chunks have slots, and doubling their length stays within a word. -/
structure Doubles (p : SlotPool) : Prop where
  pos : 0 < p.initialSlots
  lt : p.initialSlots * 2 ^ (maxSlotChunks - 1) < UInt64.size

/-- A chunk that may be added has a slot. -/
theorem Doubles.nextChunkSlots_pos (h : p.Doubles) (hgrow : p.canGrow = true) : 0 < p.nextChunkSlots := by
  simp only [canGrow, Bool.and_eq_true, decide_eq_true_eq] at hgrow
  obtain ⟨hchunks, hcapacity⟩ := hgrow
  have hlength : p.initialSlots <<< p.chunks.size < UInt64.size := calc
    p.initialSlots <<< p.chunks.size = p.initialSlots * 2 ^ p.chunks.size := Nat.shiftLeft_eq _ _
    _ ≤ p.initialSlots * 2 ^ (maxSlotChunks - 1) :=
      Nat.mul_le_mul_left _ (Nat.pow_le_pow_right (by decide) (Nat.le_pred_of_lt hchunks))
    _ < UInt64.size := h.lt
  rw [nextChunkSlots, Nat.mod_eq_of_lt hlength, Nat.shiftLeft_eq]
  exact Nat.lt_min.2 ⟨Nat.mul_pos h.pos (Nat.two_pow_pos _), Nat.sub_pos_of_lt hcapacity⟩

/-- A pool that has no slot to give is not touched. -/
theorem take_of_none (h : p.Doubles) (ht : (p.take base).2 = none) : (p.take base).1 = p := by
  obtain ⟨hfree, hempty⟩ := (take_eq_none_iff p base).1 ht
  have hfull : ¬ p.canGrow = true := fun hgrow => Nat.ne_of_gt (h.nextChunkSlots_pos hgrow) (hempty hgrow)
  rw [take_eq_ready ht, ready, hfree, List.isEmpty_nil, if_pos rfl, grow, if_neg hfull]

theorem giveBackFault?_eq_none_iff : p.giveBackFault? r = none ↔ p.isInUse r = true := by
  unfold giveBackFault? isInUse
  cases p.slot? r with
  | none => simp
  | some x => simp

/-- A slot that cannot be given back is left alone. -/
theorem giveBack_of_fault {fault : Fault} (h : p.giveBackFault? r = some fault) : p.giveBack r = p := by
  unfold giveBack
  split
  · next generation hr =>
    rw [giveBackFault?, hr] at h
    exact absurd h (by simp)
  · rfl

end SlotPool

namespace Memory

variable {m m' n : Memory} {spec : ObjectSpec} {r : Ref}

/-- The addresses of slots fit a handle, those of a chunk that the next allocation adds included. -/
def Addressable (m : Memory) : Prop :=
  ∀ r x, (m.pool.ready (m.cells.size + 1)).slot? r = some x → m.machine.address r < Handle.addressLimit

/-- The pool can be asked for a slot. -/
structure Supplied (m : Memory) : Prop where
  sound : m.pool.Sound
  next : ∀ r ∈ List.range' (m.cells.size + 1) m.pool.nextChunkSlots, m.pool.slot? r = none
  doubles : m.pool.Doubles

/-! ## Allocation -/

theorem atomic_allocateSlot (h : m.Supplied) (spec : ObjectSpec) : (m.allocateSlot spec).Atomic m := by
  rcases m.allocateSlot_cases spec with he | ⟨fault, htake, he⟩ | ⟨r, htake, he⟩
  · rw [he]
    exact .outOfMemory m
  · rw [he, SlotPool.take_of_none h.doubles htake]
    exact .refused m fault
  · rw [he]
    exact .done m _ r

/-- An object that was placed in the pool can be named. -/
theorem Supplied.handle_fillSlot (h : m.Supplied) (haddresses : m.Addressable)
    (htake : (m.pool.take (m.cells.size + 1)).2 = some r) (spec : ObjectSpec) :
    ∃ handle, (m.fillSlot (m.pool.take (m.cells.size + 1)).1 r spec).handle r = .ok handle := by
  obtain ⟨x, hx, -, hslot⟩ := h.sound.slot?_take h.next htake
  have hr := (hslot r).trans (if_pos rfl)
  have hmachine : (m.fillSlot (m.pool.take (m.cells.size + 1)).1 r spec).pool.machine = m.machine :=
    SlotPool.machine_take ..
  exact ⟨_, SlotPool.handle_eq hr rfl (hmachine ▸ haddresses r x hx)⟩

theorem atomic_allocateScoped (h : m.Supplied) (haddresses : m.Addressable) (spec : ObjectSpec) :
    (m.allocateScoped spec).Atomic m := by
  unfold allocateScoped
  cases m.scopes with
  | nil => exact .refused m .noActiveScope
  | cons scope scopes =>
    dsimp only
    rcases m.allocateSlot_cases { spec with symmetric := true } with he | ⟨fault, htake, he⟩ | ⟨r, htake, he⟩
    · rw [he]
      exact .outOfMemory m
    · rw [he, SlotPool.take_of_none h.doubles htake]
      exact .refused m fault
    · obtain ⟨handle, hhandle⟩ := h.handle_fillSlot haddresses htake { spec with symmetric := true }
      rw [he, Outcome.bind, hhandle]
      exact .done m _ r

/-- An allocation for a registered type is as good as the one of what the layout asks for. -/
theorem atomic_of_spec {tag : TypeTag} {next : ObjectSpec → Outcome Ref} (hnext : ∀ spec, (next spec).Atomic m) :
    Outcome.Atomic m (match m.spec tag with | .error fault => .refused m fault | .ok spec => next spec) := by
  cases m.spec tag with
  | error fault => exact .refused m fault
  | ok spec => exact hnext spec

/-! ## References and scopes -/

theorem atomic_setField (m : Memory) (r : Ref) (index : Nat) (target : Option Ref) :
    (m.setField r index target).Atomic m := by
  unfold setField
  split
  · exact .refused m .objectReleasing
  · split
    · exact .refused m _
    · dsimp only
      split
      · exact .done m _ ()
      · split
        · exact .done m _ ()
        · exact .ofRelease m _ _

theorem atomic_freeTree (m : Memory) (r : Ref) : (m.freeTree r).Atomic m := by
  unfold freeTree
  split
  · exact .refused m .objectReleasing
  · split
    · exact .done m m 0
    · split
      · exact .ofRelease m _ _
      · exact .ofRelease m _ _

theorem atomic_acquireComponent (m : Memory) (r : Ref) : (m.acquireComponent r).Atomic m := by
  unfold acquireComponent
  split
  · exact .refused m .notInComponent
  · exact .done m _ ()

theorem atomic_exitScopeIn (m : Memory) (entries : Scope) : (m.exitScopeIn entries).Atomic m := by
  unfold exitScopeIn
  split
  · exact .refused m .noActiveScope
  · exact .ofRelease m _ _

/-- Decrements that wait are not refused, whatever memory they wait in. -/
theorem atomic_applyDeferred (m n : Memory) (k : Nat) : (n.applyDeferred k).Atomic m := by
  unfold applyDeferred
  dsimp only
  split
  · exact .done m n 0
  · exact .ofRelease m _ _

theorem atomic_defer (m : Memory) (r : Ref) : (m.defer r).Atomic m := by
  unfold defer
  dsimp only
  split
  · exact atomic_applyDeferred m _ _
  · exact .done m _ 0

/-! ## Arenas -/

theorem atomic_allocateFields (m : Memory) (id : ArenaId) (tag : TypeTag) (weak : List Bool) :
    (m.allocateFields id tag weak).Atomic m := by
  unfold allocateFields
  split
  · exact .refused m .objectReleasing
  · split
    · exact .refused m _
    · split
      · exact .outOfMemory m
      · exact .done m _ _

theorem atomic_allocateInArena (m : Memory) (id : ArenaId) (tag : TypeTag) : (m.allocateInArena id tag).Atomic m := by
  unfold allocateInArena
  split
  · exact .refused m _
  · exact atomic_allocateFields m id tag _

theorem atomic_registerExternal (m : Memory) (id : ArenaId) (r : Ref) : (m.registerExternal id r).Atomic m := by
  unfold registerExternal
  split
  · exact .refused m .crossArenaReference
  · split
    · exact .done m _ ()
    · exact .refused m .crossArenaReference

theorem atomic_destroyArena (m : Memory) (id : ArenaId) : (m.destroyArena id).Atomic m := by
  unfold destroyArena
  split
  · exact .done m m 0
  · split
    · exact .refused m _
    · split
      · exact .done m m 0
      · exact .done m _ _

/-- An arena without external references is destroyed. -/
theorem atomic_destroyArena_of_resolved {id : ArenaId} {a : Arena} (ha : n.arenas[id]? = some a)
    (hresolved : ¬ 0 < a.outstanding) (m : Memory) : (n.destroyArena id).Atomic m := by
  rw [destroyArena, ha]
  dsimp only
  rw [if_neg hresolved]
  split
  · exact .done m n 0
  · exact .done m _ _

theorem atomic_destroyArenaWhenResolved (m : Memory) (id : ArenaId) : (m.destroyArenaWhenResolved id).Atomic m := by
  unfold destroyArenaWhenResolved
  split
  · exact .done m m _
  · split
    · exact .done m _ _
    · exact (atomic_destroyArena m id).bind fun n chunks => .done m n _

/-- The last external reference is taken off before the arena is destroyed, which is not refused then. -/
theorem atomic_resolveExternal (m : Memory) (id : ArenaId) (r : Ref) : (m.resolveExternal id r).Atomic m := by
  unfold resolveExternal
  split
  · exact .refused m .unknownExternal
  · next a ha =>
    split
    · exact .refused m .unknownExternal
    · next externals _ =>
      dsimp only
      split
      · next hlast =>
        obtain ⟨hlt, -⟩ := Array.getElem?_eq_some_iff.1 ha
        -- what destroying it would be refused for was just looked up
        have hresolved : ¬ 0 < ({ a with externals } : Arena).outstanding := by
          simp only [Bool.and_eq_true, decide_eq_true_eq] at hlast
          exact Nat.not_lt.2 (Nat.le_of_eq hlast.2)
        have hafter : (m.setArena id { a with externals }).arenas[id]? =
            some { a with externals } :=
          Array.getElem?_setIfInBounds_self_of_lt hlt
        exact (atomic_destroyArena_of_resolved hafter hresolved m).bind fun n _ => .done m n true
      · exact .done m _ false

/-! ## Taking objects out -/

theorem origin_clearReferrers (m : Memory) (r x : Ref) :
    ((m.clearReferrers r).object? x).map (·.origin) = (m.object? x).map (·.origin) := by
  unfold clearReferrers
  dsimp only
  generalize m.referrers.getD r [] = fields
  refine List.foldlRecOn fields _ (motive := fun n : Memory =>
    (n.object? x).map (·.origin) = (m.object? x).map (·.origin)) rfl fun n hn field _ => ?_
  exact (origin_setTarget n field.1 x field.2 none).trans hn

/-- What is left after an object is taken out, whatever memory it is taken out of. -/
theorem origin_remove (m : Memory) (r x : Ref) :
    ((m.remove r).object? x).map (·.origin) = if x = r then none else (m.object? x).map (·.origin) := by
  cases ho : m.object? r with
  | none =>
    rw [remove_of_not_isLive (by rw [isLive, ho]; rfl)]
    split
    · next e => rw [e, ho, Option.map_none]
    · rfl
  | some o =>
    obtain ⟨referrers, stats, he, -⟩ := remove_eq ho
    rw [he, ← origin_clearReferrers m r x, object?, Array.getElem?_setIfInBounds]
    split
    · next e =>
      rw [if_pos e.symm]
      split <;> rfl
    · next hne =>
      rw [if_neg (Ne.symm hne)]
      rfl

/-- The pool takes back the slot of every object that there is. -/
def TakesBack (m : Memory) : Prop :=
  ∀ r o, m.object? r = some o → o.origin = .slot → m.pool.giveBackFault? r = none

namespace TakesBack

/-- Objects of the same origins are in the same cells. -/
theorem of_origins (h : m.TakesBack) (hpool : m'.pool = m.pool)
    (horigin : ∀ r, (m'.object? r).map (·.origin) = (m.object? r).map (·.origin)) : m'.TakesBack := by
  intro r o' ho' hslot
  have hr := horigin r
  rw [ho', Option.map_some] at hr
  obtain ⟨o, ho, he⟩ := Option.map_eq_some_iff.1 hr.symm
  rw [hpool]
  exact h r o ho (he.trans hslot)

theorem setTarget (h : m.TakesBack) (r : Ref) (index : Nat) (target : Option Ref) :
    (m.update r (·.setTarget index target)).TakesBack :=
  h.of_origins rfl fun x => origin_setTarget m r x index target

theorem of_recounted (h : m.TakesBack) (hm : Recounted m m') : m'.TakesBack :=
  h.of_origins hm.pool hm.origin

theorem markFrozen (h : m.TakesBack) (id : ComponentId) (members : List Ref) : (m.markFrozen members id).TakesBack :=
  h.of_origins (by rw [markFrozen_eq]) fun x => origin_markFrozen id x members m

/-- Only the slot of the object that is taken out is given back. -/
theorem remove (h : m.TakesBack) (r : Ref) : (m.remove r).TakesBack := by
  cases ho : m.object? r with
  | none => rwa [Memory.remove, ho]
  | some o =>
    intro x o' ho' hslot
    -- what is still there lies in another cell, and giving a slot back leaves all others alone
    have hx := origin_remove m r x
    rw [ho', Option.map_some] at hx
    split at hx
    · exact absurd hx (by simp)
    · next hne =>
      obtain ⟨old, hold, he⟩ := Option.map_eq_some_iff.1 hx.symm
      have huse : m.pool.isInUse x = true :=
        SlotPool.giveBackFault?_eq_none_iff.1 (h x old hold (he.trans hslot))
      rw [SlotPool.giveBackFault?_eq_none_iff, pool_remove ho]
      split
      · rwa [SlotPool.isInUse, SlotPool.slot?_giveBack, if_neg fun e => hne e.1]
      · exact huse

theorem lasting : Lasting TakesBack where
  remove r h := h.remove r
  recount hm h := h.of_recounted hm
  count _ _ h := h

end TakesBack

end Memory

namespace Release

open Memory

variable {s t : Release}

theorem Step.takesBack (hs : s.memory.TakesBack) (h : Step s t) : t.memory.TakesBack :=
  TakesBack.lasting.step h hs

theorem Steps.takesBack (hs : s.memory.TakesBack) (h : Steps s t) : t.memory.TakesBack :=
  TakesBack.lasting.steps h hs

end Release

namespace Memory

variable {m m' : Memory}

theorem Change.takesBack (h : Change m m') (hm : m.TakesBack) : m'.TakesBack := by
  cases h with
  | recount hrecounted _ => exact hm.of_recounted hrecounted
  | rearrange _ types scopes applied => exact hm
  | @search _ base htake =>
    intro r o ho hslot
    have huse := SlotPool.giveBackFault?_eq_none_iff.1 (hm r o ho hslot)
    rw [SlotPool.giveBackFault?_eq_none_iff, SlotPool.isInUse, SlotPool.slot?_take_none htake]
    exact huse
  | @freeze s members components id hreg =>
    have hregistered : ({ s.memory with components } : Memory).TakesBack := hm
    exact hregistered.markFrozen id members
  | step hbalanced hstep => exact hstep.takesBack hm

theorem Changes.takesBack (h : Changes m m') (hm : m.TakesBack) : m'.TakesBack :=
  h.keeps Change.takesBack hm

end Memory

namespace Operation

open Memory

variable {m : Memory} {s : Release}

/-- Starting a release takes nothing out. -/
theorem takesBack_release? (hm : m.TakesBack) {op : Operation} (hs : op.release? m = some s) : s.memory.TakesBack := by
  obtain ⟨deferred, hchanges, -⟩ := changes_release? hs
  refine hchanges.takesBack ?_
  rcases written_cases m op with he | ⟨r, index, target, referrers, he⟩
  · rw [he]
    exact hm
  · rw [he]
    exact hm.setTarget r index target

end Operation

/-! ## Commands and requests -/

open Memory in
theorem Command.atomic {m : Memory} (h : m.Supplied) (haddresses : m.Addressable) {c : Command}
    (hfreeze : ∀ r, c ≠ .operation (.freeze r)) : (c.outcome m).Atomic m := by
  have hdone : ∀ {α : Type} {outcome : Outcome α} (made : α → Option Ref), outcome.Atomic m →
      (outcome.bind fun n a => .done n (made a)).Atomic m :=
    fun made hatomic => hatomic.bind fun n a => .done m n (made a)
  cases c with
  | operation op =>
    cases op with
    | registerType tag layout => exact .done m _ none
    | allocate spec => exact .done m _ _
    | allocateType tag shared => exact hdone some (atomic_of_spec fun spec => .done m _ _)
    | allocateSlot spec => exact hdone some (atomic_allocateSlot h spec)
    | allocateSlotType tag shared => exact hdone some (atomic_of_spec fun spec => atomic_allocateSlot h _)
    | acquire r => exact .done m _ none
    | release r => exact hdone _ (.ofRelease m _ _)
    | defer r => exact hdone _ (atomic_defer m r)
    | safePoint => exact hdone _ (atomic_applyDeferred m m _)
    | drain => exact hdone _ (atomic_applyDeferred m m _)
    | setField r index target => exact hdone _ (atomic_setField m r index target)
    | freeze r => exact absurd rfl (hfreeze r)
    | acquireComponent r => exact hdone _ (atomic_acquireComponent m r)
    | freeTree r => exact hdone _ (atomic_freeTree m r)
    | enterScope => exact .done m _ none
    | exitScope entries => exact hdone _ (atomic_exitScopeIn m entries)
    | allocateScoped spec => exact hdone some (atomic_allocateScoped h haddresses spec)
    | allocateScopedType tag shared =>
      exact hdone some (atomic_of_spec fun spec => atomic_allocateScoped h haddresses _)
    | releaseScoped r => exact hdone _ (.ofRelease m _ _)
  | newArena => exact .done m _ none
  | allocateFields id tag weak => exact hdone some (atomic_allocateFields m id tag weak)
  | allocateInArena id tag => exact hdone some (atomic_allocateInArena m id tag)
  | registerExternal id r => exact hdone _ (atomic_registerExternal m id r)
  | resolveExternal id r => exact hdone _ (atomic_resolveExternal m id r)
  | destroyArena id => exact hdone _ (atomic_destroyArena m id)
  | destroyArenaWhenResolved id => exact hdone _ (atomic_destroyArenaWhenResolved m id)
  | abandonArena id => exact .done m _ none

/-- What memory can be asked for: what a program asks of it, and what is asked of the pool and of closures. -/
inductive Request where
  | command (c : Command)
  | giveBack (r : Ref)
  | handle (r : Ref)
  | capture (values : List Ref)
  | call (c : Closure)

namespace Request

/-- What a request comes to; what it returns is left out. -/
def outcome (m : Memory) : Request → Outcome Unit
  | command c => (c.outcome m).bind fun m _ => .done m ()
  | giveBack r =>
    match m.pool.giveBackFault? r with
    | some fault => .refused { m with pool := m.pool.giveBack r } fault
    | none => .done { m with pool := m.pool.giveBack r } ()
  | handle r => (Outcome.ofExcept m (m.handle r)).bind fun m _ => .done m ()
  | capture values => (Outcome.ofExcept m (m.capture values)).bind fun m _ => .done m ()
  | call c => (Outcome.ofExcept m (m.call c)).bind fun m _ => .done m ()

theorem atomic {m : Memory} (h : m.Supplied) (haddresses : m.Addressable) {q : Request}
    (hfreeze : ∀ r, q ≠ .command (.operation (.freeze r))) : (q.outcome m).Atomic m := by
  cases q with
  | command c =>
    have hc : ∀ r, c ≠ .operation (.freeze r) := fun r e => hfreeze r (congrArg command e)
    exact (Command.atomic h haddresses hc).bind fun n _ => .done m n ()
  | giveBack r =>
    rw [outcome]
    cases hfault : m.pool.giveBackFault? r with
    | none => exact .done m _ ()
    | some fault =>
      dsimp only
      rw [SlotPool.giveBack_of_fault hfault]
      exact .refused m fault
  | handle r => exact (Outcome.Atomic.ofExcept m _).bind fun n _ => .done m n ()
  | capture values => exact (Outcome.Atomic.ofExcept m _).bind fun n _ => .done m n ()
  | call c => exact (Outcome.Atomic.ofExcept m _).bind fun n _ => .done m n ()

end Request

/-! ## Wherever a program gets -/

namespace Attained

open Memory

variable {config : Config} {secret : UInt64} {m : Memory} {held : Multiset Ref}

/-- The length of the first chunk stays what it was configured to be. -/
theorem initialSlots_change {k : Nat} {n n' : Memory} (h : Change n n') (hn : n.pool.initialSlots = k) :
    n'.pool.initialSlots = k := by
  cases h with
  | recount hrecounted _ => rwa [hrecounted.pool]
  | rearrange _ types scopes applied => exact hn
  | search _ _ => exact (SlotPool.initialSlots_take _ _).trans hn
  | @freeze s members components id hreg =>
    unfold Release.frozen
    rwa [markFrozen_eq]
  | step _ hstep =>
    refine hstep.pool_of (P := fun p => p.initialSlots = k) (fun p r hp => ?_) hn
    rwa [SlotPool.initialSlots_giveBack]

theorem initialSlots_advance {k : Nat} {n n' : Memory} {c : Command} (h : c.Advance n n')
    (hn : n.pool.initialSlots = k) : n'.pool.initialSlots = k := by
  cases h with
  | changed deferred hchanges =>
    have hwritten : ({ c.written n with deferred } : Memory).pool.initialSlots = k := by
      rcases Command.written_cases n c with he | ⟨r, index, target, referrers, he⟩
      · rwa [he]
      · rwa [he]
    exact hchanges.keeps initialSlots_change hwritten
  | placed _ hplaced => exact hplaced.initialSlots.trans hn
  | beside _ hbeside => rwa [hbeside.pool]

theorem supplied (h : Attained config secret m held)
    (hdoubling : config.pool.initialSlots * 2 ^ (maxSlotChunks - 1) < UInt64.size) : m.Supplied := by
  obtain ⟨n, regions, lost, rfl, hdivided, hinitial⟩ := h.induction
    (P := fun n => n.pool.initialSlots = max config.pool.initialSlots 1) (fun _ => rfl) fun _ _ => initialSlots_advance
  have hhoused := hdivided.consistent.tidy.housed
  refine ⟨hhoused.pool, ?_, ?_, ?_⟩
  · rw [size_joined]
    exact hhoused.slot?_next
  · show 0 < n.pool.initialSlots
    rw [hinitial]
    exact Nat.le_max_right _ _
  · show n.pool.initialSlots * 2 ^ (maxSlotChunks - 1) < UInt64.size
    rw [hinitial]
    rcases max_choice config.pool.initialSlots 1 with he | he
    · rwa [he]
    · rw [he]
      decide

theorem takesBack (h : Attained config secret m held) : m.TakesBack := by
  obtain ⟨n, regions, lost, rfl, hdivided⟩ := h.divided
  intro r o ho hslot
  have harena : o.arena? = none := by rw [Object.arena?, hslot]
  rw [SlotPool.giveBackFault?_eq_none_iff]
  exact (hdivided.consistent.tidy.housed.inUse_iff r).2 ⟨o, object?_of_outside hdivided.apart ho harena, hslot⟩

end Attained

/-- Wherever a program gets, whatever is asked for but freezing leaves memory as it was if it is refused, provided that
slots have addresses that fit a handle and that doubling the length of chunks stays within a word. And no release is
broken off by the pool: of whatever group of objects it takes out, in whatever order, each has a slot that is taken
back. -/
theorem refusals_change_nothing {config : Config} {secret : UInt64} {m : Memory} {held : Multiset Ref}
    (h : Attained config secret m held)
    (hdoubling : config.pool.initialSlots * 2 ^ (maxSlotChunks - 1) < UInt64.size) (haddresses : m.Addressable) :
    (∀ q : Request, (∀ r, q ≠ .command (.operation (.freeze r))) →
      ∀ m' fault, q.outcome m = .refused m' fault → m' = m) ∧
    ∀ (op : Operation) (s t : Release), op.release? m = some s → Release.Steps s t →
      ∀ group : List Ref, (group.foldl Memory.remove t.memory).TakesBack := by
  refine ⟨fun q hfreeze => Request.atomic (h.supplied hdoubling) haddresses hfreeze, fun op s t hs hsteps group => ?_⟩
  have hstarted : s.memory.TakesBack := Operation.takesBack_release? h.takesBack hs
  exact Memory.TakesBack.lasting.removeAll (hsteps.takesBack hstarted) group

/-- A pool of one slot, and an object in it. -/
def Memory.occupied : Memory :=
  ((Memory.ofConfig { pool := { initialSlots := 1, maxSlots := 1 } } 0).allocateSlot cell).memory?.getD
    (.ofConfig {} 0)

theorem attained_occupied : Attained { pool := { initialSlots := 1, maxSlots := 1 } } 0 .occupied {1} := by
  have hblank : cell.IsBlank := ObjectSpec.isBlank_ofFlags 0 [false] false false
  exact (@Attained.start { pool := { initialSlots := 1, maxSlots := 1 } } 0 .flat).done (.operation (.allocateSlot cell))
    (.inr hblank) rfl

theorem machine_occupied : Memory.occupied.machine = .flat :=
  SlotPool.machine_take (.ofLimits { initialSlots := 1, maxSlots := 1 }) 1

theorem addressable_occupied : Memory.occupied.Addressable := by
  intro r x hx
  have hlimit : (Memory.occupied.pool.ready (Memory.occupied.cells.size + 1)).limit = 2 := by decide +kernel
  have hr : r < 2 := hlimit ▸ SlotPool.lt_limit hx
  have haddress : r.address ≤ Ref.origin + 2 * Ref.cellSize :=
    Nat.add_le_add_left (Nat.mul_le_mul_right _ (Nat.le_of_lt hr)) _
  rw [machine_occupied]
  exact Nat.lt_of_le_of_lt haddress (by decide)

theorem refusals_change_nothing_occupied :
    (∃ fault, (Request.command (.operation (.allocateSlot cell))).outcome .occupied = .refused .occupied fault) ∧
    ∃ s, (Operation.release 1).release? .occupied = some s ∧ s.memory.TakesBack := by
  obtain ⟨hwhole, hreleases⟩ := refusals_change_nothing attained_occupied (by decide) addressable_occupied
  have hgrants : ¬ Memory.occupied.pool.exceedsMemory (Memory.occupied.cells.size + 1) = true := by decide +kernel
  have hnone : (Memory.occupied.pool.take (Memory.occupied.cells.size + 1)).2 = none := by decide +kernel
  have hrefused : (Request.command (.operation (.allocateSlot cell))).outcome .occupied = .refused
      { Memory.occupied with pool := (Memory.occupied.pool.take (Memory.occupied.cells.size + 1)).1 }
      (.poolExhausted (Memory.occupied.pool.take (Memory.occupied.cells.size + 1)).1.maxSlots) := by
    rw [Request.outcome, Command.outcome, Operation.outcome, Memory.allocateSlot_eq, if_neg hgrants, hnone]
    rfl
  have hsame := hwhole (.command (.operation (.allocateSlot cell))) (fun _ => by simp) _ _ hrefused
  have hsome : ((Operation.release 1).release? .occupied).isSome = true := by decide +kernel
  obtain ⟨s, hs⟩ := Option.isSome_iff_exists.1 hsome
  exact ⟨⟨_, hsame ▸ hrefused⟩, s, hs, hreleases (.release 1) s s hs .refl []⟩

end Reclamation
