import Mathlib
import Reclamation.Memory.Freeze
import Reclamation.Memory.Scopes
import Reclamation.Proofs.Memory.Consistency

/-!
# Running operations

A program that uses the runtime is read as a sequence of operations. Next to memory stands what the
program holds: one reference for each allocation outside scopes and for each one that it took, less
those that it gave up. An operation is `Allowed` if what it is given is live, the references that it
gives up are the program's, a tree that it frees is referred to by the program only, and the counts
that it raises stay below the width of their words.

An allowed operation is `Sound`: it never breaks off, whatever becomes of it leaves all references
accounted for, and the release that it starts takes out only what is there. There is one lemma for each
operation; `Operation.sound` puts them together.
-/

set_option autoImplicit false

namespace Reclamation

/-! ## Operations -/

/-- What a program can ask of the runtime, outside arenas. -/
inductive Operation where
  | registerType (tag : TypeTag) (layout : TypeLayout)
  | allocate (spec : ObjectSpec)
  | allocateType (tag : TypeTag) (shared : Bool)
  | allocateSlot (spec : ObjectSpec)
  | allocateSlotType (tag : TypeTag) (shared : Bool)
  | acquire (r : Ref)
  | release (r : Ref)
  | defer (r : Ref)
  | safePoint
  | drain
  | setField (r : Ref) (index : Nat) (target : Option Ref)
  | freeze (r : Ref)
  | acquireComponent (r : Ref)
  | freeTree (r : Ref)
  | enterScope
  | exitScope (entries : Scope)
  | allocateScoped (spec : ObjectSpec)
  | allocateScopedType (tag : TypeTag) (shared : Bool)
  | releaseScoped (r : Ref)

/-- The memory that an operation leaves. -/
def Outcome.memory? {α : Type} : Outcome α → Option Memory
  | .done m _ | .refused m _ => some m
  | .broken | .outOfMemory => none

namespace Memory

/-- Whether an object is counted by itself and counts all references alike. -/
def isPlain (m : Memory) (r : Ref) : Bool :=
  (m.object? r).any fun o => !o.symmetric && o.component.isNone

theorem isPlain_iff {m : Memory} {r : Ref} : m.isPlain r = true ↔
    ∃ o, m.object? r = some o ∧ o.symmetric = false ∧ o.component = none := by
  simp [isPlain, Option.any_eq_true]

end Memory

namespace Operation

/-- What an operation comes to, and the object that it allocates. -/
def outcome (m : Memory) : Operation → Outcome (Option Ref)
  | registerType tag layout => .done (m.registerType tag layout) none
  | allocate spec => .done (m.allocate spec).1 (some (m.allocate spec).2)
  | allocateType tag shared => (m.allocateType tag shared).bind fun m r => .done m (some r)
  | allocateSlot spec => (m.allocateSlot spec).bind fun m r => .done m (some r)
  | allocateSlotType tag shared => (m.allocateSlotType tag shared).bind fun m r => .done m (some r)
  | acquire r => .done (m.acquire r) none
  | release r => (m.release r).bind fun m _ => .done m none
  | defer r => (m.defer r).bind fun m _ => .done m none
  | safePoint => m.safePoint.bind fun m _ => .done m none
  | drain => m.drain.bind fun m _ => .done m none
  | setField r index target => (m.setField r index target).bind fun m _ => .done m none
  | freeze r => (m.freeze r).bind fun m _ => .done m none
  | acquireComponent r => (m.acquireComponent r).bind fun m _ => .done m none
  | freeTree r => (m.freeTree r).bind fun m _ => .done m none
  | enterScope => .done m.enterScope none
  | exitScope entries => (m.exitScopeIn entries).bind fun m _ => .done m none
  | allocateScoped spec => (m.allocateScoped spec).bind fun m r => .done m (some r)
  | allocateScopedType tag shared =>
    (m.allocateScopedType tag shared).bind fun m r => .done m (some r)
  | releaseScoped r => (m.releaseScoped r).bind fun m _ => .done m none

/-- What the program holds after an operation that was carried out. It has a reference to each object
that it allocates, unless a scope has it, and none to a tree that it freed. -/
def heldAfter (m : Memory) (held : Multiset Ref) (made : Option Ref) : Operation → Multiset Ref
  | allocate _ | allocateType _ _ | allocateSlot _ | allocateSlotType _ _ =>
    made.elim held (· ::ₘ held)
  | acquire r | acquireComponent r => r ::ₘ held
  | release r | defer r => held.erase r
  | freeTree r => if m.isPlain r then held.filter (· ≠ r) else held.erase r
  | releaseScoped r => if r ∈ m.scopeRefs then held else held.erase r
  | registerType _ _ | safePoint | drain | setField _ _ _ | freeze _ | enterScope | exitScope _
  | allocateScoped _ | allocateScopedType _ _ => held

/-- The preconditions of an operation. Components have ids that fit a word in every registry of a
capacity that the check of the configuration lets pass, and the entries of a scope come out in any
order. -/
def Allowed (m : Memory) (held : Multiset Ref) : Operation → Prop
  | allocate spec | allocateSlot spec | allocateScoped spec => spec.IsBlank
  | acquire r => m.isLive r = true ∧ m.CanAcquire r
  | acquireComponent r => m.isLive r = true
  | release r | defer r => r ∈ held
  | setField r index target => m.isLive r = true ∧ ∀ t, target = some t → m.isLive t = true ∧
      ∀ o f, m.object? r = some o → o.frozen = false → o.fields[index]? = some f → f.weak = false →
        m.CanRefer t
  | freeze r => m.isLive r = true ∧
      (∀ g ∈ m.cyclesFrom r, m.totalCount g - m.innerReferences g < UInt32.size) ∧
      (m.config.componentCapacity < UInt32.size ∨
        m.components.entries.size + (m.cyclesFrom r).length < UInt32.size)
  | freeTree r => r ∈ held ∧ (m.isPlain r = true → r ∉ m.deferred ∧ r ∉ m.references)
  | exitScope entries => entries.Perm m.innermost
  | releaseScoped r => r ∈ held ∨ r ∈ m.scopeRefs
  | registerType _ _ | allocateType _ _ | allocateSlotType _ _ | safePoint | drain | enterScope
  | allocateScopedType _ _ => True

/-! ## The release that an operation starts -/

/-- The first decrements that wait are applied. -/
def batch? (m : Memory) (n : Nat) : Option Release :=
  if (m.deferred.take n).isEmpty then none
  else (m.deferred.take n).foldlM Release.dropRef { memory := { m with deferred := m.deferred.drop n } }

/-- The release that an operation starts, before anything is taken out. -/
def release? (m : Memory) : Operation → Option Release
  | release r => ({ memory := m } : Release).dropRef r
  | defer r =>
    let m := { m with deferred := m.deferred ++ [r] }
    if m.queueLimit ≤ m.deferred.length then batch? m m.batchSize else none
  | safePoint => batch? m m.batchSize
  | drain => batch? m m.deferred.length
  | setField r index target =>
    match m.object? r with
    | none => none
    | some o =>
      if (m.fieldFault? o index target).isSome || o.fields[index]?.any (·.weak) then none
      else m.strongRelease r index (o.target? index) target
  | freeze r => some (Release.freezeAll (m.cyclesFrom r) { memory := m }).1
  | freeTree r =>
    if m.isPlain r then some { memory := m, work := [.object r] }
    else ({ memory := m } : Release).dropRef r
  | exitScope entries =>
    match m.scopes with
    | [] => none
    | _ :: scopes => (m.owned entries).foldlM Release.dropRef { memory := { m with scopes } }
  | releaseScoped r =>
    ({ memory := { m with scopes := m.disown r m.scopes } } : Release).dropRef r
  | registerType _ _ | allocate _ | allocateType _ _ | allocateSlot _ | allocateSlotType _ _
  | acquire _ | acquireComponent _ | enterScope | allocateScoped _ | allocateScopedType _ _ => none

/-- Whatever an operation comes to, it has not broken off and all references are accounted for. -/
def Accounted (held : Multiset Ref) (after : Option Ref → Multiset Ref) :
    Outcome (Option Ref) → Prop
  | .done m made => ∃ lost, m.Consistent (after made) lost
  | .refused m _ => ∃ lost, m.Consistent held lost
  | .broken => False
  | .outOfMemory => True

/-- An operation takes out objects only in the release that it starts, and there only what is
there. -/
structure Safe (op : Operation) (m : Memory) : Prop where
  clean : ∀ s, op.release? m = some s → ∀ t, Release.Steps s t → t.Clean
  ends : ∀ s, op.release? m = some s → ∃ t stats, s.run = some t ∧
    (op.outcome m).memory? = some { t.memory with stats }
  keeps : op.release? m = none → ∀ m', (op.outcome m).memory? = some m' →
    ∀ x, m.isLive x = true → m'.isLive x = true

/-- What an operation does if its preconditions are met. -/
structure Sound (op : Operation) (m : Memory) (held : Multiset Ref) : Prop where
  accounted : Accounted held (op.heldAfter m held) (op.outcome m)
  safe : op.Safe m
  completes : ∀ s, op.release? m = some s → ∃ lost, s.Completes (op.heldAfter m held none) lost

namespace Sound

variable {op op' : Operation} {m m' : Memory} {held held' lost : Multiset Ref} {made : Option Ref}
  {fault : Fault} {s : Release}

/-! ## Ways to be sound -/

/-- An operation that starts no release. -/
theorem of_keeps (hrel : op.release? m = none)
    (hout : Accounted held (op.heldAfter m held) (op.outcome m))
    (hlive : ∀ m', (op.outcome m).memory? = some m' → ∀ x, m.isLive x = true → m'.isLive x = true) :
    op.Sound m held := by
  refine ⟨hout, ⟨fun s hs => ?_, fun s hs => ?_, fun _ => hlive⟩, fun s hs => ?_⟩ <;>
    · rw [hrel] at hs
      exact absurd hs (by simp)

theorem of_done (hrel : op.release? m = none) (hout : op.outcome m = .done m' made)
    (hm : m'.Consistent (op.heldAfter m held made) lost)
    (hlive : ∀ x, m.isLive x = true → m'.isLive x = true) : op.Sound m held := by
  refine of_keeps hrel (by rw [hout]; exact ⟨lost, hm⟩) fun m'' h => ?_
  rw [hout] at h
  exact Option.some.inj h ▸ hlive

theorem of_refused (hrel : op.release? m = none) (hout : op.outcome m = .refused m' fault)
    (hm : m'.Consistent held lost) (hlive : ∀ x, m.isLive x = true → m'.isLive x = true) :
    op.Sound m held := by
  refine of_keeps hrel (by rw [hout]; exact ⟨lost, hm⟩) fun m'' h => ?_
  rw [hout] at h
  exact Option.some.inj h ▸ hlive

theorem of_outOfMemory (hrel : op.release? m = none) (hout : op.outcome m = .outOfMemory) :
    op.Sound m held := by
  refine of_keeps hrel (by rw [hout]; trivial) fun m' h => ?_
  rw [hout] at h
  exact absurd h (by simp [Outcome.memory?])

/-- An operation that starts a release and leaves what that leaves, up to what was counted. -/
theorem of_release (hrel : op.release? m = some s) (hs : s.Completes (op.heldAfter m held none) lost)
    (hout : ∀ t, s.run = some t → ∃ stats : Statistics,
      op.outcome m = .done { t.memory with stats } none ∨
      (∃ fault, op.outcome m = .refused { t.memory with stats } fault ∧
        op.heldAfter m held none = held)) : op.Sound m held := by
  obtain ⟨t, -, hrun, hm, -⟩ := hs.ends
  obtain ⟨stats, hcases⟩ := hout t hrun
  have hm' : ({ t.memory with stats } : Memory).Consistent (op.heldAfter m held none) lost :=
    hm.of_stats _ stats
  have hmemory : (op.outcome m).memory? = some { t.memory with stats } := by
    rcases hcases with he | ⟨fault, he, -⟩ <;> rw [he] <;> rfl
  refine ⟨?_, ⟨fun s' hs' => ?_, fun s' hs' => ?_, fun hnone => ?_⟩, fun s' hs' => ?_⟩
  · rcases hcases with he | ⟨fault, he, hheld⟩
    · rw [he]
      exact ⟨lost, hm'⟩
    · rw [he]
      exact ⟨lost, by rwa [hheld] at hm'⟩
  · obtain rfl := Option.some.inj (hrel.symm.trans hs')
    exact fun _ => hs.clean
  · obtain rfl := Option.some.inj (hrel.symm.trans hs')
    exact ⟨t, stats, hrun, hmemory⟩
  · rw [hrel] at hnone
    exact absurd hnone (by simp)
  · obtain rfl := Option.some.inj (hrel.symm.trans hs')
    exact ⟨lost, hs⟩

/-- An operation that comes to the same as another one. -/
theorem congr (h : op'.Sound m held) (hout : op.outcome m = op'.outcome m)
    (hrel : op.release? m = op'.release? m)
    (hheld : ∀ made, op.heldAfter m held made = op'.heldAfter m held made) : op.Sound m held := by
  have hafter : op.heldAfter m held = op'.heldAfter m held := funext hheld
  refine ⟨?_, ⟨fun s hs => h.safe.clean s (hrel ▸ hs), fun s hs => ?_, fun hnone => ?_⟩, fun s hs => ?_⟩
  · rw [hafter, hout]
    exact h.accounted
  · rw [hout]
    exact h.safe.ends s (hrel ▸ hs)
  · rw [hout]
    exact h.safe.keeps (hrel ▸ hnone)
  · rw [hheld]
    exact h.completes s (hrel ▸ hs)

end Sound

/-! ## Every operation is sound -/

variable {m : Memory} {held lost : Multiset Ref} {r : Ref} {spec : ObjectSpec}

theorem sound_allocate (h : m.Consistent held lost) (hspec : spec.IsBlank) :
    (allocate spec).Sound m held := by
  refine .of_done rfl rfl (h.allocate hspec) fun x hx => ?_
  exact (Memory.Born.allocate m hspec).isLive hx

theorem sound_allocateSlot (h : m.Consistent held lost) (hspec : spec.IsBlank) :
    (allocateSlot spec).Sound m held := by
  rcases m.allocateSlot_cases spec with hout | ⟨fault, htake, hout⟩ | ⟨r, htake, hout⟩
  · exact .of_outOfMemory rfl (by rw [outcome, hout]; rfl)
  · exact .of_refused rfl (by rw [outcome, hout]; rfl) (h.exhausted htake) fun x hx => hx
  · obtain ⟨o, -, -, hborn⟩ := Memory.Born.fillSlot h.tidy.housed hspec htake
    exact .of_done rfl (by rw [outcome, hout]; rfl) (h.fillSlot hspec htake) fun x hx => hborn.isLive hx

theorem sound_acquire (h : m.Consistent held lost) (hr : m.isLive r = true)
    (hroom : m.CanAcquire r) : (acquire r).Sound m held := by
  refine .of_done rfl rfl (h.acquire hr hroom) fun x hx => ?_
  rw [(Memory.recounted_acquire m r).isLive]
  exact hx

theorem sound_acquireComponent (h : m.Consistent held lost) (hr : m.isLive r = true) :
    (acquireComponent r).Sound m held := by
  obtain ⟨o, ho⟩ := Memory.isLive_iff.1 hr
  have hcounting := h.balanced.countingComponent?_eq ho
  have hout : (acquireComponent r).outcome m = (m.acquireComponent r).bind fun m _ => .done m none :=
    rfl
  rw [Memory.acquireComponent, ho, Option.bind_some, hcounting] at hout
  cases hcomp : o.component with
  | none =>
    rw [hcomp] at hout
    exact .of_refused rfl hout h fun x hx => hx
  | some id =>
    rw [hcomp] at hout
    refine .of_done rfl hout (h.acquire hr fun o' ho' hnone => ?_) fun x hx => ?_
    · obtain rfl := Option.some.inj (ho.symm.trans ho')
      rw [hcomp] at hnone
      exact absurd hnone (by simp)
    · rw [(Memory.recounted_acquire m r).isLive]
      exact hx

/-! ### Giving up references -/

theorem drop_of_mem (h : m.Consistent held lost) (hr : r ∈ held) :
    ∃ s, ({ memory := m } : Release).dropRef r = some s ∧ s.Completes (held.erase r) lost := by
  have hcons : m.Consistent (r ::ₘ held.erase r) lost := by rwa [Multiset.cons_erase hr]
  exact hcons.drop

theorem sound_release (h : m.Consistent held lost) (hr : r ∈ held) : (release r).Sound m held := by
  obtain ⟨s, hs, hcompletes⟩ := drop_of_mem h hr
  refine .of_release hs hcompletes fun t ht => ⟨t.memory.stats, .inl ?_⟩
  rw [outcome, Memory.release, hs, Option.bind_some, ht]
  rfl

theorem sound_freeTree (h : m.Consistent held lost) (hr : r ∈ held)
    (honly : m.isPlain r = true → r ∉ m.deferred ∧ r ∉ m.references) :
    (freeTree r).Sound m held := by
  obtain ⟨o, ho⟩ := Memory.isLive_iff.1 (h.isLive_of_mem (x := r) (by simp [hr]))
  have harena := h.tidy.no_arena r o ho
  by_cases hplain : m.isPlain r = true
  · obtain ⟨hdeferred, hrefs⟩ := honly hplain
    obtain ⟨o', ho', hsym, hcomp⟩ := Memory.isPlain_iff.1 hplain
    obtain rfl := Option.some.inj (ho.symm.trans ho')
    have hfreed := h.freeTree ho hsym hcomp hdeferred hrefs
    refine .of_release (by rw [release?, if_pos hplain]) (by rwa [heldAfter, if_pos hplain])
      fun t ht => ⟨t.memory.stats, .inl ?_⟩
    rw [outcome, Memory.freeTree, ho]
    simp only [harena, hsym, hcomp, Option.isSome_none, Bool.or_self, Bool.false_eq_true,
      ↓reduceIte, ht]
    rfl
  · have hother : (o.component.isSome || o.symmetric) = true := by
      by_contra hnone
      rw [Bool.not_eq_true, Bool.or_eq_false_iff] at hnone
      exact hplain (Memory.isPlain_iff.2 ⟨o, ho, hnone.2, by simpa using hnone.1⟩)
    obtain ⟨s, hs, hcompletes⟩ := drop_of_mem h hr
    refine .of_release (by rw [release?, if_neg hplain, hs]) (by rwa [heldAfter, if_neg hplain])
      fun t ht => ⟨t.memory.stats, .inl ?_⟩
    rw [outcome, Memory.freeTree, ho]
    simp only [harena, hother, Option.isSome_none, Bool.false_eq_true, ↓reduceIte]
    rw [Memory.release, hs, Option.bind_some, ht]
    rfl

theorem sound_releaseScoped (h : m.Consistent held lost) (hr : r ∈ held ∨ r ∈ m.scopeRefs) :
    (releaseScoped r).Sound m held := by
  have hdisowned := h.disown r
  obtain ⟨s, hs, hcompletes⟩ : ∃ s, ({ memory := { m with scopes := m.disown r m.scopes } } :
      Release).dropRef r = some s ∧ s.Completes ((releaseScoped r).heldAfter m held none) lost := by
    by_cases hscoped : r ∈ m.scopeRefs
    · rw [if_pos hscoped] at hdisowned
      rw [heldAfter, if_pos hscoped]
      exact hdisowned.drop
    · rw [if_neg hscoped] at hdisowned
      rw [heldAfter, if_neg hscoped]
      exact drop_of_mem hdisowned (hr.resolve_right hscoped)
  refine .of_release hs hcompletes fun t ht => ⟨t.memory.stats, .inl ?_⟩
  rw [outcome, Memory.releaseScoped, Memory.release, hs, Option.bind_some, ht]
  rfl

theorem sound_exitScope (h : m.Consistent held lost) {entries : Scope} (hperm : entries.Perm m.innermost) :
    (exitScope entries).Sound m held := by
  cases hscopes : m.scopes with
  | nil =>
    exact .of_refused (by rw [release?, hscopes]) (by rw [outcome, Memory.exitScopeIn, hscopes]; rfl) h
      fun x hx => hx
  | cons scope scopes =>
    obtain ⟨s, hs, hcompletes⟩ := (h.leaveScope hscopes hperm).drops
    refine .of_release (by rw [release?, hscopes]; exact hs) hcompletes
      fun t ht => ⟨t.memory.stats, .inl ?_⟩
    rw [outcome, Memory.exitScopeIn, hscopes]
    dsimp only
    rw [hs, Option.bind_some, ht]
    rfl

/-! ### Decrements that wait -/

/-- A batch comes to nothing if nothing waits, and otherwise to a release. -/
theorem batch (h : m.Consistent held lost) (n : Nat) :
    (batch? m n = none ∧ m.applyDeferred n = .done m 0) ∨
      ∃ s, batch? m n = some s ∧ s.Completes held lost ∧ ∀ t, s.run = some t →
        ∃ stats k, m.applyDeferred n = .done { t.memory with stats } k := by
  unfold batch? Memory.applyDeferred
  dsimp only
  by_cases hempty : (m.deferred.take n).isEmpty = true
  · exact .inl ⟨if_pos hempty, if_pos hempty⟩
  · rw [if_neg hempty, if_neg hempty]
    obtain ⟨s, hs, hcompletes⟩ := (h.undefer n).drops
    refine .inr ⟨s, hs, hcompletes, fun t ht => ?_⟩
    rw [hs, Option.bind_some, ht]
    exact ⟨_, _, rfl⟩

theorem sound_safePoint (h : m.Consistent held lost) : safePoint.Sound m held := by
  rcases batch h m.batchSize with ⟨hrel, hout⟩ | ⟨s, hrel, hcompletes, hout⟩
  · exact .of_done hrel (by rw [outcome, Memory.safePoint, hout]; rfl) h fun x hx => hx
  · refine .of_release hrel hcompletes fun t ht => ?_
    obtain ⟨stats, k, hout⟩ := hout t ht
    exact ⟨stats, .inl (by rw [outcome, Memory.safePoint, hout]; rfl)⟩

theorem sound_drain (h : m.Consistent held lost) : drain.Sound m held := by
  rcases batch h m.deferred.length with ⟨hrel, hout⟩ | ⟨s, hrel, hcompletes, hout⟩
  · exact .of_done hrel (by rw [outcome, Memory.drain, hout]; rfl) h fun x hx => hx
  · refine .of_release hrel hcompletes fun t ht => ?_
    obtain ⟨stats, k, hout⟩ := hout t ht
    exact ⟨stats, .inl (by rw [outcome, Memory.drain, hout]; rfl)⟩

theorem sound_defer (h : m.Consistent held lost) (hr : r ∈ held) : (defer r).Sound m held := by
  have hcons : m.Consistent (r ::ₘ held.erase r) lost := by rwa [Multiset.cons_erase hr]
  have hdeferred := hcons.defer
  generalize hqueued : ({ m with deferred := m.deferred ++ [r] } : Memory) = m' at hdeferred
  have hout : (defer r).outcome m =
      (if m'.queueLimit ≤ m'.deferred.length then m'.safePoint else .done m' 0).bind
        fun m _ => .done m none := by
    rw [← hqueued]
    rfl
  have hrel : (defer r).release? m =
      if m'.queueLimit ≤ m'.deferred.length then batch? m' m'.batchSize else none := by
    rw [← hqueued]
    rfl
  have hlive : ∀ x, m.isLive x = true → m'.isLive x = true := fun x hx => by
    rw [← hqueued]
    exact hx
  by_cases hfull : m'.queueLimit ≤ m'.deferred.length
  · rw [if_pos hfull] at hout hrel
    rcases batch hdeferred m'.batchSize with ⟨hnone, hdone⟩ | ⟨s, hsome, hcompletes, hdone⟩
    · rw [Memory.safePoint, hdone] at hout
      exact .of_done (hrel.trans hnone) hout hdeferred hlive
    · refine .of_release (hrel.trans hsome) hcompletes fun t ht => ?_
      obtain ⟨stats, k, hdone⟩ := hdone t ht
      rw [Memory.safePoint, hdone] at hout
      exact ⟨stats, .inl hout⟩
  · rw [if_neg hfull] at hout hrel
    exact .of_done hrel hout hdeferred hlive

/-! ### Fields and components -/

/-- Whether a field can be written. -/
theorem fieldFault?_cases (m : Memory) (o : Object) (index : Nat) (target : Option Ref) :
    (∃ fault, m.fieldFault? o index target = some fault) ∨
      (m.fieldFault? o index target = none ∧ o.frozen = false ∧
        ∃ f, o.fields[index]? = some f) := by
  unfold Memory.fieldFault?
  by_cases hfrozen : o.frozen = true
  · exact .inl ⟨_, if_pos hfrozen⟩
  · rw [if_neg hfrozen]
    by_cases hle : o.fields.length ≤ index
    · exact .inl ⟨_, if_pos hle⟩
    · rw [if_neg hle]
      have hfield : ∃ f, o.fields[index]? = some f :=
        ⟨_, List.getElem?_eq_getElem (Nat.lt_of_not_le hle)⟩
      have hopen : o.frozen = false := by simpa using hfrozen
      cases target.map m.object? with
      | none => exact .inr ⟨rfl, hopen, hfield⟩
      | some t? =>
        cases t? with
        | none => exact .inl ⟨_, rfl⟩
        | some t =>
          dsimp only
          split
          · exact .inr ⟨rfl, hopen, hfield⟩
          · exact .inl ⟨_, rfl⟩

theorem sound_setField (h : m.Consistent held lost) {index : Nat} {target : Option Ref}
    (hr : m.isLive r = true)
    (htarget : ∀ t, target = some t → m.isLive t = true ∧
      ∀ o f, m.object? r = some o → o.frozen = false → o.fields[index]? = some f → f.weak = false →
        m.CanRefer t) : (setField r index target).Sound m held := by
  obtain ⟨o, ho⟩ := Memory.isLive_iff.1 hr
  have hout : (setField r index target).outcome m =
      (m.setField r index target).bind fun m _ => .done m none := rfl
  unfold Memory.setField at hout
  rw [ho] at hout
  dsimp only at hout
  rcases fieldFault?_cases m o index target with ⟨fault, hfault⟩ | ⟨hfault, hfrozen, f, hf⟩
  · rw [hfault] at hout
    exact .of_refused (by simp [release?, ho, hfault]) hout h fun x hx => hx
  · have harena : o.arena?.isSome = false := by rw [h.tidy.no_arena r o ho]; rfl
    have hweak? : o.fields[index]?.any (·.weak) = f.weak := by rw [hf]; rfl
    have hold := Object.target?_of_field hf
    simp only [hfault, harena, hweak?, hold, Bool.false_eq_true, ↓reduceIte] at hout
    cases hweak : f.weak with
    | true =>
      rw [hweak, if_pos rfl] at hout
      have hconsistent := h.writeWeak ho hf hweak fun t ht => (htarget t ht).1
      refine .of_done (by simp [release?, ho, hweak?, hweak]) hout hconsistent fun x hx => ?_
      rw [(Memory.Without.writeWeak ho hf hweak target).isLive_iff]
      exact ⟨by simp, hx⟩
    | false =>
      rw [hweak, if_neg (by decide)] at hout
      obtain ⟨s, hs, hcompletes⟩ := h.writeStrong ho hf hweak hfrozen fun t ht =>
        ⟨(htarget t ht).1, (htarget t ht).2 o f ho hfrozen hf hweak⟩
      refine .of_release ?_ hcompletes fun t ht => ⟨t.memory.stats, .inl ?_⟩
      · rw [release?, ho]
        simp only [hfault, hweak?, hweak, hold, Option.isSome_none, Bool.or_self, Bool.false_eq_true,
          ↓reduceIte]
        exact hs
      · rw [hout, Memory.writeStrong_eq, hs, Option.bind_some, ht]
        rfl

theorem sound_freeze (h : m.Consistent held lost)
    (hfits : ∀ g ∈ m.cyclesFrom r, m.totalCount g - m.innerReferences g < UInt32.size)
    (hroom : m.config.componentCapacity < UInt32.size ∨
      m.components.entries.size + (m.cyclesFrom r).length < UInt32.size) :
    (freeze r).Sound m held := by
  refine .of_release rfl (h.freeze hfits hroom) fun t ht => ⟨t.memory.stats, ?_⟩
  rw [outcome, Memory.freeze]
  dsimp only
  rw [ht]
  cases hfault : (Release.freezeAll (m.cyclesFrom r) { memory := m }).2.2 with
  | none => exact .inl rfl
  | some fault => exact .inr ⟨fault, rfl, rfl⟩

/-! ### Scopes -/

/-- A new object is in no scope: the only reference to it is the one that the program has. -/
theorem not_mem_scopeRefs {m' : Memory} {o : Object} (h : m'.Consistent (r ::ₘ held) lost)
    (hborn : Memory.Born r o m m') (hsym : o.symmetric = true) : r ∉ m'.scopeRefs := by
  have ho : m'.object? r = some o := by rw [hborn.object, if_pos rfl]
  have hcount := (h.balanced.symmetric r o ho hsym).2.1
  rw [hborn.count, Multiset.cons_add, Multiset.cons_add, Multiset.cons_add,
    Multiset.count_cons_self, Multiset.count_add] at hcount
  rw [← Multiset.count_eq_zero]
  have hone : (1 : UInt32).toNat = 1 := rfl
  omega

theorem sound_allocateScoped (h : m.Consistent held lost) (hspec : spec.IsBlank) :
    (allocateScoped spec).Sound m held := by
  have hout : (allocateScoped spec).outcome m =
      (m.allocateScoped spec).bind fun m r => .done m (some r) := rfl
  unfold Memory.allocateScoped at hout
  cases hscopes : m.scopes with
  | nil =>
    rw [hscopes] at hout
    exact .of_refused rfl hout h fun x hx => hx
  | cons scope scopes =>
    rw [hscopes] at hout
    dsimp only at hout
    have hspec' : ({ spec with symmetric := true } : ObjectSpec).IsBlank := hspec
    rcases m.allocateSlot_cases { spec with symmetric := true } with
      he | ⟨fault, htake, he⟩ | ⟨r, htake, he⟩
    · rw [he] at hout
      exact .of_outOfMemory rfl hout
    · rw [he] at hout
      exact .of_refused rfl hout (h.exhausted htake) fun x hx => hx
    · rw [he] at hout
      obtain ⟨o, -, hsym, hborn⟩ := Memory.Born.fillSlot h.tidy.housed hspec' htake
      have hfilled := h.fillSlot hspec' htake
      have hlive : ∀ x, m.isLive x = true → (m.fillSlot (m.pool.take (m.cells.size + 1)).1 r
          { spec with symmetric := true }).isLive x = true := fun x => hborn.isLive
      have ho := hborn.object r
      rw [if_pos rfl] at ho
      have hnot := not_mem_scopeRefs hfilled hborn hsym
      have hscopes' : (m.fillSlot (m.pool.take (m.cells.size + 1)).1 r
          { spec with symmetric := true }).scopes = scope :: scopes := hscopes
      generalize m.fillSlot (m.pool.take (m.cells.size + 1)).1 r { spec with symmetric := true } = m'
        at hout hfilled hlive ho hnot hscopes'
      cases hhandle : m'.handle r with
      | ok handle =>
        simp only [Outcome.bind, hhandle] at hout
        exact .of_done rfl hout (hfilled.addToScope hscopes' hhandle ho hsym hnot) hlive
      | error fault =>
        simp only [Outcome.bind, hhandle] at hout
        exact .of_refused rfl hout (hfilled.lose ho hsym) hlive

/-! ### Registered types -/

/-- An operation on a registered type is the one on what its layout asks for. -/
theorem sound_of_spec {op : Operation} (tag : TypeTag) (shared : Bool) (h : m.Consistent held lost)
    (hrel : op.release? m = none)
    (hfault : ∀ fault, m.spec tag = .error fault → op.outcome m = .refused m fault)
    (hspec : ∀ spec, m.spec tag = .ok spec → ({ spec with shared } : ObjectSpec).IsBlank →
      op.Sound m held) : op.Sound m held := by
  cases hs : m.spec tag with
  | error fault => exact .of_refused hrel (hfault fault hs) h fun x hx => hx
  | ok spec => exact hspec spec hs fun fields hfields => Memory.isBlank_of_spec hs fields hfields

theorem sound_allocateType (h : m.Consistent held lost) (tag : TypeTag) (shared : Bool) :
    (allocateType tag shared).Sound m held := by
  refine sound_of_spec tag shared h rfl (fun fault hs => ?_) fun spec hs hblank => ?_
  · rw [outcome, Memory.allocateType, hs]
    rfl
  · refine (sound_allocate h hblank).congr ?_ rfl fun _ => rfl
    show (m.allocateType tag shared).bind _ = _
    rw [Memory.allocateType, hs]
    rfl

theorem sound_allocateSlotType (h : m.Consistent held lost) (tag : TypeTag) (shared : Bool) :
    (allocateSlotType tag shared).Sound m held := by
  refine sound_of_spec tag shared h rfl (fun fault hs => ?_) fun spec hs hblank => ?_
  · rw [outcome, Memory.allocateSlotType, hs]
    rfl
  · refine (sound_allocateSlot h hblank).congr ?_ rfl fun _ => rfl
    show (m.allocateSlotType tag shared).bind _ = _
    rw [Memory.allocateSlotType, hs]
    rfl

theorem sound_allocateScopedType (h : m.Consistent held lost) (tag : TypeTag) (shared : Bool) :
    (allocateScopedType tag shared).Sound m held := by
  refine sound_of_spec tag shared h rfl (fun fault hs => ?_) fun spec hs hblank => ?_
  · rw [outcome, Memory.allocateScopedType, hs]
    rfl
  · refine (sound_allocateScoped h hblank).congr ?_ rfl fun _ => rfl
    show (m.allocateScopedType tag shared).bind _ = _
    rw [Memory.allocateScopedType, hs]
    rfl

/-! ### All of them -/

theorem sound {op : Operation} (h : m.Consistent held lost) (hop : op.Allowed m held) :
    op.Sound m held := by
  cases op with
  | registerType tag layout =>
    exact .of_done rfl rfl (h.of_stats (m.types.insert tag layout) m.stats) fun x hx => hx
  | allocate spec => exact sound_allocate h hop
  | allocateType tag shared => exact sound_allocateType h tag shared
  | allocateSlot spec => exact sound_allocateSlot h hop
  | allocateSlotType tag shared => exact sound_allocateSlotType h tag shared
  | acquire r => exact sound_acquire h hop.1 hop.2
  | release r => exact sound_release h hop
  | defer r => exact sound_defer h hop
  | safePoint => exact sound_safePoint h
  | drain => exact sound_drain h
  | setField r index target => exact sound_setField h hop.1 hop.2
  | freeze r => exact sound_freeze h hop.2.1 hop.2.2
  | acquireComponent r => exact sound_acquireComponent h hop
  | freeTree r => exact sound_freeTree h hop.1 hop.2
  | enterScope => exact .of_done rfl rfl h.enterScope fun x hx => hx
  | exitScope entries => exact sound_exitScope h hop
  | allocateScoped spec => exact sound_allocateScoped h hop
  | allocateScopedType tag shared => exact sound_allocateScopedType h tag shared
  | releaseScoped r => exact sound_releaseScoped h hop

end Operation

end Reclamation
