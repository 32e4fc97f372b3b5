import Mathlib
import Reclamation.Proofs.Memory.Operations

/-!
# What an operation does to memory

An operation either places an object, or it writes at most one field and then does what leads from memory to
memory in steps of five kinds (`Memory.Change`): counts are changed, types, scopes and what was counted are
changed, slots are searched in vain, a group of objects becomes a component, or a release takes out a group.
This is said once, by `Operation.effect`; what holds across each `Change` holds across operations.
-/

set_option autoImplicit false

namespace Reclamation

/-! ## Changes -/

/-- The same entries have live components, and the same are free. -/
structure ComponentRegistry.SameExtent (t t' : ComponentRegistry) : Prop where
  live : t'.entries.map (·.live) = t.entries.map (·.live)
  free : t'.free = t.free
  capacity : t'.capacity = t.capacity
  liveCount : t'.liveCount = t.liveCount

namespace ComponentRegistry.SameExtent

variable {t t' t'' : ComponentRegistry}

theorem refl (t : ComponentRegistry) : SameExtent t t :=
  ⟨rfl, rfl, rfl, rfl⟩

theorem trans (h : SameExtent t t') (h' : SameExtent t' t'') : SameExtent t t'' :=
  ⟨h'.live.trans h.live, h'.free.trans h.free, h'.capacity.trans h.capacity, h'.liveCount.trans h.liveCount⟩

theorem size (h : SameExtent t t') : t'.entries.size = t.entries.size := by
  have := congrArg Array.size h.live
  rwa [Array.size_map, Array.size_map] at this

theorem liveEntries (h : SameExtent t t') : t'.liveEntries = t.liveEntries := by
  have := congrArg (Array.countP id) h.live
  rwa [Array.countP_map, Array.countP_map] at this

theorem update (t : ComponentRegistry) (id : ComponentId) {f : ComponentEntry → ComponentEntry}
    (hf : ∀ e, (f e).live = e.live) : SameExtent t (t.update id f) := by
  unfold ComponentRegistry.update
  split
  · refine ⟨?_, rfl, rfl, rfl⟩
    apply Array.ext_getElem?
    intro i
    simp only [Array.getElem?_map, Array.getElem?_modify]
    split
    · cases t.entries[i]? with
      | none => rfl
      | some e => simp [hf]
    · rfl
  · exact .refl t

theorem raise (t : ComponentRegistry) (id : ComponentId) : SameExtent t (t.raise id) :=
  update t id fun _ => rfl

theorem lower (t : ComponentRegistry) (id : ComponentId) : SameExtent t (t.lower id) :=
  update t id fun _ => rfl

end ComponentRegistry.SameExtent

namespace Memory

/-- A change of memory by which nothing is placed and no field is written, but for fields that are emptied
with what they referred to. -/
inductive Change : Memory → Memory → Prop
  | recount {m m' : Memory} : Recounted m m' → m.components.SameExtent m'.components → Change m m'
  | rearrange (m : Memory) (types : Std.HashMap TypeTag TypeLayout) (scopes : List Scope) (applied : Nat) :
      Change m { m with types, scopes, stats.deferredApplied := applied }
  | search (m : Memory) {base : Ref} : (m.pool.take base).2 = none →
      Change m { m with pool := (m.pool.take base).1 }
  | freeze {s : Release} {members : List Ref} {components : ComponentRegistry} {id : ComponentId} :
      s.memory.components.register? members (s.memory.externalCount members) = some (components, id) →
        Change s.memory (s.frozen members components id).memory
  | step {s t : Release} {outer : Multiset Ref} : Balanced s outer 0 → Release.Step s t →
      Change s.memory t.memory

/-- Any number of changes. -/
def Changes : Memory → Memory → Prop :=
  Relation.ReflTransGen Change

namespace Changes

variable {m m' m'' : Memory}

theorem refl (m : Memory) : Changes m m :=
  Relation.ReflTransGen.refl

theorem single (h : Change m m') : Changes m m' :=
  Relation.ReflTransGen.single h

theorem trans (h : Changes m m') (h' : Changes m' m'') : Changes m m'' :=
  Relation.ReflTransGen.trans h h'

/-- What one change keeps, any number of them keeps. -/
theorem induction {P : Memory → Memory → Prop} (h : Changes m m') (hrefl : ∀ m, P m m)
    (htrans : ∀ {a b c}, P a b → P b c → P a c) (hchange : ∀ {a b}, Change a b → P a b) : P m m' := by
  induction h with
  | refl => exact hrefl m
  | tail _ hlast ih => exact htrans ih (hchange hlast)

theorem keeps {P : Memory → Prop} (h : Changes m m') (hchange : ∀ {a b}, Change a b → P a → P b) (hm : P m) :
    P m' := by
  induction h with
  | refl => exact hm
  | tail _ hlast ih => exact hchange hlast ih

end Changes

/-- What no change touches. -/
structure Kept (m m' : Memory) : Prop where
  config : m'.config = m.config
  deferred : m'.deferred = m.deferred
  arenas : m'.arenas = m.arenas
  capacity : m'.components.capacity = m.components.capacity

namespace Kept

variable {m m' m'' : Memory}

theorem refl (m : Memory) : Kept m m :=
  ⟨rfl, rfl, rfl, rfl⟩

theorem trans (h : Kept m m') (h' : Kept m' m'') : Kept m m'' :=
  ⟨h'.config.trans h.config, h'.deferred.trans h.deferred, h'.arenas.trans h.arenas,
    h'.capacity.trans h.capacity⟩

theorem of_aside (h : Aside m m') : Kept m m' :=
  ⟨h.config, h.deferred, h.arenas, h.capacity⟩

end Kept

theorem capacity_register {t t' : ComponentRegistry} {members : List Ref} {external : Nat} {id : ComponentId}
    (h : t.register? members external = some (t', id)) : t'.capacity = t.capacity := by
  rcases ComponentRegistry.register?_cases h with ⟨i, free, -, -, rfl⟩ | ⟨-, -, -, rfl⟩ <;> rfl

theorem Change.kept {m m' : Memory} (h : Change m m') : Kept m m' := by
  cases h with
  | recount h _ => exact .of_aside h.aside
  | rearrange _ types scopes applied => exact ⟨rfl, rfl, rfl, rfl⟩
  | search _ _ => exact ⟨rfl, rfl, rfl, rfl⟩
  | @freeze s members components id hreg =>
    have hmark := Steady.markFrozen id members { s.memory with components }
    have hcapacity := capacity_register hreg
    have hkept := Kept.of_aside (hmark.congr_left hcapacity).aside
    exact ⟨hkept.config, hkept.deferred, hkept.arenas, hkept.capacity⟩
  | step h hstep => exact .of_aside (Release.Step.steady h hstep).aside

theorem Changes.kept {m m' : Memory} (h : Changes m m') : Kept m m' :=
  h.induction .refl .trans Change.kept

variable {m m' : Memory}

theorem sameExtent_acquire (m : Memory) (r : Ref) : m.components.SameExtent (m.acquire r).components := by
  unfold acquire
  split
  · exact .refl _
  · split
    · exact .refl _
    · split
      · exact .raise _ _
      · exact .refl _

theorem sameExtent_acquireEdge (m : Memory) (r : Ref) :
    m.components.SameExtent (m.acquireEdge r).components := by
  unfold acquireEdge
  split
  · exact .refl _
  · exact sameExtent_acquire m r

/-- Counts are changed alike before and after a change of an object that does not look at them. -/
theorem Recounted.update_both (h : Recounted m m') (r : Ref) {g : Object → Object}
    (hg : ∀ o count internal, g { o with count, internal } = { g o with count, internal }) :
    Recounted (m.update r g) (m'.update r g) where
  objects x := by
    rw [object?_update, object?_update]
    split
    · rcases h.object? r with ⟨hnone, hnone'⟩ | ⟨o, count, internal, ho, ho'⟩
      · rw [hnone, hnone']
      · rw [ho, ho', Option.map_some, Option.map_some, hg]
        rfl
    · exact h.objects x
  members := h.members
  referrers := h.referrers
  pool := h.pool
  stats := h.stats
  aside := { h.aside with
    size := by rw [size_cells_update, size_cells_update, h.aside.size] }

theorem recounted_setTarget (h : Recounted m m') (r : Ref) (index : Nat) (target : Option Ref) :
    Recounted (m.update r (·.setTarget index target)) (m'.update r (·.setTarget index target)) := by
  refine h.update_both r fun o count internal => ?_
  unfold Object.setTarget
  cases o.payload <;> rfl

end Memory

namespace Release

open Memory

variable {s t : Release} {r : Ref} {outer : Multiset Ref}

theorem Lowers.sameExtent (h : Lowers s r t) : s.memory.components.SameExtent t.memory.components := by
  cases h with
  | gone | nothing | internal | count | plain => exact .refl _
  | component => exact .lower _ _

theorem change_dropEdge (h : s.dropEdge r = some t) : Change s.memory t.memory :=
  .recount (recounted_dropEdge h) (lowers_dropEdge h).sameExtent

theorem change_dropRef (h : s.dropRef r = some t) : Change s.memory t.memory :=
  .recount (recounted_dropRef h) (lowers_dropRef h).sameExtent

theorem changes_foldlM {drop : Release → Ref → Option Release}
    (hdrop : ∀ {s t r}, drop s r = some t → Change s.memory t.memory) {rs : List Ref} {s t : Release}
    (h : rs.foldlM drop s = some t) : Changes s.memory t.memory :=
  foldlM_induction (P := fun u => Changes s.memory u.memory) (fun _ hd hu => hu.trans (.single (hdrop hd))) h (.refl _)

theorem changes_freezeAll : ∀ (groups : List (List Ref)) (s : Release),
    Changes s.memory (freezeAll groups s).1.memory := by
  intro groups
  induction groups with
  | nil => exact fun s => .refl _
  | cons members groups ih =>
    intro s
    rcases freezeAll_cons members groups s with ⟨fault, he⟩ | ⟨components, id, hreg, he⟩
    · rw [he]
      exact .refl _
    · rw [he]
      exact .trans (.single (.freeze hreg)) (ih _)

theorem Steps.changes (h : Balanced s outer 0) (hsteps : Steps s t) : Changes s.memory t.memory := by
  induction hsteps with
  | refl => exact .refl _
  | tail hsteps hstep ih => exact ih.tail (.step (h.steps hsteps) hstep)

/-- A release up to its end. -/
theorem Completes.changes {held lost : Multiset Ref} (h : s.Completes held lost) (hrun : s.run = some t) :
    Changes s.memory t.memory := by
  obtain ⟨u, hsteps, hrun', -, hbal⟩ := h.ends
  obtain rfl := Option.some.inj (hrun.symm.trans hrun')
  exact hsteps.changes hbal

end Release

/-! ## Operations -/

/-- An object is placed, in a cell that held none. -/
structure Memory.Placed (r : Ref) (o : Object) (m m' : Memory) : Prop extends Memory.Born r o m m' where
  referrers : m'.referrers = m.referrers
  deferred : m'.deferred = m.deferred
  arenas : m'.arenas = m.arenas
  config : m'.config = m.config
  stats : m'.stats = { m.stats with allocated := m.stats.allocated + 1 }
  /-- A slot is one more in use. -/
  inUse : m'.pool.live = m.pool.live + if o.origin = .slot then 1 else 0
  initialSlots : m'.pool.initialSlots = m.pool.initialSlots
  size : m.cells.size ≤ m'.cells.size
  /-- The cell is new or that of a slot. -/
  cell : m.cells.size ≤ r ∨ ∃ x, m.pool.slot? r = some x
  /-- Slots stay, and new ones have new cells. -/
  slots : ∀ x, x < m.cells.size → m.pool.slot? x = none → m'.pool.slot? x = none
  unfrozen : o.frozen = false

namespace Memory.Placed

variable {m m' : Memory} {r : Ref} {o : Object} {spec : ObjectSpec}

theorem allocate (m : Memory) (hspec : spec.IsBlank) :
    Placed (m.allocate spec).2 { spec with } m (m.allocate spec).1 where
  toBorn := .allocate m hspec
  referrers := rfl
  deferred := rfl
  arenas := rfl
  config := rfl
  stats := rfl
  inUse := rfl
  initialSlots := rfl
  size := (Array.size_push _).symm ▸ Nat.le_succ _
  cell := .inl (Nat.le_refl _)
  slots _ _ hx := hx
  unfrozen := rfl

theorem fillSlot (h : m.Housed) (hspec : spec.IsBlank) (ht : (m.pool.take (m.cells.size + 1)).2 = some r) :
    ∃ o, Placed r o m (m.fillSlot (m.pool.take (m.cells.size + 1)).1 r spec) := by
  obtain ⟨o, horigin, -, hborn⟩ := Born.fillSlot h hspec ht
  obtain ⟨x, hx, -, hslot⟩ := h.pool.slot?_take h.slot?_next ht
  have hcell : m.cells.size ≤ r ∨ ∃ x, m.pool.slot? r = some x := by
    rcases h.slot?_ready r x hx with hold | ⟨-, hlt⟩
    · exact .inr ⟨x, hold⟩
    · exact .inl (Nat.le_of_lt hlt)
  refine ⟨o, hborn, rfl, rfl, rfl, rfl, rfl, ?_, SlotPool.initialSlots_take _ _, ?_, hcell, fun y hlt hy => ?_, ?_⟩
  · rw [if_pos horigin]
    exact SlotPool.live_take ht
  · rw [size_fillSlot]
    exact Nat.le_max_left _ _
  · show (m.pool.take (m.cells.size + 1)).1.slot? y = none
    rw [hslot, if_neg, SlotPool.slot?_ready h.slot?_next, if_neg, hy]
    · rintro ⟨-, -, hmem⟩
      exact absurd (List.mem_range'_1.1 hmem).1 (by omega)
    · rintro rfl
      rcases hcell with hle | ⟨z, hz⟩
      · exact absurd hlt (Nat.not_lt.2 hle)
      · exact absurd (hy.symm.trans hz) (by simp)
  · have hlt : r < (m.pool.take (m.cells.size + 1)).1.limit := SlotPool.lt_limit (by rw [hslot, if_pos rfl])
    have hfilled := (hborn.object r).symm.trans (object?_fillSlot hlt r)
    rw [if_pos rfl, if_pos rfl] at hfilled
    rw [Option.some.inj hfilled]

/-- Which scopes there are does not matter. -/
theorem of_scopes (h : Placed r o m m') (scopes : List Scope) : Placed r o m { m' with scopes } :=
  { h with }

end Memory.Placed

namespace Operation

variable {m m' : Memory} {held lost : Multiset Ref} {r : Ref} {spec : ObjectSpec}

/-- Memory once the field that an operation writes is written, if it writes one. -/
def written (m : Memory) : Operation → Memory
  | setField r index target =>
    match m.object? r with
    | none => m
    | some o =>
      if (m.fieldFault? o index target).isSome then m
      else if o.fields[index]?.any (·.weak) then m.writeWeak r index (o.target? index) target
      else m.update r (·.setTarget index target)
  | registerType _ _ | allocate _ | allocateType _ _ | allocateSlot _ | allocateSlotType _ _ | acquire _
  | release _ | defer _ | safePoint | drain | freeze _ | acquireComponent _ | freeTree _ | enterScope
  | exitScope _ | allocateScoped _ | allocateScopedType _ _ | releaseScoped _ => m

theorem written_cases (m : Memory) (op : Operation) : op.written m = m ∨ ∃ r index target referrers,
    op.written m = { m.update r (·.setTarget index target) with referrers } := by
  cases op with
  | setField r index target =>
    rw [written]
    split
    · exact .inl rfl
    · next o ho =>
      split
      · exact .inl rfl
      · split
        · obtain ⟨referrers, he, -⟩ := m.writeWeak_eq r index (o.target? index) target
          exact .inr ⟨r, index, target, referrers, he⟩
        · exact .inr ⟨r, index, target, m.referrers, rfl⟩
  | _ => exact .inl rfl

theorem kept_written (m : Memory) (op : Operation) : Memory.Kept m (op.written m) := by
  rcases written_cases m op with he | ⟨r, index, target, referrers, he⟩ <;> rw [he] <;> exact ⟨rfl, rfl, rfl, rfl⟩

/-- Whether an operation has to do with the decrements that wait. -/
def isQueued : Operation → Bool
  | defer _ | safePoint | drain => true
  | registerType _ _ | allocate _ | allocateType _ _ | allocateSlot _ | allocateSlotType _ _ | acquire _
  | release _ | setField _ _ _ | freeze _ | acquireComponent _ | freeTree _ | enterScope | exitScope _
  | allocateScoped _ | allocateScopedType _ _ | releaseScoped _ => false

/-- What becomes of memory by an operation. -/
inductive Effect (op : Operation) (m m' : Memory) : Prop
  | changed : (op.written m).Changes m' → Effect op m m'
  | placed {r : Ref} {o : Object} : op.written m = m → Memory.Placed r o m m' → Effect op m m'

theorem Effect.of_cases {op : Operation} (hw : op.written m = m)
    (h : m.Changes m' ∨ ∃ r o, Memory.Placed r o m m') : op.Effect m m' := by
  rcases h with hchanges | ⟨r, o, hplaced⟩
  · exact .changed (hw.symm ▸ hchanges)
  · exact .placed hw hplaced

/-! ### Releases -/

open Memory

theorem changes_release (h : m.Consistent held lost) (hr : r ∈ held)
    (hout : ((release r).outcome m).memory? = some m') : m.Changes m' := by
  obtain ⟨s, hs, hcompletes⟩ := drop_of_mem h hr
  obtain ⟨t, -, hrun, -, -⟩ := hcompletes.ends
  rw [outcome, Memory.release, hs, Option.bind_some, hrun] at hout
  obtain rfl := Option.some.inj hout
  exact .trans (.single (Release.change_dropRef hs)) (hcompletes.changes hrun)

theorem changes_freeTree (h : m.Consistent held lost) (hr : r ∈ held)
    (honly : m.isPlain r = true → r ∉ m.deferred ∧ r ∉ m.references)
    (hout : ((freeTree r).outcome m).memory? = some m') : m.Changes m' := by
  obtain ⟨o, ho⟩ := Memory.isLive_iff.1 (h.isLive_of_mem (x := r) (by simp [hr]))
  have harena : ¬ o.arena?.isSome = true := by simp [h.tidy.no_arena r o ho]
  rw [outcome, Memory.freeTree, ho] at hout
  dsimp only at hout
  rw [if_neg harena] at hout
  by_cases hother : (o.component.isSome || o.symmetric) = true
  · rw [if_pos hother] at hout
    exact changes_release h hr hout
  · have halone := hother
    rw [Bool.not_eq_true, Bool.or_eq_false_iff] at halone
    have hcomp : o.component = none := by simpa using halone.1
    have hplain : m.isPlain r = true := isPlain_iff.2 ⟨o, ho, halone.2, hcomp⟩
    have hcompletes := h.freeTree ho halone.2 hcomp (honly hplain).1 (honly hplain).2
    obtain ⟨t, -, hrun, -, -⟩ := hcompletes.ends
    rw [if_neg hother, hrun] at hout
    obtain rfl := Option.some.inj hout
    exact hcompletes.changes hrun

theorem changes_exitScope (h : m.Consistent held lost) {entries : Scope} (hperm : entries.Perm m.innermost)
    (hout : ((exitScope entries).outcome m).memory? = some m') : m.Changes m' := by
  rw [outcome, Memory.exitScopeIn] at hout
  cases hscopes : m.scopes with
  | nil =>
    rw [hscopes] at hout
    obtain rfl := Option.some.inj hout
    exact .refl m
  | cons scope scopes =>
    obtain ⟨s, hs, hcompletes⟩ := (h.leaveScope hscopes hperm).drops
    obtain ⟨t, -, hrun, -, -⟩ := hcompletes.ends
    rw [hscopes] at hout
    dsimp only at hout
    rw [hs, Option.bind_some, hrun] at hout
    obtain rfl := Option.some.inj hout
    exact .trans (.trans (.single (.rearrange m m.types scopes m.stats.deferredApplied))
      (Release.changes_foldlM Release.change_dropRef hs)) (hcompletes.changes hrun)

theorem changes_releaseScoped (h : m.Consistent held lost) (hr : r ∈ held ∨ r ∈ m.scopeRefs)
    (hout : ((releaseScoped r).outcome m).memory? = some m') : m.Changes m' := by
  have hdisowned := h.disown r
  have hscoped : Change m { m with scopes := m.disown r m.scopes } :=
    .rearrange m m.types _ m.stats.deferredApplied
  refine .trans (.single hscoped) ?_
  by_cases hmem : r ∈ m.scopeRefs
  · rw [if_pos hmem] at hdisowned
    exact changes_release hdisowned (Multiset.mem_cons_self r held) hout
  · rw [if_neg hmem] at hdisowned
    exact changes_release hdisowned (hr.resolve_right hmem) hout

/-! ### Fields and components -/

theorem changes_strongRelease {index : Nat} {old target : Option Ref} {s : Release}
    (hs : m.strongRelease r index old target = some s) :
    (m.update r (·.setTarget index target)).Changes s.memory := by
  have hacquired : Change (m.update r (·.setTarget index target))
      ((target.elim m m.acquireEdge).update r (·.setTarget index target)) := by
    cases target with
    | none => exact .recount (.refl _) (.refl _)
    | some t =>
      exact .recount (recounted_setTarget (recounted_acquireEdge m t) r index (some t))
        (sameExtent_acquireEdge m t)
  unfold Memory.strongRelease at hs
  cases old with
  | none =>
    obtain rfl := Option.some.inj hs
    exact .single hacquired
  | some t => exact (Changes.single hacquired).trans (.single (Release.change_dropEdge hs))

theorem changes_setField (h : m.Consistent held lost) {index : Nat} {target : Option Ref}
    (hop : (setField r index target).Allowed m held)
    (hout : ((setField r index target).outcome m).memory? = some m') :
    ((setField r index target).written m).Changes m' := by
  obtain ⟨hr, htarget⟩ := hop
  obtain ⟨o, ho⟩ := Memory.isLive_iff.1 hr
  have harena : ¬ o.arena?.isSome = true := by simp [h.tidy.no_arena r o ho]
  rw [outcome, Memory.setField, ho] at hout
  rw [written, ho]
  dsimp only at hout ⊢
  rcases fieldFault?_cases m o index target with ⟨fault, hfault⟩ | ⟨hfault, hfrozen, f, hf⟩
  · rw [hfault] at hout ⊢
    obtain rfl := Option.some.inj hout
    exact .refl m
  · rw [hfault] at hout ⊢
    dsimp only at hout
    rw [if_neg (by simp)]
    rw [if_neg harena] at hout
    by_cases hweak : o.fields[index]?.any (·.weak) = true
    · rw [if_pos hweak] at hout ⊢
      obtain rfl := Option.some.inj hout
      exact .refl _
    · have hstrong : f.weak = false := by rw [hf] at hweak; simpa using hweak
      have hold := Object.target?_of_field hf
      obtain ⟨s, hs, hcompletes⟩ := h.writeStrong ho hf hstrong hfrozen fun t ht =>
        ⟨(htarget t ht).1, (htarget t ht).2 o f ho hfrozen hf hstrong⟩
      obtain ⟨t, -, hrun, -, -⟩ := hcompletes.ends
      rw [if_neg hweak, hold, writeStrong_eq, hs, Option.bind_some, hrun] at hout
      rw [if_neg hweak]
      obtain rfl := Option.some.inj hout
      exact (changes_strongRelease hs).trans (hcompletes.changes hrun)

theorem changes_freeze (h : m.Consistent held lost) (hop : (freeze r).Allowed m held)
    (hout : ((freeze r).outcome m).memory? = some m') : m.Changes m' := by
  have hcompletes := h.freeze hop.2.1 hop.2.2
  obtain ⟨t, -, hrun, -, -⟩ := hcompletes.ends
  have hchanges := (Release.changes_freezeAll (m.cyclesFrom r) { memory := m }).trans (hcompletes.changes hrun)
  rw [outcome, Memory.freeze] at hout
  dsimp only at hout
  rw [hrun] at hout
  cases hfault : (Release.freezeAll (m.cyclesFrom r) { memory := m }).2.2 with
  | none =>
    rw [hfault] at hout
    obtain rfl := Option.some.inj hout
    exact hchanges
  | some fault =>
    rw [hfault] at hout
    obtain rfl := Option.some.inj hout
    exact hchanges

/-! ### Starting a release -/

theorem changes_batch? {k : Nat} {s : Release} (hs : batch? m k = some s) :
    ({ m with deferred := m.deferred.drop k } : Memory).Changes s.memory := by
  unfold batch? at hs
  split at hs
  · exact absurd hs (by simp)
  · exact Release.changes_foldlM Release.change_dropRef hs

/-- An operation that starts a release does so in one change after the other, from memory in which the field is written
and the decrements that are due do not wait any more. -/
theorem changes_release? {op : Operation} {s : Release} (hs : op.release? m = some s) :
    ∃ deferred, ({ op.written m with deferred } : Memory).Changes s.memory ∧
      (op.isQueued = false → deferred = (op.written m).deferred) := by
  cases op with
  | release r => exact ⟨m.deferred, .single (Release.change_dropRef hs), fun _ => rfl⟩
  | defer r =>
    rw [release?] at hs
    dsimp only at hs
    split at hs
    · refine ⟨_, changes_batch? (m := { m with deferred := m.deferred ++ [r] }) hs, fun hqueue => ?_⟩
      exact absurd hqueue (by simp [isQueued])
    · exact absurd hs (by simp)
  | safePoint => exact ⟨_, changes_batch? hs, fun hqueue => absurd hqueue (by simp [isQueued])⟩
  | drain => exact ⟨_, changes_batch? hs, fun hqueue => absurd hqueue (by simp [isQueued])⟩
  | setField r index target =>
    rw [release?] at hs
    rw [written]
    cases ho : m.object? r with
    | none =>
      rw [ho] at hs
      exact absurd hs (by simp)
    | some o =>
      rw [ho] at hs
      dsimp only at hs ⊢
      split at hs
      · exact absurd hs (by simp)
      · next hwritten =>
        rw [Bool.or_eq_true, not_or] at hwritten
        rw [if_neg hwritten.1, if_neg hwritten.2]
        exact ⟨m.deferred, changes_strongRelease hs, fun _ => rfl⟩
  | freeze r =>
    obtain rfl := Option.some.inj hs
    exact ⟨m.deferred, Release.changes_freezeAll (m.cyclesFrom r) { memory := m }, fun _ => rfl⟩
  | freeTree r =>
    rw [release?] at hs
    split at hs
    · obtain rfl := Option.some.inj hs
      exact ⟨m.deferred, .refl m, fun _ => rfl⟩
    · exact ⟨m.deferred, .single (Release.change_dropRef hs), fun _ => rfl⟩
  | exitScope entries =>
    rw [release?] at hs
    split at hs
    · exact absurd hs (by simp)
    · next scopes _ =>
      have hleft : Change m { m with scopes } := .rearrange m m.types scopes m.stats.deferredApplied
      exact ⟨m.deferred, (Changes.single hleft).trans (Release.changes_foldlM Release.change_dropRef hs), fun _ => rfl⟩
  | releaseScoped r =>
    have hleft : Change m { m with scopes := m.disown r m.scopes } :=
      .rearrange m m.types _ m.stats.deferredApplied
    exact ⟨m.deferred, (Changes.single hleft).trans (.single (Release.change_dropRef hs)), fun _ => rfl⟩
  | _ => exact absurd hs (by simp [release?])

/-! ### Allocating -/

theorem effect_allocateSlot (h : m.Consistent held lost) (hspec : spec.IsBlank)
    (hout : ((m.allocateSlot spec).bind fun m r => Outcome.done m (some r)).memory? = some m') :
    m.Changes m' ∨ ∃ r o, Placed r o m m' := by
  rcases m.allocateSlot_cases spec with he | ⟨fault, htake, he⟩ | ⟨r, htake, he⟩
  · rw [he] at hout
    exact absurd hout (by simp [Outcome.bind, Outcome.memory?])
  · rw [he] at hout
    obtain rfl := Option.some.inj hout
    exact .inl (.single (.search m htake))
  · rw [he] at hout
    obtain rfl := Option.some.inj hout
    obtain ⟨o, hplaced⟩ := Placed.fillSlot h.tidy.housed hspec htake
    exact .inr ⟨r, o, hplaced⟩

theorem effect_allocateScoped (h : m.Consistent held lost) (hspec : spec.IsBlank)
    (hout : ((m.allocateScoped spec).bind fun m r => Outcome.done m (some r)).memory? = some m') :
    m.Changes m' ∨ ∃ r o, Placed r o m m' := by
  unfold Memory.allocateScoped at hout
  cases hscopes : m.scopes with
  | nil =>
    rw [hscopes] at hout
    obtain rfl := Option.some.inj hout
    exact .inl (.refl m)
  | cons scope scopes =>
    rw [hscopes] at hout
    dsimp only at hout
    have hspec' : ({ spec with symmetric := true } : ObjectSpec).IsBlank := hspec
    rcases m.allocateSlot_cases { spec with symmetric := true } with he | ⟨fault, htake, he⟩ | ⟨r, htake, he⟩
    · rw [he] at hout
      exact absurd hout (by simp [Outcome.bind, Outcome.memory?])
    · rw [he] at hout
      obtain rfl := Option.some.inj hout
      exact .inl (.single (.search m htake))
    · rw [he] at hout
      obtain ⟨o, hplaced⟩ := Placed.fillSlot h.tidy.housed hspec' htake
      generalize m.fillSlot (m.pool.take (m.cells.size + 1)).1 r { spec with symmetric := true } = m₁
        at hout hplaced
      cases hhandle : m₁.handle r with
      | ok handle =>
        simp only [Outcome.bind, hhandle] at hout
        obtain rfl := Option.some.inj hout
        exact .inr ⟨r, o, hplaced.of_scopes _⟩
      | error fault =>
        simp only [Outcome.bind, hhandle] at hout
        obtain rfl := Option.some.inj hout
        exact .inr ⟨r, o, hplaced⟩

/-- An allocation for a registered type is refused or is the one of what the layout asks for. -/
theorem spec_cases (m : Memory) (tag : TypeTag) (shared : Bool) :
    (∃ fault, m.spec tag = .error fault) ∨
      ∃ spec, m.spec tag = .ok spec ∧ ({ spec with shared } : ObjectSpec).IsBlank := by
  unfold Memory.spec
  cases m.layout tag with
  | error fault => exact .inl ⟨fault, rfl⟩
  | ok l => exact .inr ⟨_, rfl, ObjectSpec.isBlank_ofFlags tag l.weakFlags shared false⟩

/-! ### All of them -/

/-- What an operation does to memory that is carried out or refused. -/
theorem effect {op : Operation} (h : m.Consistent held lost) (hop : op.Allowed m held)
    (hqueue : op.isQueued = false) (hout : (op.outcome m).memory? = some m') : op.Effect m m' := by
  cases op with
  | registerType tag layout =>
    obtain rfl := Option.some.inj hout
    exact .changed (.single (.rearrange m _ m.scopes m.stats.deferredApplied))
  | allocate spec =>
    obtain rfl := Option.some.inj hout
    exact .placed rfl (.allocate m hop)
  | allocateType tag shared =>
    rw [outcome, Memory.allocateType] at hout
    rcases spec_cases m tag shared with ⟨fault, hs⟩ | ⟨spec, hs, hblank⟩
    · rw [hs] at hout
      obtain rfl := Option.some.inj hout
      exact .changed (.refl m)
    · rw [hs] at hout
      obtain rfl := Option.some.inj hout
      exact .placed rfl (.allocate m hblank)
  | allocateSlot spec => exact .of_cases rfl (effect_allocateSlot h hop hout)
  | allocateSlotType tag shared =>
    rw [outcome, Memory.allocateSlotType] at hout
    rcases spec_cases m tag shared with ⟨fault, hs⟩ | ⟨spec, hs, hblank⟩
    · rw [hs] at hout
      obtain rfl := Option.some.inj hout
      exact .changed (.refl m)
    · rw [hs] at hout
      exact .of_cases rfl (effect_allocateSlot h hblank hout)
  | acquire r =>
    obtain rfl := Option.some.inj hout
    exact .changed (.single (.recount (recounted_acquire m r) (sameExtent_acquire m r)))
  | release r => exact .changed (changes_release h hop hout)
  | defer r => exact absurd hqueue (by simp [isQueued])
  | safePoint => exact absurd hqueue (by simp [isQueued])
  | drain => exact absurd hqueue (by simp [isQueued])
  | setField r index target => exact .changed (changes_setField h hop hout)
  | freeze r => exact .changed (changes_freeze h hop hout)
  | acquireComponent r =>
    rw [outcome, Memory.acquireComponent] at hout
    split at hout
    · obtain rfl := Option.some.inj hout
      exact .changed (.refl m)
    · obtain rfl := Option.some.inj hout
      exact .changed (.single (.recount (recounted_acquire m r) (sameExtent_acquire m r)))
  | freeTree r => exact .changed (changes_freeTree h hop.1 hop.2 hout)
  | enterScope =>
    obtain rfl := Option.some.inj hout
    exact .changed (.single (.rearrange m m.types _ m.stats.deferredApplied))
  | exitScope entries => exact .changed (changes_exitScope h hop hout)
  | allocateScoped spec => exact .of_cases rfl (effect_allocateScoped h hop hout)
  | allocateScopedType tag shared =>
    rw [outcome, Memory.allocateScopedType] at hout
    rcases spec_cases m tag shared with ⟨fault, hs⟩ | ⟨spec, hs, hblank⟩
    · rw [hs] at hout
      obtain rfl := Option.some.inj hout
      exact .changed (.refl m)
    · rw [hs] at hout
      exact .of_cases rfl (effect_allocateScoped h hblank hout)
  | releaseScoped r => exact .changed (changes_releaseScoped h hop hout)

end Operation

end Reclamation
