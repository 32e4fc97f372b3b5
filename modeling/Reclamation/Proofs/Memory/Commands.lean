import Mathlib
import Reclamation.Proofs.Memory.Arenas

/-!
# Programs that use arenas

What a program can ask of the runtime in all: the operations, of which some may be asked of an object in an arena,
and what there is to ask of arenas. References to objects in arenas are not counted, so they are not among what the
program holds. A command that takes out an arena is allowed if no decrement waits for an object in it.

Every command leaves memory whose parts fit (`Command.sound`). What it does to memory without arenas is one change
after the other, from memory in which the field that it writes is written (`Command.Advance`).
-/

set_option autoImplicit false

namespace Reclamation

/-! ## Commands -/

/-- What a program can ask of the runtime. -/
inductive Command where
  | operation (op : Operation)
  | newArena
  | allocateFields (id : ArenaId) (tag : TypeTag) (weak : List Bool)
  | allocateInArena (id : ArenaId) (tag : TypeTag)
  | registerExternal (id : ArenaId) (r : Ref)
  | resolveExternal (id : ArenaId) (r : Ref)
  | destroyArena (id : ArenaId)
  | destroyArenaWhenResolved (id : ArenaId)
  | abandonArena (id : ArenaId)

namespace Operation

/-- The object that an operation is asked of. -/
def subject? : Operation → Option Ref
  | acquire r | release r | defer r | setField r _ _ | freeze r | acquireComponent r | freeTree r
  | releaseScoped r => some r
  | registerType _ _ | allocate _ | allocateType _ _ | allocateSlot _ | allocateSlotType _ _ | safePoint | drain
  | enterScope | exitScope _ | allocateScoped _ | allocateScopedType _ _ => none

/-- Whether an operation is asked of an object in an arena. -/
def isOnArena (m : Memory) (op : Operation) : Bool :=
  op.subject?.any fun r => (m.object? r).any (·.arena?.isSome)

end Operation

namespace Command

/-- What a command comes to, and the object that it allocates. -/
def outcome (m : Memory) : Command → Outcome (Option Ref)
  | operation op => op.outcome m
  | newArena => .done m.newArena.1 none
  | allocateFields id tag weak => (m.allocateFields id tag weak).bind fun m r => .done m (some r)
  | allocateInArena id tag => (m.allocateInArena id tag).bind fun m r => .done m (some r)
  | registerExternal id r => (m.registerExternal id r).bind fun m _ => .done m none
  | resolveExternal id r => (m.resolveExternal id r).bind fun m _ => .done m none
  | destroyArena id => (m.destroyArena id).bind fun m _ => .done m none
  | destroyArenaWhenResolved id => (m.destroyArenaWhenResolved id).bind fun m _ => .done m none
  | abandonArena id => .done (m.abandonArena id) none

/-- What the program holds after a command that was carried out. -/
def heldAfter (m : Memory) (held : Multiset Ref) (made : Option Ref) : Command → Multiset Ref
  | operation op => if op.isOnArena m then held else op.heldAfter m held made
  | newArena | allocateFields _ _ _ | allocateInArena _ _ | registerExternal _ _ | resolveExternal _ _
  | destroyArena _ | destroyArenaWhenResolved _ | abandonArena _ => held

/-- The preconditions of a command. -/
def Allowed (m : Memory) (held : Multiset Ref) (c : Command) : Prop :=
  match c with
  | operation op => op.isOnArena m = true ∨ op.Allowed m held
  | newArena | allocateFields _ _ _ | allocateInArena _ _ | registerExternal _ _ => True
  | resolveExternal _ _ | destroyArena _ | destroyArenaWhenResolved _ | abandonArena _ =>
    ∀ m', (c.outcome m).memory? = some m' → ∀ x ∈ m.deferred, m'.isLive x = true

/-- Memory once the field that a command writes is written, if it writes one. -/
def written (m : Memory) : Command → Memory
  | operation op => op.written m
  | newArena | allocateFields _ _ _ | allocateInArena _ _ | registerExternal _ _ | resolveExternal _ _
  | destroyArena _ | destroyArenaWhenResolved _ | abandonArena _ => m

/-- Whether it is an arena that something is asked of. -/
def concernsArena : Command → Bool
  | operation _ => false
  | newArena | allocateFields _ _ _ | allocateInArena _ _ | registerExternal _ _ | resolveExternal _ _
  | destroyArena _ | destroyArenaWhenResolved _ | abandonArena _ => true

theorem written_of_concernsArena {c : Command} (h : c.concernsArena = true) (m : Memory) : c.written m = m := by
  cases c with
  | operation op => exact absurd h (by simp [concernsArena])
  | _ => rfl

theorem written_cases (m : Memory) (c : Command) : c.written m = m ∨ ∃ r index target referrers,
    c.written m = { m.update r (·.setTarget index target) with referrers } := by
  cases c with
  | operation op => exact Operation.written_cases m op
  | _ => exact .inl rfl

end Command

/-- Only arenas are different, and how many of them were destroyed. -/
structure Memory.Beside (n n' : Memory) : Prop where
  object : ∀ x, n'.object? x = n.object? x
  referrers : n'.referrers = n.referrers
  components : n'.components = n.components
  pool : n'.pool = n.pool
  config : n'.config = n.config
  stats : ∃ arenasDestroyed, n'.stats = { n.stats with arenasDestroyed }

namespace Memory.Beside

/-- Memory with other arenas. -/
theorem of_arenas (n : Memory) (arenas : Array Arena) (arenasDestroyed : Nat) :
    Beside n { n with arenas, stats.arenasDestroyed := arenasDestroyed } :=
  ⟨fun _ => rfl, rfl, rfl, rfl, rfl, arenasDestroyed, rfl⟩

theorem refl (n : Memory) : Beside n n :=
  of_arenas n n.arenas n.stats.arenasDestroyed

theorem trans {n n' n'' : Memory} (h : Beside n n') (h' : Beside n' n'') : Beside n n'' := by
  obtain ⟨k, hk⟩ := h.stats
  obtain ⟨k', hk'⟩ := h'.stats
  exact ⟨fun x => (h'.object x).trans (h.object x), h'.referrers.trans h.referrers, h'.components.trans h.components,
    h'.pool.trans h.pool, h'.config.trans h.config, k', by rw [hk', hk]⟩

end Memory.Beside

/-- What a command does to memory without arenas. -/
inductive Command.Advance (c : Command) (n n' : Memory) : Prop
  | changed (deferred : List Ref) : ({ c.written n with deferred } : Memory).Changes n' → Advance c n n'
  | placed {r : Ref} {o : Object} : c.written n = n → Memory.Placed r o n n' → Advance c n n'
  | beside : c.concernsArena = true → Memory.Beside n n' → Advance c n n'

/-- Whatever a command comes to, it has not broken off and the parts of memory fit. -/
def Command.Accounted (c : Command) (n : Memory) (held : Multiset Ref) (after : Option Ref → Multiset Ref) :
    Outcome (Option Ref) → Prop
  | .done m made => ∃ n' regions lost, m = Memory.joined n' regions ∧ Divided n' regions (after made) lost ∧
      c.Advance n n'
  | .refused m _ => ∃ n' regions lost, m = Memory.joined n' regions ∧ Divided n' regions held lost ∧ c.Advance n n'
  | .broken => False
  | .outOfMemory => True

namespace Command

open Memory

variable {n n' : Memory} {regions : Regions} {held lost : Multiset Ref} {r : Ref} {o : Object} {c : Command}
  {after : Option Ref → Multiset Ref}

theorem Advance.refl (hwritten : c.written n = n) : c.Advance n n :=
  .changed n.deferred (hwritten.symm ▸ .refl n)

/-- What a program was configured with stays. -/
theorem Advance.config (h : c.Advance n n') : n'.config = n.config := by
  cases h with
  | changed deferred hchanges =>
    refine hchanges.kept.config.trans ?_
    show (c.written n).config = n.config
    rcases written_cases n c with he | ⟨r, index, target, referrers, he⟩
    · rw [he]
    · rw [he]
      rfl
  | placed _ hplaced => exact hplaced.config
  | beside _ hbeside => exact hbeside.config

/-! ## Decrements that wait -/

theorem filter_take_drop {α : Type} (p : α → Bool) (l : List α) (k : Nat) :
    ∃ j, (l.filter p).take j = (l.take k).filter p ∧ (l.filter p).drop j = (l.drop k).filter p := by
  have hsplit : l.filter p = (l.take k).filter p ++ (l.drop k).filter p := by
    rw [← List.filter_append, List.take_append_drop]
  refine ⟨((l.take k).filter p).length, ?_, ?_⟩
  · rw [hsplit, List.take_left]
  · rw [hsplit, List.drop_left]

/-- Of the decrements that are due those for objects in arenas come to nothing, the others to what they come to without
arenas. -/
theorem dropRefs_due {s : Release} (h : Divided n regions held lost) {j k : Nat}
    (htake : (n.deferred.take j) = (regions.deferred.take k).filter fun r => (regions.objects r).isNone)
    (hs : (n.deferred.take j).foldlM Release.dropRef { memory := { n with deferred := n.deferred.drop j } } = some s) :
    ((n.joined regions).deferred.take k).foldlM Release.dropRef
      { memory := { n.joined regions with deferred := (n.joined regions).deferred.drop k } } =
        some (s.joined { regions with deferred := regions.deferred.drop k }) := by
  have hundeferred : regions.Apart { n with deferred := n.deferred.drop j } := h.apart.of_cells rfl fun _ => rfl
  have hjoined := Release.dropRefs_joined (regions.deferred.take k)
    (s := { memory := { n with deferred := n.deferred.drop j } }) (hundeferred.of_deferred (regions.deferred.drop k))
  have houtside : (Regions.outside { regions with deferred := regions.deferred.drop k } (regions.deferred.take k)) =
      n.deferred.take j := htake.symm
  rw [houtside, hs] at hjoined
  exact hjoined

/-- What comes of the first decrements that wait. -/
theorem applyDeferred_divided (h : Divided n regions held lost) (k : Nat) : ∃ n' j,
    (n.joined regions).applyDeferred k = .done (n'.joined { regions with deferred := regions.deferred.drop k }) j ∧
      Divided n' { regions with deferred := regions.deferred.drop k } held lost ∧
        ∃ deferred, ({ n with deferred } : Memory).Changes n' := by
  by_cases hempty : (regions.deferred.take k).isEmpty = true
  · have hall : regions.deferred.drop k = regions.deferred := by
      have hsplit := List.take_append_drop k regions.deferred
      rwa [List.isEmpty_iff.1 hempty, List.nil_append] at hsplit
    rw [hall]
    refine ⟨n, 0, ?_, h, n.deferred, .refl n⟩
    unfold applyDeferred
    exact if_pos hempty
  · obtain ⟨j, htake, hdrop⟩ := filter_take_drop (fun r => (regions.objects r).isNone) regions.deferred k
    rw [← h.deferred] at htake hdrop
    obtain ⟨s, hs, hcompletes⟩ := (h.consistent.undefer j).drops
    obtain ⟨t, -, hrun, hend, -⟩ := hcompletes.ends
    have hdrops := dropRefs_due h htake hs
    have hrecounted := Release.recounted_foldlM Release.recounted_dropRef hs
    have hchanges := (Release.changes_foldlM Release.change_dropRef hs).trans (hcompletes.changes hrun)
    have hcounted := hchanges.trans (.single (.rearrange t.memory t.memory.types t.memory.scopes
      (t.memory.stats.deferredApplied + (regions.deferred.take k).length)))
    have hundeferred : regions.Apart { n with deferred := n.deferred.drop j } := h.apart.of_cells rfl fun _ => rfl
    have hapart := hundeferred.of_deferred (regions.deferred.drop k)
    have hkept := hcounted.kept
    have hrun' := hcompletes.run_joined (hapart.of_recounted hrecounted)
    rw [hrun] at hrun'
    refine ⟨{ t.memory with stats.deferredApplied :=
      t.memory.stats.deferredApplied + (regions.deferred.take k).length }, (regions.deferred.take k).length, ?_,
      ⟨hapart.of_changes hcounted, ?_, hend.of_stats _ _, ?_⟩, _, hcounted⟩
    · have hempty' : ¬ ((n.joined regions).deferred.take k).isEmpty = true := hempty
      unfold applyDeferred
      dsimp only
      rw [if_neg hempty', hdrops, Option.bind_some, hrun']
      rfl
    · rw [hkept.arenas]
      exact h.listed.of_deferred _
    · rw [hkept.deferred]
      exact hdrop

theorem accounted_applyDeferred (h : Divided n regions held lost) (hwritten : c.written n = n) (k : Nat) :
    c.Accounted n held (fun _ => held)
      (((n.joined regions).applyDeferred k).bind fun m _ => .done m none) := by
  obtain ⟨n', j, hout, hdivided, deferred, hchanges⟩ := applyDeferred_divided h k
  rw [hout]
  exact ⟨n', _, lost, rfl, hdivided, .changed deferred (hwritten.symm ▸ hchanges)⟩

/-- One more decrement waits, for an object that is counted or one in an arena. -/
theorem push_divided (h : Divided n regions held lost) (r : Ref)
    (hr : regions.objects r = none → r ∈ held) :
    ∃ deferred, Divided { n with deferred } { regions with deferred := regions.deferred ++ [r] }
      (if (regions.objects r).isNone then held.erase r else held) lost := by
  by_cases hnone : regions.objects r = none
  · have hcons : n.Consistent (r ::ₘ held.erase r) lost := by
      rw [Multiset.cons_erase (hr hnone)]
      exact h.consistent
    have hundeferred : regions.Apart { n with deferred := n.deferred ++ [r] } := h.apart.of_cells rfl fun _ => rfl
    refine ⟨n.deferred ++ [r], hundeferred.of_deferred _, h.listed.of_deferred _, ?_, ?_⟩
    · rw [hnone]
      exact hcons.defer
    · show n.deferred ++ [r] = (regions.deferred ++ [r]).filter _
      rw [List.filter_append, ← h.deferred]
      simp [hnone]
  · have hsome : (regions.objects r).isNone = false := by
      simpa [Option.isSome_iff_ne_none] using hnone
    refine ⟨n.deferred, h.apart.of_deferred _, h.listed.of_deferred _, ?_, ?_⟩
    · rw [hsome]
      exact h.consistent
    · show n.deferred = (regions.deferred ++ [r]).filter _
      rw [List.filter_append, ← h.deferred]
      simp [hsome]

theorem accounted_defer (h : Divided n regions held lost) (r : Ref) (hr : regions.objects r = none → r ∈ held) :
    (operation (.defer r)).Accounted n held
      (fun _ => if (regions.objects r).isNone then held.erase r else held)
      ((Operation.defer r).outcome (n.joined regions)) := by
  obtain ⟨deferred, hpushed⟩ := push_divided h r hr
  have hout : (Operation.defer r).outcome (n.joined regions) =
      (if (n.joined regions).queueLimit ≤ (regions.deferred ++ [r]).length then
          (({ n with deferred } : Memory).joined { regions with deferred := regions.deferred ++ [r] }).applyDeferred
            n.batchSize
        else .done (({ n with deferred } : Memory).joined { regions with deferred := regions.deferred ++ [r] }) 0).bind
          fun m _ => .done m none := rfl
  rw [hout]
  by_cases hfull : (n.joined regions).queueLimit ≤ (regions.deferred ++ [r]).length
  · obtain ⟨n', j, hdone, hdivided, deferred', hchanges⟩ := applyDeferred_divided hpushed n.batchSize
    rw [if_pos hfull, hdone]
    exact ⟨n', _, lost, rfl, hdivided, .changed deferred' hchanges⟩
  · rw [if_neg hfull]
    exact ⟨_, _, lost, rfl, hpushed, .changed deferred (.refl _)⟩

/-! ## Asking of an object in an arena -/

theorem run_nothing (m : Memory) : ({ memory := m } : Release).run = some { memory := m } :=
  Release.run_of_finished ⟨rfl, rfl⟩

theorem acquire_of_arena {m : Memory} (ho : m.object? r = some o) (harena : o.arena?.isSome = true) :
    m.acquire r = m := by
  unfold Memory.acquire
  rw [ho]
  dsimp only
  rw [if_pos harena]

theorem dropRef_of_arena {s : Release} (ho : s.memory.object? r = some o) (harena : o.arena?.isSome = true) :
    s.dropRef r = some s := by
  unfold Release.dropRef
  rw [ho]
  dsimp only
  rw [if_pos harena]

theorem dropEdge_of_arena {s : Release} (ho : s.memory.object? r = some o) (harena : o.arena?.isSome = true) :
    s.dropEdge r = some s := by
  unfold Release.dropEdge
  rw [ho]
  dsimp only
  rw [if_pos harena]

theorem release_of_arena {m : Memory} (ho : m.object? r = some o) (harena : o.arena?.isSome = true) :
    m.release r = .done m 0 := by
  rw [Memory.release, dropRef_of_arena ho harena, Option.bind_some, run_nothing]
  rfl

theorem freeTree_of_arena {m : Memory} (ho : m.object? r = some o) (harena : o.arena?.isSome = true) :
    m.freeTree r = .done m 0 := by
  unfold Memory.freeTree
  rw [ho]
  dsimp only
  rw [if_pos harena]

theorem freeze_of_arena {m : Memory} (ho : m.object? r = some o) (harena : o.arena?.isSome = true) :
    m.freeze r = .done m [] := by
  have hcycles : m.cyclesFrom r = [] := by
    rw [cyclesFrom, if_neg]
    intro heligible
    obtain ⟨o', ho', -, hnone, -⟩ := isEligible_iff.1 heligible
    obtain rfl := Option.some.inj (ho.symm.trans ho')
    rw [hnone] at harena
    exact absurd harena (by decide)
  unfold Memory.freeze
  rw [hcycles]
  dsimp only [Release.freezeAll]
  rw [run_nothing]

/-- No scope owns an object that is not in a slot. -/
theorem disown_of_not_slot (hhoused : n.Housed) (hscoped : n.Scoped) (hslot : n.pool.slot? r = none) :
    n.disown r n.scopes = n.scopes := by
  have hentries : ∀ scope ∈ n.scopes, ∀ e ∈ scope, (e.1 == r && n.deref? e.2 == some r) = false := by
    intro scope hs e he
    by_contra htrue
    rw [Bool.not_eq_false, Bool.and_eq_true, beq_iff_eq, beq_iff_eq] at htrue
    obtain ⟨-, huse, -⟩ := (hscoped.entries scope hs e he).eq_of_deref? hhoused.pool htrue.2
    obtain ⟨x, hx, -⟩ := isInUse_iff_slot?.1 huse
    exact absurd (hslot.symm.trans hx) (by simp)
  generalize n.scopes = scopes at hentries
  induction scopes with
  | nil => rfl
  | cons scope outer ih =>
    have hany : ¬ (scope.any fun entry => entry.1 == r && n.deref? entry.2 == some r) = true := by
      rw [List.any_eq_true]
      rintro ⟨e, he, htrue⟩
      rw [hentries scope List.mem_cons_self e he] at htrue
      exact absurd htrue (by decide)
    rw [disown, if_neg hany, ih fun s hs => hentries s (List.mem_cons_of_mem _ hs)]

theorem isOnArena_iff {op : Operation} (h : Divided n regions held lost) :
    op.isOnArena (n.joined regions) = true ↔ ∃ r o, op.subject? = some r ∧ regions.objects r = some o := by
  unfold Operation.isOnArena
  cases op.subject? with
  | none => simp
  | some r =>
    rw [Option.any_some, Option.any_eq_true]
    constructor
    · rintro ⟨o, ho, harena⟩
      exact ⟨r, o, rfl, h.objects_of_arena ho harena⟩
    · rintro ⟨r', o, hr, ho⟩
      obtain rfl := Option.some.inj hr
      exact ⟨o, object?_joined_of_some h.apart ho, h.apart.arena r o ho⟩

/-- No object of an arena belongs to a component. -/
theorem acquireComponent_onArena (h : Divided n regions held lost) (ho : regions.objects r = some o) :
    (n.joined regions).acquireComponent r = .refused (n.joined regions) .notInComponent := by
  have hnone : (n.joined regions).countingComponent? o = none := by
    rw [countingComponent?, (h.apart.plain r o ho).2.1]
    rfl
  rw [Memory.acquireComponent, object?_joined_of_some h.apart ho, Option.bind_some, hnone]

/-- No object of an arena belongs to a scope. -/
theorem releaseScoped_onArena (h : Divided n regions held lost) (ho : regions.objects r = some o) :
    (n.joined regions).releaseScoped r = .done (n.joined regions) 0 := by
  have hdisown : (n.joined regions).disown r (n.joined regions).scopes = n.scopes :=
    (disown_joined n regions r n.scopes).trans
      (disown_of_not_slot h.consistent.tidy.housed h.consistent.scopes (h.apart.slot r o ho))
  have hrelease : ({ n.joined regions with scopes := n.scopes } : Memory).release r = .done (n.joined regions) 0 :=
    release_of_arena (object?_joined_of_some h.apart ho) (h.apart.arena r o ho)
  rw [Memory.releaseScoped, hdisown, hrelease]

/-- A field that can be written refers to an object in the same arena then, or one that is as little in an arena as
the one with the field. -/
theorem target_of_writable {m : Memory} {index : Nat} {t : Ref} (h : m.fieldFault? o index (some t) = none) :
    ∃ o', m.object? t = some o' ∧ o.arena? = o'.arena? := by
  unfold fieldFault? at h
  rw [Option.map_some] at h
  split at h
  · exact absurd h (by simp)
  · split at h
    · exact absurd h (by simp)
    · cases ho' : m.object? t with
      | none =>
        rw [ho'] at h
        exact absurd h (by simp)
      | some o' =>
        rw [ho'] at h
        dsimp only at h
        split at h
        · next hsame => exact ⟨o', rfl, hsame⟩
        · exact absurd h (by simp)

/-- A field of an object in an arena is written if it can be. -/
theorem accounted_setField_onArena (h : Divided n regions held lost) (ho : regions.objects r = some o) (index : Nat)
    (target : Option Ref) : (operation (.setField r index target)).Accounted n held (fun _ => held)
      ((Operation.setField r index target).outcome (n.joined regions)) := by
  have hwritten : (operation (.setField r index target)).written n = n := by
    rw [Command.written, Operation.written, h.apart.empty r o ho]
  have hout : (Operation.setField r index target).outcome (n.joined regions) =
      ((n.joined regions).setField r index target).bind fun m _ => .done m none := rfl
  unfold Memory.setField at hout
  rw [object?_joined_of_some h.apart ho] at hout
  dsimp only at hout
  rw [hout]
  rcases Operation.fieldFault?_cases (n.joined regions) o index target with ⟨fault, hfault⟩ | ⟨hfault, -, f, hf⟩
  · rw [hfault]
    exact ⟨n, regions, lost, rfl, h, .refl hwritten⟩
  · rw [hfault]
    dsimp only
    rw [if_pos (h.apart.arena r o ho)]
    refine ⟨n, regions.put r (o.setTarget index target), lost, update_joined_put h.apart ho _,
      h.write ho fun t ht => ?_, .refl hwritten⟩
    subst ht
    -- what the field refers to is in the same arena, or the field could not be written
    obtain ⟨o', ho', hsame⟩ := target_of_writable hfault
    have harena := h.apart.arena r o ho
    rw [hsame] at harena
    exact ⟨o', h.objects_of_arena ho' harena, hsame.symm⟩

/-- Whatever is asked of an object in an arena concerns that object only. -/
theorem accounted_onArena {op : Operation} (h : Divided n regions held lost)
    (hon : op.isOnArena (n.joined regions) = true) :
    (operation op).Accounted n held (fun _ => held) (op.outcome (n.joined regions)) := by
  obtain ⟨r, o, hr, ho⟩ := (isOnArena_iff h).1 hon
  have ho' := object?_joined_of_some h.apart ho
  have harena := h.apart.arena r o ho
  have hsame : ∀ {made}, op.written n = n →
      (operation op).Accounted n held (fun _ => held) (.done (n.joined regions) made) := fun hwritten =>
    ⟨n, regions, lost, rfl, h, .refl hwritten⟩
  cases op with
  | acquire x =>
    obtain rfl := Option.some.inj hr
    rw [Operation.outcome, acquire_of_arena ho' harena]
    exact hsame rfl
  | release x =>
    obtain rfl := Option.some.inj hr
    rw [Operation.outcome, release_of_arena ho' harena]
    exact hsame rfl
  | defer x =>
    obtain rfl := Option.some.inj hr
    have hdefer := accounted_defer h x fun hnone => absurd (hnone.symm.trans ho) (by simp)
    rwa [ho] at hdefer
  | setField x index target =>
    obtain rfl := Option.some.inj hr
    exact accounted_setField_onArena h ho index target
  | freeze x =>
    obtain rfl := Option.some.inj hr
    rw [Operation.outcome, freeze_of_arena ho' harena]
    exact hsame rfl
  | acquireComponent x =>
    obtain rfl := Option.some.inj hr
    rw [Operation.outcome, acquireComponent_onArena h ho]
    exact ⟨n, regions, lost, rfl, h, .refl rfl⟩
  | freeTree x =>
    obtain rfl := Option.some.inj hr
    rw [Operation.outcome, freeTree_of_arena ho' harena]
    exact hsame rfl
  | releaseScoped x =>
    obtain rfl := Option.some.inj hr
    rw [Operation.outcome, releaseScoped_onArena h ho]
    exact hsame rfl
  | _ => exact absurd hr (by simp [Operation.subject?])

/-! ## Asking of an object that is counted -/

theorem isLive_of_joined (hr : regions.objects r = none) (hlive : (n.joined regions).isLive r = true) :
    n.isLive r = true := by
  rwa [isLive, object?_joined_of_none hr] at hlive

/-- What is allowed with arenas beside memory is allowed without them, if it concerns none of their objects. -/
theorem allowed_of_joined {op : Operation} (h : Divided n regions held lost)
    (hop : op.Allowed (n.joined regions) held) (hsubject : ∀ r, op.subject? = some r → regions.objects r = none)
    (htarget : ∀ r index t, op = .setField r index (some t) → regions.objects t = none) : op.Allowed n held := by
  cases op with
  | acquire r =>
    have hr := object?_joined_of_none (n := n) (hsubject r rfl)
    exact ⟨isLive_of_joined (hsubject r rfl) hop.1, fun o ho => hop.2 o (hr.trans ho)⟩
  | acquireComponent r => exact isLive_of_joined (hsubject r rfl) hop
  | setField r index target =>
    refine ⟨isLive_of_joined (hsubject r rfl) hop.1, fun t ht => ?_⟩
    subst ht
    have hnone := htarget r index t rfl
    obtain ⟨hlive, hrefer⟩ := hop.2 t rfl
    refine ⟨isLive_of_joined hnone hlive, fun o f ho hfrozen hf hweak o' ho' => ?_⟩
    exact hrefer o f ((object?_joined_of_none (hsubject r rfl)).trans ho) hfrozen hf hweak o'
      ((object?_joined_of_none hnone).trans ho')
  | freeze r =>
    obtain ⟨hlive, hfits, hroom⟩ := hop
    rw [cyclesFrom_joined h.apart] at hfits hroom
    refine ⟨isLive_of_joined (hsubject r rfl) hlive, fun g hg => ?_, hroom⟩
    have hnone := objects_eq_none_of_mem_cyclesFrom h.apart hg
    have hfit := hfits g hg
    rwa [totalCount_joined hnone, innerReferences_joined hnone] at hfit
  | freeTree r =>
    refine ⟨hop.1, fun hplain => ?_⟩
    have hplain' : (n.joined regions).isPlain r = true := by
      rwa [isPlain, object?_joined_of_none (hsubject r rfl)]
    obtain ⟨hdeferred, hrefs⟩ := hop.2 hplain'
    refine ⟨fun hmem => hdeferred ?_, fun hmem => hrefs ?_⟩
    · rw [h.deferred] at hmem
      exact (List.mem_filter.1 hmem).1
    · obtain ⟨x, hx⟩ := mem_references.1 hmem
      obtain ⟨o, ho⟩ := isLive_iff.1 (isLive_of_mem_strongTargets hx)
      exact mem_references.2 ⟨x, by rwa [strongTargets_joined (objects_eq_none h.apart ho)]⟩
  | release r => exact hop
  | defer r => exact hop
  | releaseScoped r => exact hop
  | _ => exact hop

theorem heldAfter_joined {op : Operation} (hsubject : ∀ r, op.subject? = some r → regions.objects r = none)
    (made : Option Ref) : op.heldAfter (n.joined regions) held made = op.heldAfter n held made := by
  cases op with
  | freeTree r =>
    have hplain : (n.joined regions).isPlain r = n.isPlain r := by
      rw [isPlain, isPlain, object?_joined_of_none (hsubject r rfl)]
    rw [Operation.heldAfter, Operation.heldAfter, hplain]
  | _ => rfl

theorem divided_of_effect {op : Operation} {held' lost' : Multiset Ref} (h : Divided n regions held lost)
    (heffect : op.Effect n n') (hn : n'.Consistent held' lost') : Divided n' regions held' lost' := by
  have hkept : n'.arenas = n.arenas ∧ n'.deferred = n.deferred := by
    cases heffect with
    | changed hchanges =>
      have hkept := (Operation.kept_written n op).trans hchanges.kept
      exact ⟨hkept.arenas, hkept.deferred⟩
    | placed _ hplaced => exact ⟨hplaced.arenas, hplaced.deferred⟩
  refine ⟨h.apart.of_effect heffect, ?_, hn, ?_⟩
  · rw [hkept.1]
    exact h.listed
  · rw [hkept.2]
    exact h.deferred

theorem Advance.of_effect {op : Operation} (h : op.Effect n n') : (operation op).Advance n n' := by
  cases h with
  | placed hwritten hplaced => exact .placed hwritten hplaced
  | changed hchanges =>
    refine .changed (op.written n).deferred ?_
    exact hchanges

/-- An operation that has to do neither with objects in arenas nor with decrements that wait. -/
theorem accounted_operation {op : Operation} (h : Divided n regions held lost) (hop : op.Allowed n held)
    (hqueue : op.isQueued = false) :
    (operation op).Accounted n held (op.heldAfter n held) (op.outcome (n.joined regions)) := by
  have hsound := (Operation.sound h.consistent hop).accounted
  have heffect : ∀ m', (op.outcome n).memory? = some m' → op.Effect n m' := fun _ =>
    Operation.effect h.consistent hop hqueue
  rw [Operation.outcome_joined h.consistent h.apart hop hqueue]
  cases hout : op.outcome n with
  | done m' made =>
    rw [hout] at hsound heffect
    obtain ⟨lost', hm'⟩ := hsound
    exact ⟨m', regions, lost', rfl, divided_of_effect h (heffect m' rfl) hm', .of_effect (heffect m' rfl)⟩
  | refused m' fault =>
    rw [hout] at hsound heffect
    obtain ⟨lost', hm'⟩ := hsound
    exact ⟨m', regions, lost', rfl, divided_of_effect h (heffect m' rfl) hm', .of_effect (heffect m' rfl)⟩
  | broken =>
    rw [hout] at hsound
    exact hsound
  | outOfMemory => trivial

/-- A counted object may not refer to one in an arena. -/
theorem fieldFault?_across (h : Divided n regions held lost) (ho : n.object? r = some o) (index : Nat) {t : Ref}
    {o' : Object} (ht : regions.objects t = some o') :
    ∃ fault, (n.joined regions).fieldFault? o index (some t) = some fault := by
  rcases Operation.fieldFault?_cases (n.joined regions) o index (some t) with hfault | ⟨hwritable, -⟩
  · exact hfault
  · obtain ⟨o'', ho'', hsame⟩ := target_of_writable hwritable
    obtain rfl := Option.some.inj ((object?_joined_of_some h.apart ht).symm.trans ho'')
    have harena := h.apart.arena t o' ht
    rw [← hsame, h.consistent.tidy.no_arena r o ho] at harena
    exact absurd harena (by decide)

theorem accounted_setField_across (h : Divided n regions held lost) (ho : n.object? r = some o) (index : Nat)
    {t : Ref} {o' : Object} (ht : regions.objects t = some o') :
    (operation (.setField r index (some t))).Accounted n held (fun _ => held)
      ((Operation.setField r index (some t)).outcome (n.joined regions)) := by
  have hwritten : (operation (.setField r index (some t))).written n = n := by
    rw [Command.written, Operation.written, ho]
    dsimp only
    rcases Operation.fieldFault?_cases n o index (some t) with ⟨fault, hf⟩ | ⟨hwritable, -⟩
    · rw [hf]
      rfl
    · obtain ⟨o'', ho'', -⟩ := target_of_writable hwritable
      exact absurd ((h.apart.empty t o' ht).symm.trans ho'') (by simp)
  obtain ⟨fault, hfault⟩ := fieldFault?_across h ho index ht
  rw [Operation.outcome, Memory.setField, object?_joined h.apart ho]
  dsimp only
  rw [hfault]
  exact ⟨n, regions, lost, rfl, h, .refl hwritten⟩

/-! ## All commands -/

/-- An operation that is allowed is asked of an object in an arena, or to write a reference to one into an object that
is counted, or it is allowed without arenas. -/
theorem allowed_cases {op : Operation} (h : Divided n regions held lost)
    (hop : (operation op).Allowed (n.joined regions) held) :
    op.isOnArena (n.joined regions) = true ∨
      op.isOnArena (n.joined regions) = false ∧ (∀ r, op.subject? = some r → regions.objects r = none) ∧
        ((∃ r index t o o', op = .setField r index (some t) ∧ n.object? r = some o ∧ regions.objects t = some o') ∨
          op.Allowed n held) := by
  by_cases hon : op.isOnArena (n.joined regions) = true
  · exact .inl hon
  · have hop := hop.resolve_left hon
    have hsubject : ∀ r, op.subject? = some r → regions.objects r = none := fun r hr => by
      rw [Option.eq_none_iff_forall_ne_some]
      exact fun o ho => hon ((isOnArena_iff h).2 ⟨r, o, hr, ho⟩)
    refine .inr ⟨by simpa using hon, hsubject, ?_⟩
    by_cases hacross : ∃ r index t o', op = .setField r index (some t) ∧ regions.objects t = some o'
    · obtain ⟨r, index, t, o', rfl, ht⟩ := hacross
      obtain ⟨o, ho⟩ := isLive_iff.1 (isLive_of_joined (hsubject r rfl) hop.1)
      exact .inl ⟨r, index, t, o, o', rfl, ho, ht⟩
    · refine .inr (allowed_of_joined h hop hsubject fun r index t he => ?_)
      rw [Option.eq_none_iff_forall_ne_some]
      exact fun o' ho' => hacross ⟨r, index, t, o', he, ho'⟩

/-- An operation that is allowed. -/
theorem accounted_op {op : Operation} (h : Divided n regions held lost)
    (hop : (operation op).Allowed (n.joined regions) held) :
    (operation op).Accounted n held ((operation op).heldAfter (n.joined regions) held)
      ((operation op).outcome (n.joined regions)) := by
  have hafter : (operation op).heldAfter (n.joined regions) held = fun made =>
      if op.isOnArena (n.joined regions) then held else op.heldAfter (n.joined regions) held made := rfl
  rw [hafter]
  rcases allowed_cases h hop with hon | ⟨hoff, hsubject, ⟨r, index, t, o, o', rfl, ho, ht⟩ | hop'⟩
  · simp only [hon, if_true]
    exact accounted_onArena h hon
  · simp only [hoff, Bool.false_eq_true, if_false]
    exact accounted_setField_across h ho index ht
  · have hheld : op.heldAfter (n.joined regions) held = op.heldAfter n held :=
      funext (heldAfter_joined hsubject)
    simp only [hoff, Bool.false_eq_true, if_false]
    cases hqueue : op.isQueued with
    | false =>
      rw [hheld]
      exact accounted_operation h hop' hqueue
    | true =>
      cases op with
      | defer r =>
        have hdefer := accounted_defer h r fun _ => hop'
        rwa [hsubject r rfl] at hdefer
      | safePoint => exact accounted_applyDeferred h rfl _
      | drain => exact accounted_applyDeferred h rfl _
      | _ => exact absurd hqueue (by simp [Operation.isQueued])

/-! ### Asking of arenas -/

variable {id : ArenaId} {a a' : Arena}

/-- An arena is replaced by one with the same objects. -/
theorem accounted_set (h : Divided n regions held lost) (ha : n.arenas[id]? = some a)
    (hobjects : a'.objects = a.objects) (hdestroyed : a'.destroyed = a.destroyed) (hc : c.concernsArena = true)
    (made : Option Ref) : c.Accounted n held (fun _ => held) (.done ((n.joined regions).setArena id a') made) :=
  ⟨_, regions, lost, rfl, h.of_arenas _ n.stats (h.listed.set ha hobjects hdestroyed),
    .beside hc (.of_arenas n _ n.stats.arenasDestroyed)⟩

theorem accounted_same (h : Divided n regions held lost) (hc : c.concernsArena = true) (made : Option Ref) :
    c.Accounted n held (fun _ => held) (.done (n.joined regions) made) :=
  ⟨n, regions, lost, rfl, h, .refl (written_of_concernsArena hc n)⟩

theorem accounted_refused (h : Divided n regions held lost) (hc : c.concernsArena = true) (fault : Fault) :
    c.Accounted n held after (.refused (n.joined regions) fault) :=
  ⟨n, regions, lost, rfl, h, .refl (written_of_concernsArena hc n)⟩

theorem target?_of_isBlank (h : o.toObjectSpec.IsBlank) (i : Nat) : o.target? i = none := by
  unfold Object.target?
  cases hf : o.fields[i]? with
  | none => rfl
  | some f => exact Object.target_of_isBlank h (List.mem_of_getElem? hf)

theorem accounted_allocateFields (h : Divided n regions held lost) (hc : c.concernsArena = true) (id : ArenaId)
    (tag : TypeTag) (weak : List Bool) : c.Accounted n held (fun _ => held)
      (((n.joined regions).allocateFields id tag weak).bind fun m r => .done m (some r)) := by
  unfold Memory.allocateFields
  rw [show (n.joined regions).arenas = n.arenas from rfl]
  cases ha : n.arenas[id]? with
  | none => exact accounted_refused h hc _
  | some a =>
    dsimp only
    cases hreserve : a.reserve weak.length with
    | error fault => exact accounted_refused h hc _
    | ok a' =>
      dsimp only
      rw [size_joined, show (n.joined regions).machine = n.machine from rfl]
      by_cases hexceeds : (a.store.opened? a'.store).any (!n.machine.grants n.cells.size ·) = true
      · rw [if_pos hexceeds]
        trivial
      · obtain ⟨hopen, store, rfl⟩ := Arena.eq_of_reserve hreserve
        rw [if_neg hexceeds, place_joined_put]
        have hopen' : ({ a with store, objects := n.cells.size :: a.objects } : Arena).destroyed = false := hopen
        refine ⟨_, _, lost, rfl, h.put ha (by rfl) hopen' rfl rfl rfl rfl fun i => ?_, .beside hc ?_⟩
        · exact target?_of_isBlank (ObjectSpec.isBlank_ofFlags tag weak false false) i
        · exact ⟨object?_addCell n, rfl, rfl, rfl, rfl, _, rfl⟩

/-- An arena is emptied, and no decrement waits for what was in it. -/
theorem divided_emptyArena (h : Divided n regions held lost) (ha : n.arenas[id]? = some a)
    (hlive : ∀ x ∈ regions.deferred, ((n.joined regions).emptyArena id a).isLive x = true) :
    ∃ n' regions', (n.joined regions).emptyArena id a = n'.joined regions' ∧ Divided n' regions' held lost ∧
      n.Beside n' := by
  have hempty := h.emptyArena_joined ha
  refine ⟨_, _, hempty, h.without ha rfl fun x hx hmem => ?_, .of_arenas n _ n.stats.arenasDestroyed⟩
  have hx' := hlive x hx
  rw [hempty, isLive, object?_joined_of_none] at hx'
  · have hnone : n.object? x = none := h.object?_of_mem ha hmem
    rw [show ({ n with arenas := n.arenas.setIfInBounds id a.emptied } : Memory).object? x = n.object? x from rfl,
      hnone] at hx'
    exact absurd hx' (by decide)
  · rw [Regions.objects_without, if_pos hmem]

/-- Destroying an arena is refused or done. -/
theorem divided_destroyArena (h : Divided n regions held lost) (id : ArenaId)
    (hlive : ∀ m k, (n.joined regions).destroyArena id = .done m k → ∀ x ∈ regions.deferred, m.isLive x = true) :
    (∃ fault, (n.joined regions).destroyArena id = .refused (n.joined regions) fault) ∨
      ∃ n' regions' k, (n.joined regions).destroyArena id = .done (n'.joined regions') k ∧
        Divided n' regions' held lost ∧ n.Beside n' := by
  unfold Memory.destroyArena at hlive ⊢
  rw [show (n.joined regions).arenas = n.arenas from rfl] at hlive ⊢
  cases ha : n.arenas[id]? with
  | none => exact .inr ⟨n, regions, 0, rfl, h, .refl n⟩
  | some a =>
    rw [ha] at hlive
    dsimp only at hlive ⊢
    by_cases hout : 0 < a.outstanding
    · rw [if_pos hout]
      exact .inl ⟨_, rfl⟩
    · rw [if_neg hout] at hlive ⊢
      by_cases hdestroyed : a.destroyed = true
      · rw [if_pos hdestroyed]
        exact .inr ⟨n, regions, 0, rfl, h, .refl n⟩
      · rw [if_neg hdestroyed] at hlive ⊢
        have hgone : ∀ x ∈ regions.deferred, ((n.joined regions).emptyArena id a).isLive x = true :=
          fun x hx => hlive _ _ rfl x hx
        obtain ⟨n', regions', he, hdivided, hbeside⟩ := divided_emptyArena h ha hgone
        rw [he]
        exact .inr ⟨{ n' with stats.arenasDestroyed := n'.stats.arenasDestroyed + 1 }, regions', a.chunkCount, rfl,
          hdivided.of_arenas n'.arenas _ hdivided.listed, hbeside.trans (.of_arenas n' n'.arenas _)⟩

theorem accounted_destroyArena (h : Divided n regions held lost) (hc : c.concernsArena = true) (id : ArenaId)
    (hlive : ∀ m k, (n.joined regions).destroyArena id = .done m k → ∀ x ∈ regions.deferred, m.isLive x = true) :
    c.Accounted n held (fun _ => held) (((n.joined regions).destroyArena id).bind fun m _ => .done m none) := by
  rcases divided_destroyArena h id hlive with ⟨fault, he⟩ | ⟨n', regions', k, he, hdivided, hbeside⟩
  · rw [he]
    exact ⟨n, regions, lost, rfl, h, .beside hc (.refl n)⟩
  · rw [he]
    exact ⟨n', regions', lost, rfl, hdivided, .beside hc hbeside⟩

theorem accounted_destroyArenaWhenResolved (h : Divided n regions held lost) (id : ArenaId)
    (hlive : ∀ m', ((destroyArenaWhenResolved id).outcome (n.joined regions)).memory? = some m' →
      ∀ x ∈ regions.deferred, m'.isLive x = true) :
    (destroyArenaWhenResolved id).Accounted n held (fun _ => held)
      ((destroyArenaWhenResolved id).outcome (n.joined regions)) := by
  rw [outcome, Memory.destroyArenaWhenResolved] at hlive ⊢
  rw [show (n.joined regions).arenas = n.arenas from rfl] at hlive ⊢
  cases ha : n.arenas[id]? with
  | none => exact accounted_same h rfl _
  | some a =>
    rw [ha] at hlive
    dsimp only at hlive ⊢
    by_cases hout : 0 < a.outstanding
    · rw [if_pos hout]
      refine accounted_set h ha ?_ ?_ rfl none
      all_goals rfl
    · rw [if_neg hout] at hlive ⊢
      have hlive' : ∀ m k, (n.joined regions).destroyArena id = .done m k →
          ∀ x ∈ regions.deferred, m.isLive x = true := fun m k he => by
        rw [he] at hlive
        exact hlive m rfl
      rcases divided_destroyArena h id hlive' with ⟨fault, he⟩ | ⟨n', regions', k, he, hdivided, hbeside⟩
      · rw [he]
        exact accounted_refused h rfl _
      · rw [he]
        exact ⟨n', regions', lost, rfl, hdivided, .beside rfl hbeside⟩

theorem accounted_resolveExternal (h : Divided n regions held lost) (id : ArenaId) (r : Ref)
    (hlive : ∀ m', ((resolveExternal id r).outcome (n.joined regions)).memory? = some m' →
      ∀ x ∈ regions.deferred, m'.isLive x = true) :
    (resolveExternal id r).Accounted n held (fun _ => held) ((resolveExternal id r).outcome (n.joined regions)) := by
  rw [outcome, Memory.resolveExternal] at hlive ⊢
  rw [show (n.joined regions).arenas = n.arenas from rfl] at hlive ⊢
  cases ha : n.arenas[id]? with
  | none => exact accounted_refused h rfl _
  | some a =>
    rw [ha] at hlive
    dsimp only at hlive ⊢
    cases hr : a.externals.lower? r with
    | none => exact accounted_refused h rfl _
    | some externals =>
      rw [hr] at hlive
      dsimp only at hlive ⊢
      -- with the reference resolved the arena may be destroyed
      have hresolved : ∀ a' : Arena, a'.objects = a.objects → a'.destroyed = a.destroyed → ∃ n₁,
          (n.joined regions).setArena id a' = n₁.joined regions ∧ Divided n₁ regions held lost ∧ n.Beside n₁ :=
        fun a' hobjects hdestroyed => ⟨{ n with arenas := n.arenas.setIfInBounds id a' }, rfl,
          h.of_arenas _ n.stats (h.listed.set ha hobjects hdestroyed), .of_arenas n _ n.stats.arenasDestroyed⟩
      obtain ⟨n₁, he, hdivided, hbeside⟩ := hresolved { a with externals } rfl rfl
      rw [he] at hlive ⊢
      split
      · next hdue =>
        rw [if_pos hdue] at hlive
        have hlive' : ∀ m k, (n₁.joined regions).destroyArena id = .done m k →
            ∀ x ∈ regions.deferred, m.isLive x = true := fun m k he => by
          rw [he] at hlive
          exact hlive m rfl
        rcases divided_destroyArena hdivided id hlive' with ⟨fault, hd⟩ | ⟨n', regions', k, hd, hdivided', hbeside'⟩
        · rw [hd]
          exact ⟨n₁, regions, lost, rfl, hdivided, .beside rfl hbeside⟩
        · rw [hd]
          exact ⟨n', regions', lost, rfl, hdivided', .beside rfl (hbeside.trans hbeside')⟩
      · exact ⟨n₁, regions, lost, rfl, hdivided, .beside rfl hbeside⟩

theorem accounted_abandonArena (h : Divided n regions held lost) (id : ArenaId)
    (hlive : ∀ x ∈ regions.deferred, ((n.joined regions).abandonArena id).isLive x = true) :
    (abandonArena id).Accounted n held (fun _ => held) ((abandonArena id).outcome (n.joined regions)) := by
  rw [outcome]
  unfold Memory.abandonArena at hlive ⊢
  rw [show (n.joined regions).arenas = n.arenas from rfl] at hlive ⊢
  cases ha : n.arenas[id]? with
  | none => exact accounted_same h rfl _
  | some a =>
    rw [ha] at hlive
    dsimp only at hlive ⊢
    by_cases hdestroyed : a.destroyed = true
    · rw [if_pos hdestroyed]
      exact accounted_same h rfl _
    · rw [if_neg hdestroyed] at hlive ⊢
      obtain ⟨n', regions', he, hdivided, hbeside⟩ := divided_emptyArena h ha hlive
      rw [he]
      exact ⟨n', regions', lost, rfl, hdivided, .beside rfl hbeside⟩

/-- A command that is allowed leaves memory whose parts fit, if it is carried out or refused, and takes no count below
zero. -/
theorem sound (h : Divided n regions held lost) (hc : c.Allowed (n.joined regions) held) :
    c.Accounted n held (c.heldAfter (n.joined regions) held) (c.outcome (n.joined regions)) := by
  cases c with
  | operation op => exact accounted_op h hc
  | newArena =>
    have harenas := h.of_arenas (n.arenas.push (.ofLimits n.config.arena)) n.stats (h.listed.push rfl)
    refine ⟨_, regions, lost, rfl, harenas, ?_⟩
    exact .beside rfl (.of_arenas n _ n.stats.arenasDestroyed)
  | allocateFields id tag weak => exact accounted_allocateFields h rfl id tag weak
  | allocateInArena id tag =>
    rw [outcome, Memory.allocateInArena]
    rw [show (n.joined regions).layout tag = n.layout tag from rfl]
    cases n.layout tag with
    | error fault => exact accounted_refused h rfl fault
    | ok l => exact accounted_allocateFields h rfl id tag l.weakFlags
  | registerExternal id r =>
    rw [outcome, Memory.registerExternal]
    rw [show (n.joined regions).arenas = n.arenas from rfl]
    cases ha : n.arenas[id]? with
    | none => exact accounted_refused h rfl _
    | some a =>
      dsimp only
      split
      · refine accounted_set h ha ?_ ?_ rfl none
        all_goals rfl
      · exact accounted_refused h rfl _
  | resolveExternal id r => exact accounted_resolveExternal h id r hc
  | destroyArena id =>
    refine accounted_destroyArena h rfl id fun m k he => hc m ?_
    rw [outcome, he]
    rfl
  | destroyArenaWhenResolved id => exact accounted_destroyArenaWhenResolved h id hc
  | abandonArena id => exact accounted_abandonArena h id (hc _ rfl)

/-- What a command that is carried out or refused makes of memory. -/
theorem advance (h : Divided n regions held lost) (hc : c.Allowed (n.joined regions) held) {m' : Memory}
    (hout : (c.outcome (n.joined regions)).memory? = some m') : ∃ n' regions' held' lost',
      m' = n'.joined regions' ∧ Divided n' regions' held' lost' ∧ c.Advance n n' := by
  have haccounted := sound h hc
  cases houtcome : c.outcome (n.joined regions) with
  | done m made =>
    rw [houtcome] at hout haccounted
    obtain rfl := Option.some.inj hout
    obtain ⟨n', regions', lost', he, hdivided, hadvance⟩ := haccounted
    exact ⟨n', regions', _, lost', he, hdivided, hadvance⟩
  | refused m fault =>
    rw [houtcome] at hout haccounted
    obtain rfl := Option.some.inj hout
    obtain ⟨n', regions', lost', he, hdivided, hadvance⟩ := haccounted
    exact ⟨n', regions', _, lost', he, hdivided, hadvance⟩
  | broken =>
    rw [houtcome] at haccounted
    exact haccounted.elim
  | outOfMemory =>
    rw [houtcome] at hout
    exact absurd hout (by simp [Outcome.memory?])

end Command

end Reclamation
