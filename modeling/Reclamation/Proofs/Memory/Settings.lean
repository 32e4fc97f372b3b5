import Mathlib
import Reclamation.Proofs.Memory.Batches
import Reclamation.Proofs.Memory.Statistics

/-!
# What operations leave alone

Around the objects and components lie the configuration, the secret, the decrements that wait, the arenas and the slot
pool. An operation that has nothing to do with the queue leaves all of it alone, except that slots are given back and
that an allocation takes one (`Operation.setting`). A batch of decrements takes what it applies off the queue
(`applyDeferred_eq`), and what is asked of an arena changes arenas only (`Command.setting_of_concernsArena`). All this
is so in any memory, be it consistent or not.
-/

set_option autoImplicit false

namespace Reclamation

/-- Slots are given back, one after the other. -/
def SlotPool.GivesBack : SlotPool → SlotPool → Prop :=
  Relation.ReflTransGen fun p q => ∃ r, q = p.giveBack r

namespace Memory

variable {m m' m'' : Memory} {r : Ref}

/-- The setting of the objects is the same, but for slots that are given back. -/
structure SameSetting (m m' : Memory) : Prop where
  config : m'.config = m.config
  secret : m'.secret = m.secret
  deferred : m'.deferred = m.deferred
  arenas : m'.arenas = m.arenas
  deferredApplied : m'.stats.deferredApplied = m.stats.deferredApplied
  arenasDestroyed : m'.stats.arenasDestroyed = m.stats.arenasDestroyed
  pool : m.pool.GivesBack m'.pool

namespace SameSetting

theorem refl (m : Memory) : SameSetting m m :=
  ⟨rfl, rfl, rfl, rfl, rfl, rfl, .refl⟩

theorem trans (h : SameSetting m m') (h' : SameSetting m' m'') : SameSetting m m'' :=
  ⟨h'.config.trans h.config, h'.secret.trans h.secret, h'.deferred.trans h.deferred, h'.arenas.trans h.arenas,
    h'.deferredApplied.trans h.deferredApplied, h'.arenasDestroyed.trans h.arenasDestroyed, h.pool.trans h'.pool⟩

theorem of_recounted (h : Recounted m m') : SameSetting m m' where
  config := h.aside.config
  secret := h.aside.secret
  deferred := h.aside.deferred
  arenas := h.aside.arenas
  deferredApplied := by rw [h.stats]
  arenasDestroyed := by rw [h.stats]
  pool := h.pool ▸ .refl

/-! ## Taking objects out -/

theorem vacate (m : Memory) (r : Ref) (origin : Origin) : SameSetting m (m.vacate r origin) := by
  unfold Memory.vacate
  cases origin with
  | heap => exact ⟨rfl, rfl, rfl, rfl, rfl, rfl, .refl⟩
  | slot => exact ⟨rfl, rfl, rfl, rfl, rfl, rfl, .single ⟨r, rfl⟩⟩
  | arena id => exact ⟨rfl, rfl, rfl, rfl, rfl, rfl, .refl⟩

theorem clearReferrers (m : Memory) (r : Ref) : SameSetting m (m.clearReferrers r) := by
  unfold Memory.clearReferrers
  refine List.foldlRecOn (motive := fun n : Memory => SameSetting m n) _ _
    ⟨rfl, rfl, rfl, rfl, rfl, rfl, .refl⟩ fun n hn f _ => ?_
  exact hn.trans ⟨rfl, rfl, rfl, rfl, rfl, rfl, .refl⟩

theorem remove (m : Memory) (r : Ref) : SameSetting m (m.remove r) := by
  unfold Memory.remove
  cases m.object? r with
  | none => exact .refl m
  | some o =>
    obtain ⟨referrers, he⟩ := unwatchAll_eq r o.weakTargets (m.clearReferrers r)
    have hunwatched : SameSetting m { m.clearReferrers r with referrers } :=
      (clearReferrers m r).trans ⟨rfl, rfl, rfl, rfl, rfl, rfl, .refl⟩
    dsimp only
    rw [he]
    exact hunwatched.trans (vacate _ r o.origin)

theorem removeAll (group : List Ref) (m : Memory) : SameSetting m (group.foldl Memory.remove m) :=
  List.foldlRecOn group _ (.refl m) fun n hn r _ => hn.trans (remove n r)

end SameSetting

end Memory

/-! ## Releases -/

namespace Release

open Memory

variable {s t : Release} {m m' : Memory} {α : Type} {value : Release → α} {s? : Option Release}

theorem setting_discard {group : List Ref} (h : s.discard group = some t) : SameSetting s.memory t.memory := by
  exact (SameSetting.removeAll group s.memory).trans (.of_recounted (recounted_discard h))

theorem Step.setting (h : Step s t) : SameSetting s.memory t.memory := by
  cases h with
  | @object _ r work _ hd => exact setting_discard (s := { s with work }) hd
  | @component _ id work _ _ hd =>
    obtain ⟨u, hu, rfl⟩ := Option.map_eq_some_iff.1 hd
    have htaken : SameSetting s.memory { s.memory with components := s.memory.components.take id } :=
      ⟨rfl, rfl, rfl, rfl, rfl, rfl, .refl⟩
    exact (htaken.trans (setting_discard hu)).trans ⟨rfl, rfl, rfl, rfl, rfl, rfl, .refl⟩
  | ended => exact .refl s.memory
  | orphans _ _ hd => exact setting_discard (s := { s with candidates := [] }) hd

theorem Steps.setting (h : Steps s t) : SameSetting s.memory t.memory := by
  induction h with
  | refl => exact .refl s.memory
  | tail _ hstep ih => exact ih.trans hstep.setting

theorem setting_run (h : s.run = some t) : SameSetting s.memory t.memory :=
  (steps_of_run h).1.setting

theorem setting_freezeAll : ∀ (groups : List (List Ref)) (s : Release),
    SameSetting s.memory (freezeAll groups s).1.memory := by
  intro groups
  induction groups with
  | nil => exact fun s => .refl s.memory
  | cons g groups ih =>
    intro s
    rcases freezeAll_cons g groups s with ⟨fault, he⟩ | ⟨components, id, -, he⟩
    · rw [he]
      exact .refl s.memory
    · have hfrozen : SameSetting s.memory (s.frozen g components id).memory := by
        unfold frozen
        rw [markFrozen_eq]
        exact ⟨rfl, rfl, rfl, rfl, rfl, rfl, .refl⟩
      rw [he]
      exact hfrozen.trans (ih _)

/-- References are given up, and what that starts is carried out. -/
theorem setting_dropRefs {m : Memory} {rs : List Ref} (hs : rs.foldlM dropRef { memory := m } = some s)
    (ht : s.run = some t) : SameSetting m t.memory :=
  (SameSetting.of_recounted (recounted_foldlM recounted_dropRef hs)).trans (setting_run ht)

/-- What comes of a release whose start leaves the setting alone. -/
theorem setting_ofRelease (hstart : ∀ s, s? = some s → SameSetting m s.memory)
    (h : (Outcome.ofRelease value (s?.bind run)).memory? = some m') : SameSetting m m' := by
  cases hs : s? with
  | none =>
    rw [hs] at h
    exact absurd h (by simp [Outcome.ofRelease, Outcome.memory?])
  | some s =>
    rw [hs, Option.bind_some] at h
    cases ht : s.run with
    | none =>
      rw [ht] at h
      exact absurd h (by simp [Outcome.ofRelease, Outcome.memory?])
    | some t =>
      rw [ht] at h
      obtain rfl := Option.some.inj h
      exact (hstart s hs).trans (setting_run ht)

end Release

/-! ## Operations -/

namespace Memory

variable {m m' : Memory} {r : Ref} {spec : ObjectSpec}

theorem setting_release (h : (m.release r).memory? = some m') : SameSetting m m' :=
  Release.setting_ofRelease (fun _ hs => .of_recounted (Release.recounted_dropRef hs)) h

theorem setting_freeTree (h : (m.freeTree r).memory? = some m') : SameSetting m m' := by
  unfold freeTree at h
  split at h
  · obtain rfl := Option.some.inj h
    exact .refl m
  · split at h
    · obtain rfl := Option.some.inj h
      exact .refl m
    · split at h
      · exact setting_release h
      · have hdoomed : ∀ s, some ({ memory := m, work := [.object r] } : Release) = some s →
            SameSetting m s.memory := by
          intro s hs
          obtain rfl := Option.some.inj hs
          exact .refl m
        exact Release.setting_ofRelease hdoomed h

theorem setting_setField {index : Nat} {target : Option Ref} (h : (m.setField r index target).memory? = some m') :
    SameSetting m m' := by
  have hwritten : ∀ n : Memory, SameSetting n (n.update r (·.setTarget index target)) := fun n =>
    ⟨rfl, rfl, rfl, rfl, rfl, rfl, .refl⟩
  unfold setField at h
  split at h
  · obtain rfl := Option.some.inj h
    exact .refl m
  · next o ho =>
    split at h
    · obtain rfl := Option.some.inj h
      exact .refl m
    · dsimp only at h
      split at h
      · obtain rfl := Option.some.inj h
        exact hwritten m
      · split at h
        · obtain rfl := Option.some.inj h
          unfold writeWeak
          cases o.target? index <;> cases target <;> exact ⟨rfl, rfl, rfl, rfl, rfl, rfl, .refl⟩
        · rw [writeStrong_eq] at h
          refine Release.setting_ofRelease (fun s hs => ?_) h
          have hacquired : SameSetting m (target.elim m m.acquireEdge) := by
            cases target with
            | none => exact .refl m
            | some t => exact .of_recounted (recounted_acquireEdge m t)
          unfold strongRelease at hs
          cases hold : o.target? index with
          | none =>
            rw [hold] at hs
            obtain rfl := Option.some.inj hs
            exact hacquired.trans (hwritten _)
          | some old =>
            rw [hold] at hs
            exact (hacquired.trans (hwritten _)).trans (.of_recounted (Release.recounted_dropEdge hs))

theorem setting_freeze (h : (m.freeze r).memory? = some m') : SameSetting m m' := by
  unfold freeze at h
  dsimp only at h
  have hall := Release.setting_freezeAll (m.cyclesFrom r) { memory := m }
  split at h
  · exact absurd h (by simp [Outcome.memory?])
  · next s hs _ =>
    obtain rfl := Option.some.inj h
    exact hall.trans (Release.setting_run hs)
  · next s fault hs _ =>
    obtain rfl := Option.some.inj h
    exact hall.trans (Release.setting_run hs)

theorem setting_acquireComponent (h : (m.acquireComponent r).memory? = some m') : SameSetting m m' := by
  unfold acquireComponent at h
  split at h
  · obtain rfl := Option.some.inj h
    exact .refl m
  · obtain rfl := Option.some.inj h
    exact .of_recounted (recounted_acquire m r)

theorem setting_exitScopeIn {entries : Scope} (h : (m.exitScopeIn entries).memory? = some m') : SameSetting m m' := by
  unfold exitScopeIn at h
  split at h
  · obtain rfl := Option.some.inj h
    exact .refl m
  · next scope scopes _ =>
    refine Release.setting_ofRelease (fun s hs => ?_) h
    have hclosed : SameSetting m { m with scopes } := ⟨rfl, rfl, rfl, rfl, rfl, rfl, .refl⟩
    exact hclosed.trans (.of_recounted (Release.recounted_foldlM Release.recounted_dropRef hs))

theorem setting_releaseScoped (h : (m.releaseScoped r).memory? = some m') : SameSetting m m' := by
  have hdisowned : SameSetting m { m with scopes := m.disown r m.scopes } := ⟨rfl, rfl, rfl, rfl, rfl, rfl, .refl⟩
  exact hdisowned.trans (setting_release h)

/-! ### Allocating -/

/-- Memory once the pool was asked for a slot. -/
def asked (m : Memory) : Memory :=
  { m with pool := (m.pool.take (m.cells.size + 1)).1 }

theorem setting_allocateSlot (h : (m.allocateSlot spec).memory? = some m') :
    SameSetting m m' ∨ SameSetting m.asked m' := by
  rcases m.allocateSlot_cases spec with he | ⟨fault, -, he⟩ | ⟨r, -, he⟩
  · rw [he] at h
    exact absurd h (by simp [Outcome.memory?])
  · rw [he] at h
    obtain rfl := Option.some.inj h
    exact .inr (.refl _)
  · rw [he] at h
    obtain rfl := Option.some.inj h
    exact .inr ⟨rfl, rfl, rfl, rfl, rfl, rfl, .refl⟩

theorem setting_allocateScoped (h : (m.allocateScoped spec).memory? = some m') :
    SameSetting m m' ∨ SameSetting m.asked m' := by
  unfold allocateScoped at h
  split at h
  · obtain rfl := Option.some.inj h
    exact .inl (.refl m)
  · next scope scopes _ =>
    have hallocate := fun n => @setting_allocateSlot m n { spec with symmetric := true }
    cases hallocated : m.allocateSlot { spec with symmetric := true } with
    | done n r =>
      have hn := hallocate n (by rw [hallocated]; rfl)
      rw [hallocated, Outcome.bind] at h
      have hm' : SameSetting n m' := by
        split at h
        · obtain rfl := Option.some.inj h
          exact ⟨rfl, rfl, rfl, rfl, rfl, rfl, .refl⟩
        · obtain rfl := Option.some.inj h
          exact .refl n
      exact hn.imp (·.trans hm') (·.trans hm')
    | refused n fault =>
      have hn := hallocate n (by rw [hallocated]; rfl)
      rw [hallocated] at h
      obtain rfl := Option.some.inj h
      exact hn
    | broken =>
      rw [hallocated] at h
      exact absurd h (by simp [Outcome.bind, Outcome.memory?])
    | outOfMemory =>
      rw [hallocated] at h
      exact absurd h (by simp [Outcome.bind, Outcome.memory?])

/-- An allocation for a registered type is refused or is that of what the layout asks for. -/
theorem setting_of_spec {tag : TypeTag} (next : ObjectSpec → Outcome Ref)
    (hnext : ∀ spec, (next spec).memory? = some m' → SameSetting m m' ∨ SameSetting m.asked m')
    (h : Outcome.memory? (match m.spec tag with | .error fault => .refused m fault | .ok spec => next spec) =
      some m') : SameSetting m m' ∨ SameSetting m.asked m' := by
  split at h
  · obtain rfl := Option.some.inj h
    exact .inl (.refl m)
  · exact hnext _ h

end Memory

namespace Operation

open Memory

variable {m m' : Memory}

/-- An operation that has nothing to do with the queue leaves the setting alone, once a slot is taken if it needs
one. -/
theorem setting {op : Operation} (hqueue : op.isQueued = false) (h : (op.outcome m).memory? = some m') :
    SameSetting m m' ∨ SameSetting m.asked m' := by
  cases op with
  | registerType tag layout =>
    obtain rfl := Option.some.inj h
    exact .inl ⟨rfl, rfl, rfl, rfl, rfl, rfl, .refl⟩
  | allocate spec =>
    obtain rfl := Option.some.inj h
    exact .inl ⟨rfl, rfl, rfl, rfl, rfl, rfl, .refl⟩
  | allocateType tag shared =>
    rw [outcome, Outcome.memory?_bind_done] at h
    refine setting_of_spec (fun spec => .done (m.allocate { spec with shared }).1
      (m.allocate { spec with shared }).2) (fun spec hnext => ?_) h
    obtain rfl := Option.some.inj hnext
    exact .inl ⟨rfl, rfl, rfl, rfl, rfl, rfl, .refl⟩
  | allocateSlot spec =>
    rw [outcome, Outcome.memory?_bind_done] at h
    exact setting_allocateSlot h
  | allocateSlotType tag shared =>
    rw [outcome, Outcome.memory?_bind_done] at h
    exact setting_of_spec (fun spec => m.allocateSlot { spec with shared })
      (fun _ => setting_allocateSlot) h
  | acquire r =>
    obtain rfl := Option.some.inj h
    exact .inl (.of_recounted (recounted_acquire m r))
  | release r =>
    rw [outcome, Outcome.memory?_bind_done] at h
    exact .inl (setting_release h)
  | defer r | safePoint | drain => exact absurd hqueue (by simp [isQueued])
  | setField r index target =>
    rw [outcome, Outcome.memory?_bind_done] at h
    exact .inl (setting_setField h)
  | freeze r =>
    rw [outcome, Outcome.memory?_bind_done] at h
    exact .inl (setting_freeze h)
  | acquireComponent r =>
    rw [outcome, Outcome.memory?_bind_done] at h
    exact .inl (setting_acquireComponent h)
  | freeTree r =>
    rw [outcome, Outcome.memory?_bind_done] at h
    exact .inl (setting_freeTree h)
  | enterScope =>
    obtain rfl := Option.some.inj h
    exact .inl ⟨rfl, rfl, rfl, rfl, rfl, rfl, .refl⟩
  | exitScope =>
    rw [outcome, Outcome.memory?_bind_done] at h
    exact .inl (setting_exitScopeIn h)
  | allocateScoped spec =>
    rw [outcome, Outcome.memory?_bind_done] at h
    exact setting_allocateScoped h
  | allocateScopedType tag shared =>
    rw [outcome, Outcome.memory?_bind_done] at h
    exact setting_of_spec (fun spec => m.allocateScoped { spec with shared })
      (fun _ => setting_allocateScoped) h
  | releaseScoped r =>
    rw [outcome, Outcome.memory?_bind_done] at h
    exact .inl (setting_releaseScoped h)

end Operation

/-! ### The queue -/

namespace Memory

variable {m m' m'' : Memory} {r : Ref} {k : Nat}

/-- The setting is the same but for the decrements that wait and how many of them were applied. -/
def SameButQueue (m m' : Memory) : Prop :=
  SameSetting { m with deferred := m'.deferred, stats.deferredApplied := m'.stats.deferredApplied } m'

theorem SameSetting.sameButQueue (h : SameSetting m m') : m.SameButQueue m' :=
  { h with deferred := rfl, deferredApplied := rfl }

theorem sameButQueue_applyDeferred (h : (m.applyDeferred k).memory? = some m') : m.SameButQueue m' := by
  by_cases hdue : m.deferred.take k = []
  · have hnothing : m.applyDeferred k = .done m 0 := if_pos (by simpa using hdue)
    rw [hnothing] at h
    obtain rfl := Option.some.inj h
    exact SameSetting.refl m
  · rw [applyDeferred_of_ne_nil hdue] at h
    cases hs : (m.deferred.take k).foldlM Release.dropRef { memory := { m with deferred := m.deferred.drop k } } with
    | none =>
      rw [hs] at h
      exact absurd h (by simp [Outcome.ofRelease, Outcome.memory?])
    | some s =>
      cases ht : s.run with
      | none =>
        rw [hs, Option.bind_some, ht] at h
        exact absurd h (by simp [Outcome.ofRelease, Outcome.memory?])
      | some t =>
        rw [hs, Option.bind_some, ht] at h
        obtain rfl := Option.some.inj h
        have hrun := Release.setting_dropRefs hs ht
        exact ⟨hrun.config, hrun.secret, rfl, hrun.arenas, rfl, hrun.arenasDestroyed, hrun.pool⟩

theorem sameButQueue_defer (h : (m.defer r).memory? = some m') : m.SameButQueue m' := by
  unfold defer safePoint at h
  dsimp only at h
  split at h
  · have happlied := sameButQueue_applyDeferred h
    exact ⟨happlied.config, happlied.secret, rfl, happlied.arenas, rfl, happlied.arenasDestroyed, happlied.pool⟩
  · obtain rfl := Option.some.inj h
    exact ⟨rfl, rfl, rfl, rfl, rfl, rfl, .refl⟩

end Memory

namespace Operation

open Memory

variable {m m' : Memory} {op : Operation}

/-- What is asked of the queue leaves the setting alone but for the queue. -/
theorem setting_of_isQueued (hqueue : op.isQueued = true) (h : (op.outcome m).memory? = some m') :
    m.SameButQueue m' := by
  cases op with
  | defer r =>
    rw [outcome, Outcome.memory?_bind_done] at h
    exact sameButQueue_defer h
  | safePoint | drain =>
    rw [outcome, Outcome.memory?_bind_done] at h
    exact sameButQueue_applyDeferred h
  | _ => exact absurd hqueue (by simp [isQueued])

/-- Whatever an operation is about, but for the queue it leaves the setting alone, once a slot is taken if it needs
one. -/
theorem setting_cases (h : (op.outcome m).memory? = some m') : m.SameButQueue m' ∨ m.asked.SameButQueue m' := by
  cases hqueue : op.isQueued with
  | true => exact .inl (setting_of_isQueued hqueue h)
  | false => exact (setting hqueue h).imp SameSetting.sameButQueue SameSetting.sameButQueue

/-- The pool is asked for a slot, if the operation needs one, and slots are given back. -/
theorem pool_changed (h : (op.outcome m).memory? = some m') :
    m.pool.GivesBack m'.pool ∨ m.asked.pool.GivesBack m'.pool :=
  (setting_cases h).imp (·.pool) (·.pool)

/-- No operation touches the secret. -/
theorem secret_kept (h : (op.outcome m).memory? = some m') : m'.secret = m.secret := by
  rcases setting_cases h with hsame | hsame <;> exact hsame.secret

end Operation

/-! ## Arenas -/

namespace Memory

variable {m m' m'' : Memory} {id : ArenaId} {a : Arena} {r : Ref}

/-- The setting is the same but for the arenas and how many of them were destroyed. -/
def SameButArenas (m m' : Memory) : Prop :=
  SameSetting { m with arenas := m'.arenas, stats.arenasDestroyed := m'.stats.arenasDestroyed } m'

namespace SameButArenas

theorem refl (m : Memory) : m.SameButArenas m :=
  SameSetting.refl m

theorem trans (h : m.SameButArenas m') (h' : m'.SameButArenas m'') : m.SameButArenas m'' :=
  ⟨h'.config.trans h.config, h'.secret.trans h.secret, h'.deferred.trans h.deferred, rfl,
    h'.deferredApplied.trans h.deferredApplied, rfl, h.pool.trans h'.pool⟩

theorem setArena (m : Memory) (id : ArenaId) (a : Arena) : m.SameButArenas (m.setArena id a) :=
  ⟨rfl, rfl, rfl, rfl, rfl, rfl, .refl⟩

theorem emptyArena (m : Memory) (id : ArenaId) (a : Arena) : m.SameButArenas (m.emptyArena id a) := by
  have hvacated : m.SameButArenas (a.objects.foldl (fun m r => m.vacate r (.arena id)) m) :=
    List.foldlRecOn a.objects _ (refl m) fun n hn r _ => hn.trans ⟨rfl, rfl, rfl, rfl, rfl, rfl, .refl⟩
  exact hvacated.trans (setArena _ id a.emptied)

theorem destroyArena (h : (m.destroyArena id).memory? = some m') : m.SameButArenas m' := by
  unfold Memory.destroyArena at h
  split at h
  · obtain rfl := Option.some.inj h
    exact refl m
  · next a _ =>
    split at h
    · obtain rfl := Option.some.inj h
      exact refl m
    · split at h
      · obtain rfl := Option.some.inj h
        exact refl m
      · obtain rfl := Option.some.inj h
        exact (emptyArena m id a).trans ⟨rfl, rfl, rfl, rfl, rfl, rfl, .refl⟩

theorem destroyArenaWhenResolved (h : (m.destroyArenaWhenResolved id).memory? = some m') : m.SameButArenas m' := by
  unfold Memory.destroyArenaWhenResolved at h
  split at h
  · obtain rfl := Option.some.inj h
    exact refl m
  · split at h
    · obtain rfl := Option.some.inj h
      exact setArena m id _
    · rw [Outcome.memory?_bind_done] at h
      exact destroyArena h

theorem resolveExternal (h : (m.resolveExternal id r).memory? = some m') : m.SameButArenas m' := by
  unfold Memory.resolveExternal at h
  split at h
  · obtain rfl := Option.some.inj h
    exact refl m
  · split at h
    · obtain rfl := Option.some.inj h
      exact refl m
    · dsimp only at h
      split at h
      · rw [Outcome.memory?_bind_done] at h
        exact (setArena m id _).trans (destroyArena h)
      · obtain rfl := Option.some.inj h
        exact setArena m id _

theorem registerExternal (h : (m.registerExternal id r).memory? = some m') : m.SameButArenas m' := by
  unfold Memory.registerExternal at h
  split at h
  · obtain rfl := Option.some.inj h
    exact refl m
  · split at h
    · obtain rfl := Option.some.inj h
      exact setArena m id _
    · obtain rfl := Option.some.inj h
      exact refl m

theorem allocateFields {tag : TypeTag} {weak : List Bool} (h : (m.allocateFields id tag weak).memory? = some m') :
    m.SameButArenas m' := by
  unfold Memory.allocateFields at h
  split at h
  · obtain rfl := Option.some.inj h
    exact refl m
  · split at h
    · obtain rfl := Option.some.inj h
      exact refl m
    · split at h
      · exact absurd h (by simp [Outcome.memory?])
      · obtain rfl := Option.some.inj h
        exact ⟨rfl, rfl, rfl, rfl, rfl, rfl, .refl⟩

theorem allocateInArena {tag : TypeTag} (h : (m.allocateInArena id tag).memory? = some m') : m.SameButArenas m' := by
  unfold Memory.allocateInArena at h
  split at h
  · obtain rfl := Option.some.inj h
    exact refl m
  · exact allocateFields h

theorem abandonArena (m : Memory) (id : ArenaId) : m.SameButArenas (m.abandonArena id) := by
  unfold Memory.abandonArena
  split
  · exact refl m
  · next a _ =>
    split
    · exact refl m
    · exact emptyArena m id a

end SameButArenas

end Memory

/-- What is asked of an arena leaves the setting alone but for arenas. -/
theorem Command.setting_of_concernsArena {m m' : Memory} {c : Command} (hc : c.concernsArena = true)
    (h : (c.outcome m).memory? = some m') : m.SameButArenas m' := by
  cases c with
  | operation op => exact absurd hc (by simp [concernsArena])
  | newArena =>
    obtain rfl := Option.some.inj h
    exact ⟨rfl, rfl, rfl, rfl, rfl, rfl, .refl⟩
  | allocateFields id tag weak =>
    rw [outcome, Outcome.memory?_bind_done] at h
    exact .allocateFields h
  | allocateInArena id tag =>
    rw [outcome, Outcome.memory?_bind_done] at h
    exact .allocateInArena h
  | registerExternal id r =>
    rw [outcome, Outcome.memory?_bind_done] at h
    exact .registerExternal h
  | resolveExternal id r =>
    rw [outcome, Outcome.memory?_bind_done] at h
    exact .resolveExternal h
  | destroyArena id =>
    rw [outcome, Outcome.memory?_bind_done] at h
    exact .destroyArena h
  | destroyArenaWhenResolved id =>
    rw [outcome, Outcome.memory?_bind_done] at h
    exact .destroyArenaWhenResolved h
  | abandonArena id =>
    obtain rfl := Option.some.inj h
    exact .abandonArena m id

end Reclamation
