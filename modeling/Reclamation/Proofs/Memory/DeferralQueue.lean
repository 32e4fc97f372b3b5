import Mathlib
import Reclamation.Proofs.Memory.Batches
import Reclamation.Proofs.Memory.Settings

/-!
# The queue of decrements

Decrements that were put off wait in a queue. A safe point applies a batch from its front, a drain all that wait, and
one more decrement forces a batch when it fills the queue (`QueueRequest.due`). Batch size and length of the queue may
be configured as anything, zero included; both count as one at least.

What a program puts into the queue and what is applied is written down along its run (`QueueLog`). Nothing but these
three requests touches the queue, so whatever was queued was applied, in its turn and once, or waits
(`queue_conserved`).
-/

set_option autoImplicit false

namespace Reclamation

open Memory

/-! ## Requests -/

/-- What a program can ask of the queue. -/
inductive QueueRequest where
  | defer (r : Ref)
  | safePoint
  | drain

namespace QueueRequest

/-- The operation that makes a request. -/
def operation : QueueRequest → Operation
  | defer r => .defer r
  | safePoint => .safePoint
  | drain => .drain

/-- What a request comes to; the value is how many decrements were applied. -/
def outcome (m : Memory) : QueueRequest → Outcome Nat
  | defer r => m.defer r
  | safePoint => m.safePoint
  | drain => m.drain

/-- What a request puts into the queue. -/
def added : QueueRequest → List Ref
  | defer r => [r]
  | safePoint | drain => []

/-- How many decrements a request is to apply when so many wait. -/
def due (options : DeferralOptions) (waiting : Nat) : QueueRequest → Nat
  | defer _ => if max options.maxQueue 1 ≤ waiting + 1 then max options.batch 1 else 0
  | safePoint => max options.batch 1
  | drain => waiting

theorem exists_of_isQueued {op : Operation} (h : op.isQueued = true) : ∃ q : QueueRequest, q.operation = op := by
  cases op with
  | defer r => exact ⟨.defer r, rfl⟩
  | safePoint => exact ⟨.safePoint, rfl⟩
  | drain => exact ⟨.drain, rfl⟩
  | _ => exact absurd h (by simp [Operation.isQueued])

theorem outcome_operation (m : Memory) (q : QueueRequest) :
    q.operation.outcome m = (q.outcome m).bind fun m _ => .done m none := by
  cases q <;> rfl

end QueueRequest

/-! ## What a request does -/

namespace Memory

variable {m m' : Memory} {queue : List Ref} {due : Nat}

/-- The first decrements of a queue are applied one after the other, each once, what lost its last reference by that is
freed, and the rest of the queue waits. -/
structure Applies (m : Memory) (queue : List Ref) (due : Nat) (m' : Memory) : Prop where
  released : ∃ s t, (queue.take due).foldlM Release.dropRef { memory := { m with deferred := queue.drop due } } =
    some s ∧ s.run = some t ∧
      m' = { t.memory with stats.deferredApplied := m.stats.deferredApplied + min due queue.length }
  config : m'.config = m.config
  deferred : m'.deferred = queue.drop due
  deferredApplied : m'.stats.deferredApplied = m.stats.deferredApplied + min due queue.length

/-- A release that gives up what is due leaves the rest of the queue alone. -/
theorem Applies.of_run {s t : Release}
    (hs : (queue.take due).foldlM Release.dropRef { memory := { m with deferred := queue.drop due } } = some s)
    (ht : s.run = some t) : m.Applies queue due
      { t.memory with stats.deferredApplied := m.stats.deferredApplied + min due queue.length } := by
  have hsetting := Release.setting_dropRefs hs ht
  exact ⟨⟨s, t, hs, ht, rfl⟩, hsetting.config, hsetting.deferred, rfl⟩

/-- Where nothing is due the queue is all that changes. -/
theorem Applies.of_take_eq_nil (h : queue.take due = []) : m.Applies queue due { m with deferred := queue } := by
  have hlength : min due queue.length = 0 := by
    rw [← List.length_take, h]
    rfl
  have hdrop : queue.drop due = queue := by
    have hsplit := List.take_append_drop due queue
    rwa [h, List.nil_append] at hsplit
  refine ⟨⟨{ memory := { m with deferred := queue } }, { memory := { m with deferred := queue } }, ?_,
    Release.run_of_finished ⟨rfl, rfl⟩, ?_⟩, rfl, hdrop.symm, ?_⟩
  · rw [h, hdrop]
    rfl
  · rw [hlength]
    rfl
  · rw [hlength]
    rfl

/-- A batch is applied unless it breaks off. -/
theorem applies_applyDeferred (h : m.applyDeferred due ≠ .broken) : ∃ m',
    m.applyDeferred due = .done m' (min due m.deferred.length) ∧ m.Applies m.deferred due m' := by
  by_cases hdue : m.deferred.take due = []
  · refine ⟨m, ?_, .of_take_eq_nil hdue⟩
    have hlength : min due m.deferred.length = 0 := by
      rw [← List.length_take, hdue]
      rfl
    rw [hlength]
    exact if_pos (by simpa using hdue)
  · rw [applyDeferred_of_ne_nil hdue] at h ⊢
    cases hs : (m.deferred.take due).foldlM Release.dropRef
        { memory := { m with deferred := m.deferred.drop due } } with
    | none =>
      rw [hs] at h
      exact absurd rfl h
    | some s =>
      cases ht : s.run with
      | none =>
        rw [hs, Option.bind_some, ht] at h
        exact absurd rfl h
      | some t =>
        have happlies := Applies.of_run hs ht
        have happlied : t.memory.stats.deferredApplied = m.stats.deferredApplied :=
          (Release.setting_dropRefs hs ht).deferredApplied
        refine ⟨_, ?_, happlies⟩
        rw [Option.bind_some, ht, List.length_take, ← happlied]
        rfl

/-- A request that does not break off applies what is due. -/
theorem applies_request (q : QueueRequest) (h : q.outcome m ≠ .broken) : ∃ m',
    q.outcome m = .done m' (min (q.due m.config.deferral m.deferred.length) (m.deferred ++ q.added).length) ∧
      m.Applies (m.deferred ++ q.added) (q.due m.config.deferral m.deferred.length) m' := by
  cases q with
  | safePoint =>
    rw [QueueRequest.added, List.append_nil]
    exact applies_applyDeferred h
  | drain =>
    rw [QueueRequest.added, List.append_nil]
    exact applies_applyDeferred h
  | defer r =>
    have hlength : (m.deferred ++ [r]).length = m.deferred.length + 1 := List.length_append
    have hout : m.defer r = if max m.config.deferral.maxQueue 1 ≤ (m.deferred ++ [r]).length then
        ({ m with deferred := m.deferred ++ [r] } : Memory).applyDeferred (max m.config.deferral.batch 1)
      else .done { m with deferred := m.deferred ++ [r] } 0 := rfl
    rw [QueueRequest.outcome, hout, hlength] at h ⊢
    rw [QueueRequest.added, QueueRequest.due]
    by_cases hfull : max m.config.deferral.maxQueue 1 ≤ m.deferred.length + 1
    · rw [if_pos hfull] at h ⊢
      rw [if_pos hfull]
      obtain ⟨m', hdone, happlies⟩ := applies_applyDeferred h
      exact ⟨m', hdone, happlies.released, happlies.config, happlies.deferred, happlies.deferredApplied⟩
    · rw [if_neg hfull, if_neg hfull, Nat.zero_min]
      exact ⟨_, rfl, .of_take_eq_nil rfl⟩

end Memory

/-- Whether a command makes a request of the queue. -/
def Command.isQueued : Command → Bool
  | operation op => op.isQueued
  | newArena | allocateFields _ _ _ | allocateInArena _ _ | registerExternal _ _ | resolveExternal _ _
  | destroyArena _ | destroyArenaWhenResolved _ | abandonArena _ => false

/-- Nothing else touches the queue. -/
theorem Command.queue_kept {m m' : Memory} {c : Command} (hc : c.isQueued = false)
    (hout : (c.outcome m).memory? = some m') : m'.config = m.config ∧ m'.deferred = m.deferred ∧
      m'.stats.deferredApplied = m.stats.deferredApplied := by
  cases c with
  | operation op =>
    rcases Operation.setting hc hout with h | h
    · exact ⟨h.config, h.deferred, h.deferredApplied⟩
    · exact ⟨h.config, h.deferred, h.deferredApplied⟩
  | _ =>
    have h := Command.setting_of_concernsArena rfl hout
    exact ⟨h.config, h.deferred, h.deferredApplied⟩

/-! ## Runs -/

variable {config : Config} {secret : UInt64} {m m' : Memory} {held : Multiset Ref} {queued applied : List Ref}

/-- No request of a program breaks off. -/
theorem Attained.outcome_ne_broken (h : Attained config secret m held) {q : QueueRequest}
    (hq : (Command.operation q.operation).Allowed m held) : q.outcome m ≠ .broken := by
  intro hout
  obtain ⟨n, regions, lost, rfl, hdivided⟩ := h.divided
  have haccounted := Command.sound hdivided hq
  rw [Command.outcome, QueueRequest.outcome_operation, hout] at haccounted
  exact haccounted

/-- A program, and the decrements that it queued and those that were applied, each in their order. -/
inductive QueueLog (config : Config) (secret : UInt64) : Memory → Multiset Ref → List Ref → List Ref → Prop
  | start (machine : Machine) : QueueLog config secret (.ofConfigOn config secret machine) 0 [] []
  | request {m m' : Memory} {held : Multiset Ref} {queued applied : List Ref} {count : Nat} (q : QueueRequest) :
      QueueLog config secret m held queued applied → (Command.operation q.operation).Allowed m held →
        q.outcome m = .done m' count →
          QueueLog config secret m' ((Command.operation q.operation).heldAfter m held none) (queued ++ q.added)
            (applied ++ (m.deferred ++ q.added).take count)
  | done {m m' : Memory} {held : Multiset Ref} {queued applied : List Ref} {made : Option Ref} (c : Command) :
      QueueLog config secret m held queued applied → c.Allowed m held → c.isQueued = false →
        c.outcome m = .done m' made → QueueLog config secret m' (c.heldAfter m held made) queued applied
  | refused {m m' : Memory} {held : Multiset Ref} {queued applied : List Ref} {fault : Fault} (c : Command) :
      QueueLog config secret m held queued applied → c.Allowed m held → c.isQueued = false →
        c.outcome m = .refused m' fault → QueueLog config secret m' held queued applied

namespace QueueLog

theorem attained (h : QueueLog config secret m held queued applied) : Attained config secret m held := by
  induction h with
  | start machine => exact .start machine
  | request q _ hq hout ih =>
    refine ih.done (.operation q.operation) hq ?_
    rw [Command.outcome, QueueRequest.outcome_operation, hout]
    rfl
  | done c _ hc _ hout ih => exact ih.done c hc hout
  | refused c _ hc _ hout ih => exact ih.refused c hc hout

/-- Every run of a program has a log. -/
theorem exists_of_attained (h : Attained config secret m held) :
    ∃ queued applied, QueueLog config secret m held queued applied := by
  have hrequest : ∀ {c : Command}, c.isQueued = true → ∃ q : QueueRequest, c = .operation q.operation := by
    intro c hc
    cases c with
    | operation op =>
      obtain ⟨q, rfl⟩ := QueueRequest.exists_of_isQueued hc
      exact ⟨q, rfl⟩
    | _ => exact absurd hc (by simp [Command.isQueued])
  induction h with
  | start machine => exact ⟨[], [], .start machine⟩
  | @done m m' held made c hm hc hout ih =>
    obtain ⟨queued, applied, hlog⟩ := ih
    cases hqueued : c.isQueued with
    | false => exact ⟨queued, applied, hlog.done c hc hqueued hout⟩
    | true =>
      obtain ⟨q, rfl⟩ := hrequest hqueued
      obtain ⟨n, hdone, -⟩ := applies_request q (hm.outcome_ne_broken hc)
      rw [Command.outcome, QueueRequest.outcome_operation, hdone] at hout
      obtain ⟨rfl, rfl⟩ := Outcome.done.inj hout
      exact ⟨_, _, hlog.request q hc hdone⟩
  | @refused m m' held fault c hm hc hout ih =>
    obtain ⟨queued, applied, hlog⟩ := ih
    cases hqueued : c.isQueued with
    | false => exact ⟨queued, applied, hlog.refused c hc hqueued hout⟩
    | true =>
      -- a request of the queue is never refused
      obtain ⟨q, rfl⟩ := hrequest hqueued
      obtain ⟨n, hdone, -⟩ := applies_request q (hm.outcome_ne_broken hc)
      rw [Command.outcome, QueueRequest.outcome_operation, hdone] at hout
      exact absurd hout (by simp [Outcome.bind])

end QueueLog

/-- What holds of the queue at every point of a run. -/
structure Queueing (config : Config) (m : Memory) (queued applied : List Ref) : Prop where
  configured : m.config = config
  split : queued = applied ++ m.deferred
  count : m.stats.deferredApplied = applied.length
  short : m.deferred.length < max config.deferral.maxQueue 1

namespace Queueing

/-- A request applies decrements from the front of the queue, and at least one if the queue is full. -/
theorem request {count : Nat} (h : Queueing config m queued applied) {q : QueueRequest}
    (hq : q.outcome m = .done m' count) :
    Queueing config m' (queued ++ q.added) (applied ++ (m.deferred ++ q.added).take count) := by
  obtain ⟨n, hdone, happlies⟩ := applies_request q (by rw [hq]; simp)
  obtain ⟨rfl, rfl⟩ := Outcome.done.inj (hq.symm.trans hdone)
  have hdeferral : m.config.deferral = config.deferral := congrArg Config.deferral h.configured
  have hshort := h.short
  rw [hdeferral] at happlies
  refine ⟨happlies.config.trans h.configured, ?_, ?_, ?_⟩
  · rw [happlies.deferred, h.split, List.append_assoc, List.append_assoc, hdeferral, ← List.take_eq_take_min,
      List.take_append_drop]
  · rw [happlies.deferredApplied, h.count, hdeferral]
    simp only [List.length_append, List.length_take]
    omega
  · rw [happlies.deferred, List.length_drop, List.length_append]
    cases q with
    | defer r =>
      rw [QueueRequest.due, QueueRequest.added, List.length_singleton]
      split <;> omega
    | safePoint | drain =>
      rw [QueueRequest.added, List.length_nil]
      omega

theorem kept (h : Queueing config m queued applied) {c : Command} (hc : c.isQueued = false)
    (hout : (c.outcome m).memory? = some m') : Queueing config m' queued applied := by
  obtain ⟨hconfig, hdeferred, happlied⟩ := Command.queue_kept hc hout
  exact ⟨hconfig.trans h.configured, hdeferred.symm ▸ h.split, happlied.trans h.count, hdeferred.symm ▸ h.short⟩

end Queueing

theorem QueueLog.queueing (h : QueueLog config secret m held queued applied) : Queueing config m queued applied := by
  induction h with
  | start => exact ⟨rfl, rfl, rfl, Nat.lt_of_lt_of_le Nat.zero_lt_one (Nat.le_max_right _ 1)⟩
  | request q _ _ hout ih => exact ih.request hout
  | done c _ _ hqueued hout ih => exact ih.kept hqueued (by rw [hout]; rfl)
  | refused c _ _ hqueued hout ih => exact ih.kept hqueued (by rw [hout]; rfl)

/-- Wherever a program gets, and whatever batch size and length of the queue are configured: fewer decrements wait than
fill the queue. A request that is allowed is carried out, and applies as many decrements from the front of the queue as
are due, or all of them if there are fewer. After a drain none waits, so that another one comes to nothing. What was
queued was applied, in its order and each decrement once, or waits. -/
theorem queue_conserved (h : Attained config secret m held) :
    m.deferred.length < max config.deferral.maxQueue 1 ∧
    (∀ q : QueueRequest, (Command.operation q.operation).Allowed m held → ∃ m',
      q.outcome m = .done m' (min (q.due config.deferral m.deferred.length) (m.deferred ++ q.added).length) ∧
        m.Applies (m.deferred ++ q.added) (q.due config.deferral m.deferred.length) m' ∧
          m'.deferred.length < max config.deferral.maxQueue 1) ∧
    (∃ m', m.drain = .done m' m.deferred.length ∧ m'.deferred = [] ∧ m'.drain = .done m' 0) ∧
    (∃ queued applied, QueueLog config secret m held queued applied) ∧
    ∀ queued applied, QueueLog config secret m held queued applied →
      queued = applied ++ m.deferred ∧ m.stats.deferredApplied = applied.length := by
  obtain ⟨queued, applied, hlog⟩ := QueueLog.exists_of_attained h
  have hqueueing := hlog.queueing
  have hdeferral : m.config.deferral = config.deferral := congrArg Config.deferral hqueueing.configured
  have hrequest : ∀ q : QueueRequest, (Command.operation q.operation).Allowed m held → ∃ m',
      q.outcome m = .done m' (min (q.due config.deferral m.deferred.length) (m.deferred ++ q.added).length) ∧
        m.Applies (m.deferred ++ q.added) (q.due config.deferral m.deferred.length) m' := by
    intro q hq
    rw [← hdeferral]
    exact applies_request q (h.outcome_ne_broken hq)
  refine ⟨hqueueing.short, fun q hq => ?_, ?_, ⟨queued, applied, hlog⟩, fun queued applied hlog => ?_⟩
  · obtain ⟨m', hdone, happlies⟩ := hrequest q hq
    exact ⟨m', hdone, happlies, (hqueueing.request hdone).short⟩
  · obtain ⟨m', hdone, happlies⟩ := hrequest .drain (.inr trivial)
    rw [QueueRequest.added, List.append_nil, QueueRequest.due, Nat.min_self] at hdone
    have hempty := happlies.deferred
    rw [QueueRequest.added, List.append_nil, QueueRequest.due, List.drop_length] at hempty
    exact ⟨m', hdone, hempty, if_pos (by rw [hempty]; rfl)⟩
  · exact ⟨hlog.queueing.split, hlog.queueing.count⟩

/-- A queue for two decrements of which a batch of no length is applied. -/
def Config.scant : Config :=
  { deferral := { batch := 0, maxQueue := 2 } }

/-- The second decrement fills the queue and forces the first one to be applied. -/
theorem queue_conserved_full : ∃ m m', Attained .scant 0 m {1} ∧ m.deferred = [0] ∧ m.defer 1 = .done m' 1 ∧
    m'.deferred = [1] := by
  have hblank : cell.IsBlank := ObjectSpec.isBlank_ofFlags 0 [false] false false
  have hone := (@Reachable.start .scant 0 .flat).done (.allocate cell) hblank rfl
  have htwo := hone.done (.allocate cell) hblank rfl
  have hwaits := (htwo.done (.defer 0) (Multiset.mem_cons_of_mem (Multiset.mem_singleton_self 0)) rfl).attained
  obtain ⟨-, hrequest, -⟩ := queue_conserved hwaits
  have hheld : (1 : Ref) ∈ ({1, 0} : Multiset Ref).erase 0 := by decide
  obtain ⟨m', hdone, happlies, -⟩ := hrequest (.defer 1) (.inr hheld)
  exact ⟨_, m', hwaits, rfl, hdone, happlies.deferred⟩

end Reclamation
