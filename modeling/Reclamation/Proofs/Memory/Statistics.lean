import Mathlib
import Reclamation.Proofs.Memory.Audit
import Reclamation.Proofs.Memory.Isolation
import Reclamation.Proofs.Memory.Membership

/-!
# What the statistics say

Objects are counted when they are placed and when they are freed, components when they are frozen and when they end,
and arenas when they are destroyed. Which arenas these were cannot be read off memory, because one that is given up
is as empty as one that is destroyed. So they are written down along the run (`Recorded`), and a command counts as
many as it destroys (`Command.count_destroyed`).
-/

set_option autoImplicit false

namespace Reclamation

/-! ## Arenas that were destroyed -/

theorem Outcome.memory?_bind_done {α β : Type} (outcome : Outcome α) (f : Memory → α → β) :
    (outcome.bind fun m a => .done m (f m a)).memory? = outcome.memory? := by
  cases outcome <;> rfl

namespace Memory

variable {m m' n n' : Memory} {id : ArenaId} {ids : Finset ArenaId} {a : Arena}

/-- Whether an arena is gone, be it destroyed or given up. -/
def isClosed (m : Memory) (id : ArenaId) : Bool :=
  m.arenas[id]?.any (·.destroyed)

/-- Some arenas are destroyed, and each is counted. -/
structure Closes (ids : Finset ArenaId) (m m' : Memory) : Prop where
  count : m'.stats.arenasDestroyed = m.stats.arenasDestroyed + ids.card
  closed : ∀ id, m'.isClosed id = true ↔ m.isClosed id = true ∨ id ∈ ids
  fresh : ∀ id ∈ ids, m.isClosed id = false

theorem Closes.same (hcount : m'.stats.arenasDestroyed = m.stats.arenasDestroyed)
    (hclosed : ∀ id, m'.isClosed id = m.isClosed id) : Closes ∅ m m' where
  count := hcount
  closed id := by simp [hclosed]
  fresh := by simp

theorem Closes.of_arenas (hcount : m'.stats.arenasDestroyed = m.stats.arenasDestroyed) (harenas : m'.arenas = m.arenas) :
    Closes ∅ m m' :=
  .same hcount fun id => by rw [isClosed, harenas, isClosed]

theorem isClosed_setArena (ha : m.arenas[id]? = some a) (a' : Arena) (x : ArenaId) :
    (m.setArena id a').isClosed x = if x = id then a'.destroyed else m.isClosed x := by
  obtain ⟨hlt, -⟩ := Array.getElem?_eq_some_iff.1 ha
  unfold isClosed setArena
  rw [Array.getElem?_setIfInBounds]
  by_cases hx : id = x
  · subst hx
    simp [hlt]
  · simp [hx, Ne.symm hx]

theorem Closes.setArena (ha : m.arenas[id]? = some a) {a' : Arena} (hdestroyed : a'.destroyed = a.destroyed) :
    Closes ∅ m (m.setArena id a') := by
  refine .same rfl fun x => ?_
  rw [isClosed_setArena ha]
  split
  · next hx =>
    subst hx
    rw [isClosed, ha]
    exact hdestroyed
  · rfl

theorem Closes.trans {m'' : Memory} (h : Closes ∅ m m') (h' : Closes ids m' m'') : Closes ids m m'' := by
  have hsame : ∀ id, m'.isClosed id = m.isClosed id := fun id => by
    have hid := h.closed id
    rw [Bool.eq_iff_iff]
    simpa using hid
  refine ⟨by rw [h'.count, h.count]; rfl, fun id => ?_, fun id hid => ?_⟩
  · rw [h'.closed, hsame]
  · rw [← hsame, h'.fresh id hid]

/-- The arenas that are gone in one memory and not in another. -/
def newlyClosed (m m' : Memory) : Finset ArenaId :=
  (Finset.range m'.arenas.size).filter fun id => m'.isClosed id && !m.isClosed id

theorem mem_newlyClosed : id ∈ m.newlyClosed m' ↔ m'.isClosed id = true ∧ m.isClosed id = false := by
  rw [newlyClosed, Finset.mem_filter, Finset.mem_range, Bool.and_eq_true, Bool.not_eq_true']
  constructor
  · intro hid
    exact hid.2
  · intro hid
    refine ⟨?_, hid⟩
    have hclosed := hid.1
    unfold isClosed at hclosed
    obtain ⟨a, ha, -⟩ := (Option.any_eq_true _ _).1 hclosed
    exact (Array.getElem?_eq_some_iff.1 ha).1

theorem Closes.newlyClosed (h : Closes ids m m') : m.newlyClosed m' = ids := by
  ext id
  rw [mem_newlyClosed, h.closed]
  constructor
  · intro hid
    obtain ⟨hclosed, hopen⟩ := hid
    rw [hopen] at hclosed
    exact hclosed.resolve_left (by simp)
  · intro hid
    exact ⟨.inr hid, h.fresh id hid⟩

theorem arenas_emptyArena (m : Memory) (id : ArenaId) (a : Arena) : (m.emptyArena id a).stats = m.stats ∧
    (m.emptyArena id a).arenas = m.arenas.setIfInBounds id a.emptied := by
  have hvacated : ∀ (objects : List Ref) (m : Memory),
      (objects.foldl (fun m r => m.vacate r (.arena id)) m).stats = m.stats ∧
        (objects.foldl (fun m r => m.vacate r (.arena id)) m).arenas = m.arenas := by
    intro objects
    induction objects with
    | nil => exact fun m => ⟨rfl, rfl⟩
    | cons r objects ih => exact fun m => ih (m.vacate r (.arena id))
  obtain ⟨hstats, harenas⟩ := hvacated a.objects m
  refine ⟨hstats, ?_⟩
  unfold emptyArena setArena
  rw [harenas]

theorem isClosed_emptyArena (ha : m.arenas[id]? = some a) (x : ArenaId) :
    (m.emptyArena id a).isClosed x = if x = id then true else m.isClosed x := by
  have hset := isClosed_setArena ha a.emptied x
  unfold isClosed at hset ⊢
  rw [(arenas_emptyArena m id a).2]
  exact hset

theorem closes_destroyArena (h : (m.destroyArena id).memory? = some m') : ∃ ids, Closes ids m m' := by
  unfold destroyArena at h
  cases ha : m.arenas[id]? with
  | none =>
    rw [ha] at h
    obtain rfl := Option.some.inj h
    exact ⟨∅, .of_arenas rfl rfl⟩
  | some a =>
    rw [ha] at h
    dsimp only at h
    split at h
    · obtain rfl := Option.some.inj h
      exact ⟨∅, .of_arenas rfl rfl⟩
    · split at h
      · obtain rfl := Option.some.inj h
        exact ⟨∅, .of_arenas rfl rfl⟩
      · next hopen =>
        obtain rfl := Option.some.inj h
        refine ⟨{id}, ⟨?_, fun x => ?_, fun x hx => ?_⟩⟩
        · rw [Finset.card_singleton, ← (arenas_emptyArena m id a).1]
        · have hx := isClosed_emptyArena ha x
          show (m.emptyArena id a).isClosed x = true ↔ _
          rw [hx, Finset.mem_singleton]
          split
          · next he => simp [he]
          · next he => simp [he]
        · rw [Finset.mem_singleton.1 hx, isClosed, ha]
          simpa using hopen

theorem closes_destroyArenaWhenResolved (h : (m.destroyArenaWhenResolved id).memory? = some m') :
    ∃ ids, Closes ids m m' := by
  unfold destroyArenaWhenResolved at h
  cases ha : m.arenas[id]? with
  | none =>
    rw [ha] at h
    obtain rfl := Option.some.inj h
    exact ⟨∅, .of_arenas rfl rfl⟩
  | some a =>
    rw [ha] at h
    dsimp only at h
    split at h
    · obtain rfl := Option.some.inj h
      exact ⟨∅, .setArena ha rfl⟩
    · rw [Outcome.memory?_bind_done] at h
      exact closes_destroyArena h

theorem closes_resolveExternal {r : Ref} (h : (m.resolveExternal id r).memory? = some m') :
    ∃ ids, Closes ids m m' := by
  unfold resolveExternal at h
  cases ha : m.arenas[id]? with
  | none =>
    rw [ha] at h
    obtain rfl := Option.some.inj h
    exact ⟨∅, .of_arenas rfl rfl⟩
  | some a =>
    rw [ha] at h
    dsimp only at h
    split at h
    · obtain rfl := Option.some.inj h
      exact ⟨∅, .of_arenas rfl rfl⟩
    · next externals _ =>
      have hresolved : Closes ∅ m (m.setArena id { a with externals }) := .setArena ha rfl
      split at h
      · rw [Outcome.memory?_bind_done] at h
        obtain ⟨ids, hcloses⟩ := closes_destroyArena h
        exact ⟨ids, hresolved.trans hcloses⟩
      · obtain rfl := Option.some.inj h
        exact ⟨∅, hresolved⟩

theorem closes_allocateFields {tag : TypeTag} {weak : List Bool} (h : (m.allocateFields id tag weak).memory? = some m') :
    Closes ∅ m m' := by
  unfold allocateFields at h
  cases ha : m.arenas[id]? with
  | none =>
    rw [ha] at h
    obtain rfl := Option.some.inj h
    exact .of_arenas rfl rfl
  | some a =>
    rw [ha] at h
    dsimp only at h
    cases hreserve : a.reserve weak.length with
    | error fault =>
      rw [hreserve] at h
      obtain rfl := Option.some.inj h
      exact .of_arenas rfl rfl
    | ok a' =>
      rw [hreserve] at h
      dsimp only at h
      split at h
      · exact absurd h (by simp [Outcome.memory?])
      · obtain rfl := Option.some.inj h
        obtain ⟨-, store, rfl⟩ := Arena.eq_of_reserve hreserve
        have hplaced : Closes ∅ m (m.place { tag, payload := .ofFlags weak, origin := .arena id }).1 :=
          .of_arenas rfl rfl
        have ha' : (m.place { tag, payload := .ofFlags weak, origin := .arena id }).1.arenas[id]? = some a := ha
        exact hplaced.trans (.setArena ha' rfl)

theorem closes_newArena (m : Memory) : Closes ∅ m m.newArena.1 := by
  refine .same rfl fun id => ?_
  unfold isClosed Memory.newArena
  rw [Array.getElem?_push]
  split
  · next he => simp [he, Arena.ofLimits]
  · rfl

theorem closes_allocateInArena {tag : TypeTag} (h : (m.allocateInArena id tag).memory? = some m') :
    Closes ∅ m m' := by
  unfold allocateInArena at h
  split at h
  · obtain rfl := Option.some.inj h
    exact .of_arenas rfl rfl
  · exact closes_allocateFields h

theorem closes_registerExternal {r : Ref} (h : (m.registerExternal id r).memory? = some m') : Closes ∅ m m' := by
  unfold registerExternal at h
  split at h
  · obtain rfl := Option.some.inj h
    exact .of_arenas rfl rfl
  · next a ha =>
    split at h
    · obtain rfl := Option.some.inj h
      exact .setArena ha rfl
    · obtain rfl := Option.some.inj h
      exact .of_arenas rfl rfl

/-- What is asked of memory without arenas concerns none. -/
theorem Change.arenasDestroyed (h : Change m m') : m'.stats.arenasDestroyed = m.stats.arenasDestroyed := by
  cases h with
  | recount hrecounted _ => rw [hrecounted.stats]
  | rearrange _ types scopes applied => rfl
  | search _ _ => rfl
  | @freeze s members components id hreg =>
    unfold Release.frozen
    rw [markFrozen_eq]
  | step hbalanced hstep => exact (hstep.counts hbalanced).arenasDestroyed

theorem closes_advance {op : Operation} (h : (Command.operation op).Advance n n') : Closes ∅ n n' := by
  cases h with
  | changed deferred hchanges =>
    have hkept := hchanges.kept
    have hcount := hchanges.induction (P := fun m m' => m'.stats.arenasDestroyed = m.stats.arenasDestroyed)
      (fun _ => rfl) (fun hab hbc => hbc.trans hab) Change.arenasDestroyed
    refine .of_arenas (hcount.trans ?_) (hkept.arenas.trans ?_)
    all_goals
      rcases Command.written_cases n (.operation op) with he | ⟨r, index, target, referrers, he⟩
      · rw [he]
      · rw [he]
        rfl
  | placed _ hplaced => exact .of_arenas (by rw [hplaced.stats]) hplaced.arenas
  | beside hc _ => exact absurd hc (by simp [Command.concernsArena])

end Memory

namespace Command

open Memory

variable {m m' n : Memory} {regions : Regions} {held lost : Multiset Ref} {ids : Finset ArenaId}

/-- The arenas that a command destroys. One that is given up is not among them. -/
def destroyed (m m' : Memory) : Command → Finset ArenaId
  | abandonArena _ => ∅
  | operation _ | newArena | allocateFields _ _ _ | allocateInArena _ _ | registerExternal _ _ | resolveExternal _ _
  | destroyArena _ | destroyArenaWhenResolved _ => m.newlyClosed m'

theorem mem_newlyClosed_of_destroyed {c : Command} {id : ArenaId} (h : id ∈ c.destroyed m m') :
    id ∈ m.newlyClosed m' := by
  cases c with
  | abandonArena _ => exact absurd h (by simp [destroyed])
  | _ => exact h

/-- As many more arenas are counted as a command destroys, and those that were gone stay so. -/
theorem count_destroyed (h : Divided n regions held lost) {c : Command} (hc : c.Allowed (n.joined regions) held)
    (hout : (c.outcome (n.joined regions)).memory? = some m') :
    m'.stats.arenasDestroyed = n.stats.arenasDestroyed + (c.destroyed (n.joined regions) m').card ∧
      ∀ id, (n.joined regions).isClosed id = true → m'.isClosed id = true := by
  have hcloses : (∃ ids, Closes ids (n.joined regions) m' ∧ c.destroyed (n.joined regions) m' = ids) →
      m'.stats.arenasDestroyed = n.stats.arenasDestroyed + (c.destroyed (n.joined regions) m').card ∧
        ∀ id, (n.joined regions).isClosed id = true → m'.isClosed id = true := by
    intro hids
    obtain ⟨ids, hids, rfl⟩ := hids
    exact ⟨hids.count, fun id hid => (hids.closed id).2 (.inl hid)⟩
  cases c with
  | operation op =>
    obtain ⟨n', regions', held', lost', rfl, -, hadvance⟩ := advance h hc hout
    have hsame := closes_advance hadvance
    have hjoined : Closes ∅ (n.joined regions) (n'.joined regions') := ⟨hsame.count, hsame.closed, hsame.fresh⟩
    exact hcloses ⟨∅, hjoined, hjoined.newlyClosed⟩
  | newArena =>
    obtain rfl := Option.some.inj hout
    have hsame := closes_newArena (n.joined regions)
    exact hcloses ⟨∅, hsame, hsame.newlyClosed⟩
  | allocateFields id tag weak =>
    rw [outcome, Outcome.memory?_bind_done] at hout
    have hsame := closes_allocateFields hout
    exact hcloses ⟨∅, hsame, hsame.newlyClosed⟩
  | allocateInArena id tag =>
    rw [outcome, Outcome.memory?_bind_done] at hout
    have hsame := closes_allocateInArena hout
    exact hcloses ⟨∅, hsame, hsame.newlyClosed⟩
  | registerExternal id r =>
    rw [outcome, Outcome.memory?_bind_done] at hout
    have hsame := closes_registerExternal hout
    exact hcloses ⟨∅, hsame, hsame.newlyClosed⟩
  | resolveExternal id r =>
    rw [outcome, Outcome.memory?_bind_done] at hout
    obtain ⟨ids, hids⟩ := closes_resolveExternal hout
    exact hcloses ⟨ids, hids, hids.newlyClosed⟩
  | destroyArena id =>
    rw [outcome, Outcome.memory?_bind_done] at hout
    obtain ⟨ids, hids⟩ := closes_destroyArena hout
    exact hcloses ⟨ids, hids, hids.newlyClosed⟩
  | destroyArenaWhenResolved id =>
    rw [outcome, Outcome.memory?_bind_done] at hout
    obtain ⟨ids, hids⟩ := closes_destroyArenaWhenResolved hout
    exact hcloses ⟨ids, hids, hids.newlyClosed⟩
  | abandonArena id =>
    obtain rfl := Option.some.inj hout
    unfold Memory.abandonArena
    split
    · exact ⟨rfl, fun _ hid => hid⟩
    · next a ha =>
      split
      · exact ⟨rfl, fun _ hid => hid⟩
      · refine ⟨congrArg (·.arenasDestroyed) (arenas_emptyArena (n.joined regions) id a).1, fun x hx => ?_⟩
        rw [isClosed_emptyArena ha]
        split
        · rfl
        · exact hx

end Command

/-- A program and the arenas that it destroyed on its way. -/
inductive Recorded (config : Config) (secret : UInt64) : Memory → Multiset Ref → Finset ArenaId → Prop
  | start (machine : Machine) : Recorded config secret (.ofConfigOn config secret machine) 0 ∅
  | done {m m' : Memory} {held : Multiset Ref} {ids : Finset ArenaId} {made : Option Ref} (c : Command) :
      Recorded config secret m held ids → c.Allowed m held → c.outcome m = .done m' made →
        Recorded config secret m' (c.heldAfter m held made) (ids ∪ c.destroyed m m')
  | refused {m m' : Memory} {held : Multiset Ref} {ids : Finset ArenaId} {fault : Fault} (c : Command) :
      Recorded config secret m held ids → c.Allowed m held → c.outcome m = .refused m' fault →
        Recorded config secret m' held (ids ∪ c.destroyed m m')

namespace Recorded

variable {config : Config} {secret : UInt64} {m : Memory} {held : Multiset Ref} {ids : Finset ArenaId}

theorem attained (h : Recorded config secret m held ids) : Attained config secret m held := by
  induction h with
  | start machine => exact .start machine
  | done c _ hc hout ih => exact ih.done c hc hout
  | refused c _ hc hout ih => exact ih.refused c hc hout

theorem exists_of_attained (h : Attained config secret m held) : ∃ ids, Recorded config secret m held ids := by
  induction h with
  | start machine => exact ⟨∅, .start machine⟩
  | done c _ hc hout ih =>
    obtain ⟨ids, hids⟩ := ih
    exact ⟨_, hids.done c hc hout⟩
  | refused c _ hc hout ih =>
    obtain ⟨ids, hids⟩ := ih
    exact ⟨_, hids.refused c hc hout⟩

/-- One command more. -/
theorem count_next {m' : Memory} {c : Command} (hm : Attained config secret m held)
    (hids : m.stats.arenasDestroyed = ids.card ∧ ∀ id ∈ ids, m.isClosed id = true) (hc : c.Allowed m held)
    (hout : (c.outcome m).memory? = some m') : m'.stats.arenasDestroyed = (ids ∪ c.destroyed m m').card ∧
      ∀ id ∈ ids ∪ c.destroyed m m', m'.isClosed id = true := by
  obtain ⟨n, regions, lost, rfl, hdivided⟩ := hm.divided
  obtain ⟨hcount, hstays⟩ := Command.count_destroyed hdivided hc hout
  have hnew : ∀ id ∈ c.destroyed (n.joined regions) m', m'.isClosed id = true ∧
      (n.joined regions).isClosed id = false := by
    intro id hid
    exact Memory.mem_newlyClosed.1 (Command.mem_newlyClosed_of_destroyed hid)
  -- what is destroyed now was not gone before
  have hdisjoint : Disjoint ids (c.destroyed (n.joined regions) m') := by
    rw [Finset.disjoint_left]
    intro id hold hid
    exact absurd (hids.2 id hold) (by simp [(hnew id hid).2])
  constructor
  · rw [hcount, Finset.card_union_of_disjoint hdisjoint, ← hids.1]
    rfl
  · intro id hid
    cases Finset.mem_union.1 hid with
    | inl hold => exact hstays id (hids.2 id hold)
    | inr hid => exact (hnew id hid).1

/-- As many arenas are counted as were destroyed. -/
theorem count (h : Recorded config secret m held ids) :
    m.stats.arenasDestroyed = ids.card ∧ ∀ id ∈ ids, m.isClosed id = true := by
  induction h with
  | start => exact ⟨rfl, by simp⟩
  | done c hm hc hout ih => exact count_next hm.attained ih hc (by rw [hout]; rfl)
  | refused c hm hc hout ih => exact count_next hm.attained ih hc (by rw [hout]; rfl)

end Recorded

/-! ## What releases return, with arenas beside memory -/

namespace Divided

open Memory

variable {n : Memory} {regions : Regions} {held lost : Multiset Ref} {r : Ref} {o : Object}

/-- What gives references up is asked of an object in an arena or of memory without arenas. -/
theorem asked (h : Divided n regions held lost) {op : Operation}
    (hop : (Command.operation op).Allowed (n.joined regions) held) (hfield : ∀ r i t, op ≠ .setField r i t) :
    (∃ r o, op.subject? = some r ∧ (n.joined regions).object? r = some o ∧ regions.objects r = some o) ∨
      op.Allowed n held := by
  rcases Command.allowed_cases h hop with hon | ⟨-, -, ⟨r, i, t, -, -, he, -, -⟩ | hop'⟩
  · obtain ⟨r, o, hr, ho⟩ := (Command.isOnArena_iff h).1 hon
    exact .inl ⟨r, o, hr, object?_joined_of_some h.apart ho, ho⟩
  · exact absurd he (hfield r i (some t))
  · exact .inr hop'

theorem frees_release (h : Divided n regions held lost)
    (hop : (Command.operation (.release r)).Allowed (n.joined regions) held) :
    ((n.joined regions).release r).Frees (n.joined regions) := by
  cases h.asked hop (by simp) with
  | inl hon =>
    obtain ⟨x, o, hx, ho, hsome⟩ := hon
    obtain rfl := Option.some.inj hx
    rw [Command.release_of_arena ho (h.apart.arena r o hsome)]
    exact .same _
  | inr hr =>
    obtain ⟨s, hs, hcompletes⟩ := Operation.drop_of_mem h.consistent hr
    rw [release_joined h.apart hs hcompletes]
    exact (Memory.frees_release rfl hs hcompletes).joined regions

theorem frees_freeTree (h : Divided n regions held lost)
    (hop : (Command.operation (.freeTree r)).Allowed (n.joined regions) held) :
    ((n.joined regions).freeTree r).Frees (n.joined regions) := by
  cases h.asked hop (by simp) with
  | inl hon =>
    obtain ⟨x, o, hx, ho, hsome⟩ := hon
    obtain rfl := Option.some.inj hx
    rw [Command.freeTree_of_arena ho (h.apart.arena r o hsome)]
    exact .same _
  | inr hr =>
    obtain ⟨hheld, honly⟩ := hr
    rw [freeTree_joined h.consistent h.apart hheld honly]
    exact (Memory.frees_freeTree h.consistent hheld honly).joined regions

theorem frees_releaseScoped (h : Divided n regions held lost)
    (hop : (Command.operation (.releaseScoped r)).Allowed (n.joined regions) held) :
    ((n.joined regions).releaseScoped r).Frees (n.joined regions) := by
  cases h.asked hop (by simp) with
  | inl hon =>
    obtain ⟨x, o, hx, ho, hsome⟩ := hon
    obtain rfl := Option.some.inj hx
    rw [Command.releaseScoped_onArena h hsome]
    exact .same _
  | inr hr =>
    rw [releaseScoped_joined h.consistent h.apart hr]
    exact (Memory.frees_releaseScoped h.consistent hr).joined regions

theorem frees_exitScopeIn (h : Divided n regions held lost) (hopen : n.scopes ≠ []) {entries : Scope}
    (hperm : entries.Perm n.innermost) : ((n.joined regions).exitScopeIn entries).Frees (n.joined regions) := by
  rw [exitScopeIn_joined h.consistent h.apart hperm]
  exact (Memory.frees_exitScopeIn h.consistent hopen hperm).joined regions

end Divided

variable {config : Config} {secret : UInt64} {m : Memory} {held : Multiset Ref}

/-- Wherever a program gets: what was allocated and not freed is what is live on the heap and in slots; the pool
counts the live objects in slots; no more components ended than were frozen; as many arenas are counted as the program
destroyed; and giving a reference up, freeing a tree and closing a scope, its entries in any order, each return by how
much the number of freed objects grew. -/
theorem statistics_conserved (h : Attained config secret m held) :
    m.stats.allocated = m.stats.freed + m.counted.card ∧ m.stats.live = m.counted.card ∧
      m.pool.live = m.pooled.card ∧ m.stats.componentsReleased ≤ m.stats.componentsFrozen ∧
      (∃ ids, Recorded config secret m held ids) ∧
      (∀ ids, Recorded config secret m held ids → m.stats.arenasDestroyed = ids.card) ∧
      (∀ r, (Command.operation (.release r)).Allowed m held → (m.release r).Frees m) ∧
      (∀ r, (Command.operation (.freeTree r)).Allowed m held → (m.freeTree r).Frees m) ∧
      (∀ r, (Command.operation (.releaseScoped r)).Allowed m held → (m.releaseScoped r).Frees m) ∧
      (m.scopes ≠ [] → ∀ entries, entries.Perm m.innermost → (m.exitScopeIn entries).Frees m) := by
  have haudited := h.audited
  have hlive : m.stats.live = m.counted.card := by
    rw [Statistics.live, haudited.allocated]
    exact Nat.add_sub_cancel_left _ _
  obtain ⟨n, regions, lost, rfl, hdivided, -, htallied⟩ := h.tallied
  refine ⟨haudited.allocated, hlive, haudited.inUse, Nat.le_of_add_left_le htallied.count.le,
    Recorded.exists_of_attained h, fun ids hids => hids.count.1, ?_, ?_, ?_, ?_⟩
  · exact fun r hr => hdivided.frees_release hr
  · exact fun r hr => hdivided.frees_freeTree hr
  · exact fun r hr => hdivided.frees_releaseScoped hr
  · exact fun hopen entries hperm => hdivided.frees_exitScopeIn hopen hperm

/-- The object on the heap once the arena is destroyed. -/
def Memory.cleared : Memory :=
  (Memory.region.destroyArena 0).memory?.getD .region

theorem attained_cleared : Attained {} 0 .cleared {0} :=
  attained_region.done (.destroyArena 0) (fun _ _ _ hx => absurd hx List.not_mem_nil) rfl

theorem statistics_conserved_cleared : Memory.cleared.counted.card = 1 ∧
    (∃ ids, Recorded {} 0 .cleared {0} ids ∧ ids.card = 1) ∧
    ∃ m' k, Memory.cleared.release 0 = .done m' k ∧ m'.stats.freed = k := by
  obtain ⟨-, hlive, -, -, hrecorded, hcount, hrelease, -⟩ := statistics_conserved attained_cleared
  obtain ⟨ids, hids⟩ := hrecorded
  obtain ⟨m', k, hout, hfreed⟩ := hrelease 0 (.inr (Multiset.mem_singleton_self 0))
  exact ⟨hlive.symm, ⟨ids, hids, (hcount ids hids).symm⟩, m', k, hout, hfreed.trans (Nat.zero_add k)⟩

end Reclamation
