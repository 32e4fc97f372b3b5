import Std.Data.HashMap
import Reclamation.Memory.Arena
import Reclamation.Memory.Handle
import Reclamation.Memory.SlotPool

/-!
# Memory

The state that all runtime operations share: the cells that hold the objects, the layouts of the
types, the weak fields by the object they refer to, the frozen components, the slot pool, the
decrements that are put off, the arenas, the open scopes, and what was counted so far.

An object is live as long as its cell holds it. Cells of the heap and of arenas are used once, so a
reference to an object that is gone names nothing; the cell of a slot is used again by the slot's
next occupant.

This module places objects in memory and takes them out; it counts no references.
-/

set_option autoImplicit false

namespace Reclamation

/-! ## The state -/

/-- What was counted since the start. Objects in arenas are not counted. -/
structure Statistics where
  allocated : Nat := 0
  freed : Nat := 0
  componentsFrozen : Nat := 0
  componentsReleased : Nat := 0
  arenasDestroyed : Nat := 0
  /-- Decrements that had been put off and were applied. -/
  deferredApplied : Nat := 0
  /-- Weak fields that were emptied because their target was freed. -/
  weakCleared : Nat := 0
  deriving DecidableEq, Repr

/-- How many objects are allocated and not freed. -/
def Statistics.live (s : Statistics) : Nat :=
  s.allocated - s.freed

/-- The objects that a scope owns a reference to, each with the handle by which the scope tells
whether the object is still the one it owns. -/
abbrev Scope := List (Ref × Handle)

/-- The state of the runtime. -/
structure Memory where
  config : Config
  /-- The secret in the tags of handles. -/
  secret : UInt64
  types : Std.HashMap TypeTag TypeLayout := ∅
  cells : Array (Option Object) := #[]
  /-- For each object the weak fields that refer to it: the holder and the index of the field.
  Fields of arena objects are not listed. -/
  referrers : Std.HashMap Ref (List (Ref × Nat)) := ∅
  components : ComponentRegistry
  pool : SlotPool
  /-- The references whose decrement is put off, in the order in which they were given up. -/
  deferred : List Ref := []
  arenas : Array Arena := #[]
  /-- The open scopes, the innermost first. -/
  scopes : List Scope := []
  stats : Statistics := {}

/-- What an operation comes to. -/
inductive Outcome (α : Type) where
  | done (memory : Memory) (value : α)
  /-- It could not be carried out. -/
  | refused (memory : Memory) (fault : Fault)
  /-- It broke off, because it would have taken a count below zero or have removed an object that is
  gone. Only a reference that was given up twice can bring this about. Nothing is promised about memory
  after this. -/
  | broken
  /-- It needed more memory than the system grants, which ends the program. -/
  | outOfMemory

/-- Go on with another operation if the first one was carried out. -/
def Outcome.bind {α β : Type} (o : Outcome α) (next : Memory → α → Outcome β) : Outcome β :=
  match o with
  | .done m a => next m a
  | .refused m f => .refused m f
  | .broken => .broken
  | .outOfMemory => .outOfMemory

namespace Memory

/-- Memory without objects on a machine. The secret is the configured one or, without one, the given
one. -/
def ofConfigOn (config : Config) (secret : UInt64) (machine : Machine) : Memory :=
  { config
    secret := config.handleSecret.getD secret
    components := { capacity := config.componentCapacity }
    pool := .ofLimitsOn config.pool machine }

/-- Memory without objects on the flat machine. -/
abbrev ofConfig (config : Config) (secret : UInt64) : Memory :=
  ofConfigOn config secret .flat

/-- The machine whose memory it is. -/
def machine (m : Memory) : Machine :=
  m.pool.machine

/-! ## Objects -/

/-- The object in a cell. -/
def object? (m : Memory) (r : Ref) : Option Object :=
  m.cells[r]?.join

/-- Whether a cell holds an object. -/
def isLive (m : Memory) (r : Ref) : Bool :=
  (m.object? r).isSome

/-- Change the object in a cell. -/
def update (m : Memory) (r : Ref) (f : Object → Object) : Memory :=
  { m with cells := m.cells.modify r (·.map f) }

/-- What the strong fields of an object refer to. -/
def strongTargets (m : Memory) (r : Ref) : List Ref :=
  (m.object? r).elim [] (·.strongTargets)

/-- How many cells hold an object. -/
def population (m : Memory) : Nat :=
  m.cells.countP (·.isSome)

/-! ## Types -/

/-- Register the layout of a type, in place of an earlier one. -/
def registerType (m : Memory) (tag : TypeTag) (layout : TypeLayout) : Memory :=
  { m with types := m.types.insert tag layout }

/-- The layout of a type. -/
def layout (m : Memory) (tag : TypeTag) : Except Fault TypeLayout :=
  match m.types[tag]? with
  | some l => .ok l
  | none => .error (.unknownType tag)

/-- What to allocate for a registered type. -/
def spec (m : Memory) (tag : TypeTag) : Except Fault ObjectSpec :=
  (m.layout tag).map fun l => { tag, payload := .ofFlags l.weakFlags }

/-! ## Allocation -/

/-- Place an object in a cell of its own. -/
def place (m : Memory) (o : Object) : Memory × Ref :=
  let r := m.cells.size
  ({ m with cells := m.cells.push (some o) }, r)

/-- Count an allocation. -/
def countAllocation (m : Memory) : Memory :=
  { m with stats.allocated := m.stats.allocated + 1 }

/-- Allocate an object on the heap. -/
def allocate (m : Memory) (spec : ObjectSpec) : Memory × Ref :=
  m.countAllocation.place { spec with }

/-- Allocate an object of a registered type on the heap. -/
def allocateType (m : Memory) (tag : TypeTag) (shared : Bool) : Outcome Ref :=
  match m.spec tag with
  | .error f => .refused m f
  | .ok spec =>
    let (m, r) := m.allocate { spec with shared }
    .done m r

/-- Allocate an object in the slot pool. -/
def allocateSlot (m : Memory) (spec : ObjectSpec) : Outcome Ref :=
  if m.pool.exceedsMemory (m.cells.size + 1) then .outOfMemory
  else
    let unused := m.cells.size
    -- one cell stays empty, so that no slot lies right behind the last one of another chunk
    let (pool, slot?) := m.pool.take (unused + 1)
    match slot? with
    | none => .refused { m with pool } (.poolExhausted pool.maxSlots)
    | some r =>
      let cells := m.cells ++ Array.replicate (pool.limit - unused) none
      let generation := (pool.slot? r).elim 0 (·.generation)
      let o : Object := { spec with origin := .slot, generation }
      .done { m with pool, cells := cells.setIfInBounds r (some o) }.countAllocation r

/-- Allocate an object of a registered type in the slot pool. -/
def allocateSlotType (m : Memory) (tag : TypeTag) (shared : Bool) : Outcome Ref :=
  match m.spec tag with
  | .error f => .refused m f
  | .ok spec => m.allocateSlot { spec with shared }

/-! ## Weak fields -/

/-- List a weak field under the object it refers to. -/
def watch (m : Memory) (holder : Ref) (index : Nat) (target : Ref) : Memory :=
  { m with
    referrers := m.referrers.insert target ((holder, index) :: m.referrers.getD target []) }

/-- Take a weak field off the list of an object. -/
def unwatch (m : Memory) (holder : Ref) (index : Nat) (target : Ref) : Memory :=
  let rest := (m.referrers.getD target []).erase (holder, index)
  { m with
    referrers :=
      if rest.isEmpty then m.referrers.erase target else m.referrers.insert target rest }

/-- How many objects some weak field refers to. -/
def watchedCount (m : Memory) : Nat :=
  m.referrers.size

/-- Empty all weak fields that refer to an object. -/
def clearReferrers (m : Memory) (r : Ref) : Memory :=
  let fields := m.referrers.getD r []
  let m :=
    { m with
      referrers := m.referrers.erase r
      stats.weakCleared := m.stats.weakCleared + fields.length }
  fields.foldl (fun m (holder, index) => m.update holder (·.setTarget index none)) m

/-! ## Taking objects out -/

/-- Empty a cell. A slot goes back to the pool. -/
def vacate (m : Memory) (r : Ref) (origin : Origin) : Memory :=
  let m := { m with cells := m.cells.setIfInBounds r none }
  match origin with
  | .heap => { m with stats.freed := m.stats.freed + 1 }
  | .slot => { m with pool := m.pool.giveBack r, stats.freed := m.stats.freed + 1 }
  | .arena _ => m

/-- Take an object out of memory. Weak fields that refer to it are emptied, and its own are no
longer listed. What its strong fields refer to is left to the caller. -/
def remove (m : Memory) (r : Ref) : Memory :=
  match m.object? r with
  | none => m
  | some o =>
    let m := m.clearReferrers r
    -- a weak field of the object that refers to the object itself is off the list by now
    let m := o.weakTargets.foldl (fun m (index, target) => m.unwatch r index target) m
    m.vacate r o.origin

/-! ## Laws -/

theorem population_update (m : Memory) (r : Ref) (f : Object → Object) :
    (m.update r f).population = m.population := by
  unfold population update
  by_cases h : r < m.cells.size
  · have hm : m.cells.modify r (·.map f) = m.cells.set r (m.cells[r].map f) h := by
      apply Array.ext
      · simp
      · intro i h₁ h₂
        simp only [Array.getElem_modify, Array.getElem_set]
        split
        · next he => subst he; rfl
        · rfl
    rw [hm, Array.countP_set]
    cases hr : m.cells[r] with
    | none => simp
    | some o =>
      have : 0 < m.cells.countP (·.isSome) :=
        Array.countP_pos_iff.2 ⟨m.cells[r], Array.getElem_mem h, by rw [hr]; rfl⟩
      simp only [Option.map_some, Option.isSome_some, ↓reduceIte]
      omega
  · have hm : m.cells.modify r (·.map f) = m.cells := by
      apply Array.ext
      · simp
      · intro i h₁ h₂
        have : r ≠ i := fun e => h (e ▸ h₂)
        simp [Array.getElem_modify, this]
    rw [hm]

theorem isLive_update (m : Memory) (r s : Ref) (f : Object → Object) :
    (m.update r f).isLive s = m.isLive s := by
  unfold isLive object? update
  rw [Array.getElem?_modify]
  split
  · cases m.cells[s]? with
    | none => rfl
    | some o => cases o <;> rfl
  · rfl

/-- Emptying the weak fields that refer to an object changes which cells hold objects as little as
any change of fields. -/
theorem clearReferrers_keeps (m : Memory) (r : Ref) :
    (m.clearReferrers r).population = m.population ∧
      ∀ s, (m.clearReferrers r).isLive s = m.isLive s := by
  unfold clearReferrers
  generalize m.referrers.getD r [] = fields
  suffices h : ∀ (fields : List (Ref × Nat)) (m : Memory),
      let n := fields.foldl (fun m (holder, index) => m.update holder (·.setTarget index none)) m
      n.population = m.population ∧ ∀ s, n.isLive s = m.isLive s from h fields _
  intro fields
  induction fields with
  | nil => exact fun m => ⟨rfl, fun s => rfl⟩
  | cons f rest ih =>
    intro m
    have h := ih (m.update f.1 (·.setTarget f.2 none))
    rw [population_update] at h
    exact ⟨h.1, fun s => (h.2 s).trans (isLive_update m f.1 s _)⟩

theorem cells_unwatchAll (r : Ref) (targets : List (Nat × Ref)) (m : Memory) :
    (targets.foldl (fun m (index, target) => m.unwatch r index target) m).cells = m.cells := by
  induction targets generalizing m with
  | nil => rfl
  | cons t rest ih => rw [List.foldl_cons, ih]; rfl

theorem components_unwatchAll (r : Ref) (targets : List (Nat × Ref)) (m : Memory) :
    (targets.foldl (fun m (index, target) => m.unwatch r index target) m).components =
      m.components := by
  induction targets generalizing m with
  | nil => rfl
  | cons t rest ih => rw [List.foldl_cons, ih]; rfl

theorem components_clearReferrers (m : Memory) (r : Ref) :
    (m.clearReferrers r).components = m.components := by
  unfold clearReferrers
  generalize m.referrers.getD r [] = fields
  suffices h : ∀ (fields : List (Ref × Nat)) (m : Memory),
      (fields.foldl (fun m (holder, index) => m.update holder (·.setTarget index none)) m).components
        = m.components from h fields _
  intro fields
  induction fields with
  | nil => exact fun m => rfl
  | cons f rest ih => exact fun m => (ih _).trans rfl

/-- Taking out an object does not change the registry of components. -/
theorem components_remove (m : Memory) (r : Ref) : (m.remove r).components = m.components := by
  unfold remove
  split
  · rfl
  · rename_i o _
    have h : ∀ n : Memory, (n.vacate r o.origin).components = n.components := by
      intro n
      unfold vacate
      cases o.origin <;> rfl
    rw [h, components_unwatchAll, components_clearReferrers]

theorem cells_vacate (m : Memory) (r : Ref) (origin : Origin) :
    (m.vacate r origin).cells = m.cells.setIfInBounds r none := by
  unfold vacate
  cases origin <;> rfl

theorem remove_of_not_isLive {m : Memory} {r : Ref} (h : m.isLive r = false) :
    m.remove r = m := by
  have : m.object? r = none := by simpa [isLive] using h
  rw [remove, this]

/-- Taking out a live object leaves one object less. -/
theorem population_remove {m : Memory} {r : Ref} (h : m.isLive r = true) :
    (m.remove r).population + 1 = m.population := by
  obtain ⟨o, ho⟩ := Option.isSome_iff_exists.1 h
  obtain ⟨hpop, hlive⟩ := m.clearReferrers_keeps r
  have hr := hlive r
  rw [h] at hr
  rw [← hpop]
  simp only [remove, ho, population, cells_vacate, cells_unwatchAll]
  generalize (m.clearReferrers r) = n at hr ⊢
  unfold isLive object? at hr
  by_cases hb : r < n.cells.size
  · have hs : n.cells[r].isSome = true := by simpa [hb] using hr
    have : 0 < n.cells.countP (·.isSome) :=
      Array.countP_pos_iff.2 ⟨n.cells[r], Array.getElem_mem hb, hs⟩
    simp only [Array.setIfInBounds, hb, ↓reduceDIte, Array.countP_set, hs, ↓reduceIte]
    simp
    omega
  · simp [hb] at hr

end Memory

end Reclamation
