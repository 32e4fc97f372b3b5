import Reclamation.Config
import Reclamation.Fault
import Reclamation.Memory.Machine

/-!
# The slot pool

Storage for objects that handles can name. A slot is a cell whose generation is kept also while it
is empty: it moves on when the slot is taken and again when it is given back, so it is even exactly
while the slot is in use. Generations stay below a guard; a slot that could not be used once more
without reaching it is retired and never taken again.

Slots come in chunks, each twice as long as the one before, and are added when no slot is free. A
new chunk is handed out in ascending order, and a slot that was given back is the next to be taken.
-/

set_option autoImplicit false

namespace Reclamation

/-- The generation below which all slots stay. -/
def generationGuard : Nat := 65535

/-- How many chunks a pool can have. -/
def maxSlotChunks : Nat := 32

/-- The state of a slot. -/
structure Slot where
  generation : Nat := 1
  inUse : Bool := false
  deriving DecidableEq, Repr

/-- Slots in cells that lie one after the other. -/
structure SlotChunk where
  /-- The cell of the first slot. -/
  base : Ref
  slots : Array Slot
  deriving Repr

/-- A pool of slots. -/
structure SlotPool where
  /-- The machine on which the pool is. -/
  machine : Machine
  /-- The slots of the first chunk, at least one. -/
  initialSlots : Nat
  /-- How many slots there may be in all. -/
  maxSlots : Nat
  chunks : Array SlotChunk := #[]
  /-- The slots that are neither in use nor retired; the first is taken next. -/
  free : List Ref := []
  /-- How many slots there are. -/
  capacity : Nat := 0
  /-- How many slots are in use. -/
  live : Nat := 0
  /-- How many slots are retired. -/
  retired : Nat := 0

namespace SlotPool

/-- A pool without slots on a machine. -/
def ofLimitsOn (limits : PoolLimits) (machine : Machine) : SlotPool :=
  { machine, initialSlots := max limits.initialSlots 1, maxSlots := limits.maxSlots }

/-- A pool without slots on the flat machine. -/
abbrev ofLimits (limits : PoolLimits) : SlotPool :=
  ofLimitsOn limits .flat

/-! ## Slots -/

/-- The chunk that has a slot in a cell, by its index. -/
def chunkIndex? (p : SlotPool) (r : Ref) : Option Nat :=
  p.chunks.findIdx? fun c => c.base ≤ r && r < c.base + c.slots.size

/-- The slot in a cell. -/
def slot? (p : SlotPool) (r : Ref) : Option Slot :=
  (p.chunkIndex? r).bind fun i => p.chunks[i]?.bind fun c => c.slots[r - c.base]?

/-- Whether a cell holds a slot that is in use. -/
def isInUse (p : SlotPool) (r : Ref) : Bool :=
  (p.slot? r).any (·.inUse)

/-- The first cell behind all chunks. -/
def limit (p : SlotPool) : Ref :=
  p.chunks.foldl (fun n c => max n (c.base + c.slots.size)) 0

/-- Change the slot in a cell; a cell without one changes nothing. -/
def updateSlot (p : SlotPool) (r : Ref) (f : Slot → Slot) : SlotPool :=
  match p.chunkIndex? r with
  | none => p
  | some i =>
    { p with
      chunks := p.chunks.modify i fun c => { c with slots := c.slots.modify (r - c.base) f } }

/-! ## Taking a slot -/

/-- The slots that the next chunk is to have. The doubling is that of a 64-bit word. -/
def nextChunkSlots (p : SlotPool) : Nat :=
  min ((p.initialSlots <<< p.chunks.size) % UInt64.size) (p.maxSlots - p.capacity)

/-- Whether another chunk may be added. -/
def canGrow (p : SlotPool) : Bool :=
  p.chunks.size < maxSlotChunks && p.capacity < p.maxSlots

/-- Whether taking a slot needs a chunk that the system does not grant at the cell `base`. -/
def exceedsMemory (p : SlotPool) (base : Ref) : Bool :=
  p.free.isEmpty && p.canGrow && !p.machine.grants base (p.nextChunkSlots * Ref.cellSize)

/-- Add a chunk, if one may be added, at a cell from which on all are unused. -/
def grow (p : SlotPool) (base : Ref) : SlotPool :=
  if p.canGrow then
    let n := p.nextChunkSlots
    { p with
      chunks := p.chunks.push { base, slots := Array.replicate n {} }
      -- ascending, the first one at the front
      free := List.range' base n ++ p.free
      capacity := p.capacity + n }
  else p

/-- Take the slot that is first among the free ones, if there is one. -/
def takeFree (p : SlotPool) : SlotPool × Option Ref :=
  match p.free with
  | [] => (p, none)
  | r :: free =>
    let p := { p with free, live := p.live + 1 }
    (p.updateSlot r fun s => { generation := s.generation + 1, inUse := true }, some r)

/-- Take a slot. If none is free a chunk is added at the cell `base`. -/
def take (p : SlotPool) (base : Ref) : SlotPool × Option Ref :=
  (if p.free.isEmpty then p.grow base else p).takeFree

/-! ## Giving a slot back -/

/-- Whether a slot at a generation, being given back, can be used once more below the guard. -/
def isReusable (generation : Nat) : Bool :=
  generation + 2 < generationGuard

/-- Give a slot back: its generation moves on, and it is free again or retired. A cell without a
slot in use changes nothing. -/
def giveBack (p : SlotPool) (r : Ref) : SlotPool :=
  match p.slot? r with
  | some ⟨generation, true⟩ =>
    let p := p.updateSlot r fun s => { generation := s.generation + 1, inUse := false }
    let p := { p with live := p.live - 1 }
    if isReusable (generation + 1) then { p with free := r :: p.free }
    else { p with retired := p.retired + 1 }
  | _ => p

/-- Why a slot cannot be given back, if so. -/
def giveBackFault? (p : SlotPool) (r : Ref) : Option Fault :=
  match p.slot? r with
  | none => some (.addressOutOfRange (p.machine.address r))
  | some s => if s.inUse then none else some .invalidHandle

/-- The text of a pool in reports. -/
def text (p : SlotPool) : String :=
  "SlotPool \x7b chunks: " ++ toString p.chunks.size ++ ", live: " ++ toString p.live ++ " \x7d"

/-! ## Laws -/

theorem free_updateSlot (p : SlotPool) (r : Ref) (f : Slot → Slot) :
    (p.updateSlot r f).free = p.free := by
  unfold updateSlot
  split <;> rfl

/-- A slot that is taken was the first free one, and no longer is free. -/
theorem free_takeFree {p : SlotPool} {r : Ref} (h : p.takeFree.2 = some r) :
    p.free = r :: p.takeFree.1.free := by
  unfold takeFree at h ⊢
  split
  · simp_all
  · simp_all [free_updateSlot]

/-- No slot can be taken exactly when none is free and no slot can be added. -/
theorem take_eq_none_iff (p : SlotPool) (base : Ref) :
    (p.take base).2 = none ↔ p.free = [] ∧ (p.canGrow = true → p.nextChunkSlots = 0) := by
  unfold take
  cases hf : p.free with
  | cons r free => simp [takeFree, hf]
  | nil =>
    by_cases hg : p.canGrow
    · cases hn : p.nextChunkSlots <;> simp [grow, hg, takeFree, hf, hn, List.range'_succ]
    · simp [grow, hg, takeFree, hf]

end SlotPool

end Reclamation
