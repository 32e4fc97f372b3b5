import Reclamation.Config
import Reclamation.Fault
import Reclamation.Memory.Bump
import Reclamation.Memory.Externals
import Reclamation.Memory.Object

/-!
# Arenas

An arena holds objects that die together. They are placed one behind the other in its chunks and are
not counted. A reference that outlives the region of an arena is registered as external; while there
is one the arena is not destroyed, but its destruction may be pending until the last one is
resolved.
-/

set_option autoImplicit false

namespace Reclamation

/-- A region of objects that are released together. -/
structure Arena where
  store : BumpStore
  /-- The objects, the latest first. -/
  objects : List Ref := []
  externals : Externals := []
  /-- Whether the last external reference that is resolved destroys the arena. -/
  pending : Bool := false
  destroyed : Bool := false
  deriving Repr

/-- What became of a request to destroy an arena as soon as possible. -/
inductive ArenaRelease where
  /-- It is destroyed, and so many chunks were released. -/
  | destroyed (chunks : Nat)
  /-- It waits for so many external references. -/
  | deferred (outstanding : Nat)
  deriving DecidableEq, Repr

namespace Arena

/-- An arena without objects. -/
def ofLimits (limits : ArenaLimits) : Arena :=
  { store := { chunkSize := max limits.chunkSize 1, maxChunks := limits.maxChunks } }

/-- The bytes of an object without its fields. -/
def headerSize : Nat := 64

/-- The bytes of a field. -/
def fieldSize : Nat := 16

/-- The boundary on which objects lie. -/
def alignment : Nat := 8

/-- The bytes of an object. -/
def objectSize (fieldCount : Nat) : Nat :=
  headerSize + fieldSize * fieldCount

/-- How many objects the arena holds. -/
def size (a : Arena) : Nat :=
  a.objects.length

/-- How many chunks the arena holds. -/
def chunkCount (a : Arena) : Nat :=
  a.store.chunks.length

/-- How many external references are not resolved. -/
def outstanding (a : Arena) : Nat :=
  a.externals.total.toNat

/-- Take the space for an object. -/
def reserve (a : Arena) (fieldCount : Nat) : Except Fault Arena :=
  if a.destroyed then .error .objectReleasing
  else
    match a.store.place? (objectSize fieldCount) alignment with
    | some (store, _) => .ok { a with store }
    | none => .error (.arenaExhausted a.store.maxChunks)

/-- The arena without its objects and chunks. -/
def emptied (a : Arena) : Arena :=
  { a with
    store := { a.store with chunks := [] }, objects := [], pending := false, destroyed := true }

/-- The text of an arena in reports. Its number is left open. -/
def text (a : Arena) : String :=
  "Arena \x7b id: _, objects: " ++ toString a.size ++ ", chunks: " ++ toString a.chunkCount ++
    ", outstanding: " ++ toString a.outstanding ++ ", destroyed: " ++ toString a.destroyed ++ " \x7d"

end Arena

end Reclamation
