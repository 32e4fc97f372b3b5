import Reclamation.EntryPoint
import Reclamation.Memory.Freeze
import Reclamation.Memory.Region
import Reclamation.Memory.Scopes

/-!
# Calls of the C entry points

What a compiled program asks of the runtime, one constructor for each entry point, and what it gets
back. C has no way to leave out an argument, so objects and arenas may be null here, and faults come
back as status codes or null pointers. A pool, an arena or a system that has no memory left for an
allocation, and a release that breaks off, end the program: there is no reply.
-/

set_option autoImplicit false

namespace Reclamation

/-- A call of an entry point with its arguments. -/
inductive Call where
  | runtimeInit
  | registerType (tag : TypeTag) (layout : TypeLayout)
  | alloc (tag : TypeTag) (shared : Bool)
  | setField (obj : Option Ref) (index : Nat) (target : Option Ref)
  | freeTree (obj : Option Ref)
  | incRef (obj : Option Ref)
  | decRef (obj : Option Ref)
  | safePoint
  | sccFreeze (obj : Option Ref)
  | sccRelease (obj : Option Ref)
  | arenaCreate
  | arenaAlloc (arena : Option ArenaId) (tag : TypeTag)
  | arenaRegisterExternal (arena : Option ArenaId) (obj : Option Ref)
  | arenaResolveExternal (arena : Option ArenaId) (obj : Option Ref)
  | arenaDestroy (arena : Option ArenaId)
  | symEnterScope
  | symExitScope
  | symAlloc (tag : TypeTag)
  | symAcquire (obj : Option Ref)
  | symRelease (obj : Option Ref)
  | symLink (obj : Option Ref) (index : Nat) (target : Option Ref)
  | slotPoolAlloc (tag : TypeTag) (shared symmetric : Bool)
  | slotPoolFree (obj : Option Ref)
  | makeHandle (obj : Option Ref)
  | handleIsValid (handle : Handle)
  | handleDeref (handle : Handle)
  deriving DecidableEq, Repr

/-- What a call returns. -/
inductive Reply where
  | nothing
  /-- A status code, a truth value or a number. -/
  | number (n : Int)
  /-- The address of an object, or null. -/
  | object (r : Option Ref)
  | arena (id : Option ArenaId)
  | handle (h : Handle)
  deriving DecidableEq, Repr

/-- The entry point that a call goes to. -/
def Call.entryPoint : Call → EntryPoint
  | runtimeInit => .runtimeInit
  | registerType _ _ => .registerType
  | alloc _ _ => .alloc
  | setField _ _ _ => .setField
  | freeTree _ => .freeTree
  | incRef _ => .incRef
  | decRef _ => .decRef
  | safePoint => .safePoint
  | sccFreeze _ => .sccFreeze
  | sccRelease _ => .sccRelease
  | arenaCreate => .arenaCreate
  | arenaAlloc _ _ => .arenaAlloc
  | arenaRegisterExternal _ _ => .arenaRegisterExternal
  | arenaResolveExternal _ _ => .arenaResolveExternal
  | arenaDestroy _ => .arenaDestroy
  | symEnterScope => .symEnterScope
  | symExitScope => .symExitScope
  | symAlloc _ => .symAlloc
  | symAcquire _ => .symAcquire
  | symRelease _ => .symRelease
  | symLink _ _ _ => .symLink
  | slotPoolAlloc _ _ _ => .slotPoolAlloc
  | slotPoolFree _ => .slotPoolFree
  | makeHandle _ => .makeHandle
  | handleIsValid _ => .handleIsValid
  | handleDeref _ => .handleDeref

/-! ## Outcomes at the C boundary -/

/-- The reply of a status. -/
def Reply.status (s : Status) : Reply :=
  .number s.code

namespace Outcome

variable {α : Type}

/-- A number read off the value, or the status code of the fault. -/
def toNumber (value : α → Int) : Outcome α → Option (Memory × Reply)
  | done m a => some (m, .number (value a))
  | refused m f => some (m, .status f.status)
  | broken | outOfMemory => none

/-- Success, or the status code of the fault. -/
def toStatus : Outcome α → Option (Memory × Reply) :=
  toNumber fun _ => Status.ok.code

/-- Nothing, whatever became of the operation. -/
def toNothing : Outcome α → Option (Memory × Reply)
  | done m _ | refused m _ => some (m, .nothing)
  | broken | outOfMemory => none

/-- The object that was allocated, or null. Running out of memory ends the program. -/
def toObject : Outcome Ref → Option (Memory × Reply)
  | done m r => some (m, .object (some r))
  | refused _ (.poolExhausted _) | refused _ (.arenaExhausted _) => none
  | refused m _ => some (m, .object none)
  | broken | outOfMemory => none

end Outcome

namespace Memory

/-- Carry out an operation on an object; a null pointer is refused with a status. -/
def withObject (m : Memory) (obj : Option Ref) (f : Ref → Option (Memory × Reply)) :
    Option (Memory × Reply) :=
  obj.elim (some (m, .status .invalidObject)) f

/-- Free an object of the slot pool. -/
def freeSlot (m : Memory) (r : Ref) : Option (Memory × Reply) :=
  match m.pool.slot? r with
  | none => some (m, .status .invalidObject)
  | some s => if s.inUse then (m.freeTree r).toStatus else some (m, .status .invalidHandle)

/-- The handle to an object of the slot pool, or the one that is never good. -/
def handleOrNull (m : Memory) (obj : Option Ref) : Handle :=
  match obj.map m.handle with
  | some (.ok h) => h
  | some (.error _) | none => .null

/-- Carry out a call. No reply means that the program has ended. -/
def perform (m : Memory) : Call → Option (Memory × Reply)
  | .runtimeInit => some (m, .status .ok)
  | .registerType tag layout => some (m.registerType tag layout, .status .ok)
  | .alloc tag shared => (m.allocateType tag shared).toObject
  | .setField obj index target | .symLink obj index target =>
    m.withObject obj fun r => (m.setField r index target).toStatus
  | .freeTree obj => obj.elim (some (m, .nothing)) fun r => (m.freeTree r).toNothing
  | .incRef obj => some (obj.elim m m.acquire, .nothing)
  | .decRef obj =>
    obj.elim (some (m, .nothing)) fun r =>
      (if m.config.deferral.enabled then m.defer r else m.release r).toNothing
  | .safePoint => m.safePoint.toNumber Int.ofNat
  | .sccFreeze obj => m.withObject obj fun r => (m.freeze r).toNumber (·.length)
  | .sccRelease obj => m.withObject obj fun r => (m.release r).toStatus
  | .arenaCreate =>
    let (m, id) := m.newArena
    some (m, .arena (some id))
  | .arenaAlloc arena tag =>
    arena.elim (some (m, .object none)) fun id => (m.allocateInArena id tag).toObject
  | .arenaRegisterExternal arena obj =>
    m.withObject obj fun r => m.withObject arena fun id => (m.registerExternal id r).toStatus
  | .arenaResolveExternal arena obj =>
    m.withObject obj fun r => m.withObject arena fun id => (m.resolveExternal id r).toStatus
  | .arenaDestroy arena =>
    m.withObject arena fun id =>
      (m.destroyArenaWhenResolved id).toNumber fun release =>
        match release with
        | .destroyed _ => Status.ok.code
        | .deferred _ => Status.deferred.code
  | .symEnterScope => some (m.enterScope, .nothing)
  | .symExitScope => m.exitScope.toStatus
  | .symAlloc tag => (m.allocateScopedType tag false).toObject
  | .symAcquire obj => m.withObject obj fun r => some (m.acquire r, .status .ok)
  | .symRelease obj => m.withObject obj fun r => (m.releaseScoped r).toStatus
  | .slotPoolAlloc tag shared symmetric =>
    (if symmetric then m.allocateScopedType tag shared else m.allocateSlotType tag shared).toObject
  | .slotPoolFree obj => m.withObject obj m.freeSlot
  | .makeHandle obj => some (m, .handle (m.handleOrNull obj))
  | .handleIsValid h => some (m, .number (if m.accepts h then 1 else 0))
  | .handleDeref h => some (m, .object (m.deref? h))

end Memory

end Reclamation
