import Reclamation.Memory.Basic

/-!
# Arenas in memory

Objects of an arena are placed in cells like others but have no counts. They leave memory only
together, when the arena is destroyed or given up. No field outside the arena refers to them, so
nothing has to be cleared.
-/

set_option autoImplicit false

namespace Reclamation.Memory

/-- Start an arena. -/
def newArena (m : Memory) : Memory × ArenaId :=
  ({ m with arenas := m.arenas.push (.ofLimits m.config.arena) }, m.arenas.size)

/-- Replace an arena. -/
def setArena (m : Memory) (id : ArenaId) (a : Arena) : Memory :=
  { m with arenas := m.arenas.setIfInBounds id a }

/-! ## Allocation -/

/-- Allocate a record in an arena, each field weak or not as its flag says. -/
def allocateFields (m : Memory) (id : ArenaId) (tag : TypeTag) (weak : List Bool) : Outcome Ref :=
  match m.arenas[id]? with
  | none => .refused m .objectReleasing
  | some a =>
    match a.reserve weak.length with
    | .error f => .refused m f
    | .ok a' =>
      if (a.store.opened? a'.store).any (!m.machine.grants m.cells.size ·) then .outOfMemory
      else
        let (m, r) := m.place { tag, payload := .ofFlags weak, origin := .arena id }
        .done (m.setArena id { a' with objects := r :: a'.objects }) r

/-- Allocate an object of a registered type in an arena. -/
def allocateInArena (m : Memory) (id : ArenaId) (tag : TypeTag) : Outcome Ref :=
  match m.layout tag with
  | .error f => .refused m f
  | .ok l => m.allocateFields id tag l.weakFlags

/-! ## Destruction -/

/-- Take the objects and chunks of an arena out of memory. -/
def emptyArena (m : Memory) (id : ArenaId) (a : Arena) : Memory :=
  (a.objects.foldl (fun m r => m.vacate r (.arena id)) m).setArena id a.emptied

/-- Destroy an arena; the value is how many chunks were released. Refused while an external
reference is outstanding; a second destruction releases nothing. -/
def destroyArena (m : Memory) (id : ArenaId) : Outcome Nat :=
  match m.arenas[id]? with
  | none => .done m 0
  | some a =>
    if 0 < a.outstanding then .refused m (.arenaHasExternals a.outstanding)
    else if a.destroyed then .done m 0
    else
      let m := m.emptyArena id a
      .done { m with stats.arenasDestroyed := m.stats.arenasDestroyed + 1 } a.chunkCount

/-- Destroy an arena at once or as soon as its last external reference is resolved. -/
def destroyArenaWhenResolved (m : Memory) (id : ArenaId) : Outcome ArenaRelease :=
  match m.arenas[id]? with
  | none => .done m (.destroyed 0)
  | some a =>
    if 0 < a.outstanding then
      .done (m.setArena id { a with pending := true }) (.deferred a.outstanding)
    else (m.destroyArena id).bind fun m chunks => .done m (.destroyed chunks)

/-- Give an arena up without destroying it. Its objects are gone, and nothing is counted. -/
def abandonArena (m : Memory) (id : ArenaId) : Memory :=
  match m.arenas[id]? with
  | none => m
  | some a => if a.destroyed then m else m.emptyArena id a

/-! ## External references -/

/-- Register a reference to an object of an arena that outlives the arena's region. -/
def registerExternal (m : Memory) (id : ArenaId) (r : Ref) : Outcome Unit :=
  match m.arenas[id]? with
  | none => .refused m .crossArenaReference
  | some a =>
    if (m.object? r).bind (·.arena?) = some id then
      .done (m.setArena id { a with externals := a.externals.raise r }) ()
    else .refused m .crossArenaReference

/-- Resolve a registered reference; the value is whether this destroyed the arena. -/
def resolveExternal (m : Memory) (id : ArenaId) (r : Ref) : Outcome Bool :=
  match m.arenas[id]? with
  | none => .refused m .unknownExternal
  | some a =>
    match a.externals.lower? r with
    | none => .refused m .unknownExternal
    | some externals =>
      let a := { a with externals }
      let m := m.setArena id a
      if a.pending && a.outstanding = 0 then
        (m.destroyArena id).bind fun m _ => .done m true
      else .done m false

end Reclamation.Memory
