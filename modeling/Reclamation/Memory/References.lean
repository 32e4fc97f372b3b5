import Reclamation.Memory.Release

/-!
# References

Giving up references at once or later, freeing a tree whatever its count, and writing fields. A
strong field takes its new reference before it gives up the old one, so writing a field with what
it already holds frees nothing. A reference whose decrement is put off stays counted until a safe
point applies it.
-/

set_option autoImplicit false

namespace Reclamation.Memory

/-! ## Giving up references -/

/-- Give up a reference of the program; the value is how many objects this freed. -/
def release (m : Memory) (r : Ref) : Outcome Nat :=
  .ofRelease (·.freed) ((({ memory := m } : Release).dropRef r).bind Release.run)

/-- Free an object whatever its count, and what only it kept in memory; the value is how many
objects that freed. An object that is counted together with others loses one reference instead, and
one in an arena is left to the arena. -/
def freeTree (m : Memory) (r : Ref) : Outcome Nat :=
  match m.object? r with
  | none => .refused m .objectReleasing
  | some o =>
    if o.arena?.isSome then .done m 0
    else if o.component.isSome || o.symmetric then m.release r
    else .ofRelease (·.freed) (({ memory := m, work := [.object r] } : Release).run)

/-! ## Putting decrements off -/

/-- How many decrements a safe point applies at most. -/
def batchSize (m : Memory) : Nat :=
  max m.config.deferral.batch 1

/-- How many decrements may wait before a batch is applied at once. -/
def queueLimit (m : Memory) : Nat :=
  max m.config.deferral.maxQueue 1

/-- Apply the first of the decrements that wait, up to a number; the value is how many. -/
def applyDeferred (m : Memory) (n : Nat) : Outcome Nat :=
  let due := m.deferred.take n
  if due.isEmpty then .done m 0
  else
    let s : Release := { memory := { m with deferred := m.deferred.drop n } }
    let counted (s : Release) : Release :=
      { s with memory.stats.deferredApplied := s.memory.stats.deferredApplied + due.length }
    .ofRelease (fun _ => due.length) (((due.foldlM Release.dropRef s).bind Release.run).map counted)

/-- Apply one batch of the decrements that wait. -/
def safePoint (m : Memory) : Outcome Nat :=
  m.applyDeferred m.batchSize

/-- Apply all decrements that wait. -/
def drain (m : Memory) : Outcome Nat :=
  m.applyDeferred m.deferred.length

/-- Give up a reference later. When the queue is full a batch is applied at once; the value is how
many decrements that applied. -/
def defer (m : Memory) (r : Ref) : Outcome Nat :=
  let m := { m with deferred := m.deferred ++ [r] }
  if m.queueLimit ≤ m.deferred.length then m.safePoint else .done m 0

/-! ## Writing fields -/

/-- Why a field of an object cannot be written, if so. -/
def fieldFault? (m : Memory) (o : Object) (index : Nat) (target : Option Ref) : Option Fault :=
  if o.frozen then some .frozenObject
  else if o.fields.length ≤ index then some (.fieldOutOfRange index o.fields.length)
  else
    match target.map m.object? with
    | none => none
    | some none => some .objectReleasing
    | some (some t) => if o.arena? = t.arena? then none else some .crossArenaReference

/-- Write a weak field of an object outside arenas. -/
def writeWeak (m : Memory) (r : Ref) (index : Nat) (old target : Option Ref) : Memory :=
  let m := m.update r (·.setTarget index target)
  let m := old.elim m fun t => m.unwatch r index t
  target.elim m fun t => m.watch r index t

/-- Write a strong field of an object outside arenas. -/
def writeStrong (m : Memory) (r : Ref) (index : Nat) (old target : Option Ref) :
    Option Release :=
  -- the new target first, since only the old one may keep it in memory
  let m := target.elim m m.acquireEdge
  let s : Release := { memory := m.update r (·.setTarget index target) }
  (old.elim (some s) s.dropEdge).bind Release.run

/-- Let a field refer to an object or to nothing. -/
def setField (m : Memory) (r : Ref) (index : Nat) (target : Option Ref) : Outcome Unit :=
  match m.object? r with
  | none => .refused m .objectReleasing
  | some o =>
    match m.fieldFault? o index target with
    | some f => .refused m f
    | none =>
      let old := o.target? index
      if o.arena?.isSome then .done (m.update r (·.setTarget index target)) ()
      else if o.fields[index]?.any (·.weak) then .done (m.writeWeak r index old target) ()
      else .ofRelease (fun _ => ()) (m.writeStrong r index old target)

end Reclamation.Memory
