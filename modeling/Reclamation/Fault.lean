import Reclamation.EntryPoint
import Reclamation.Text.Numeral

/-!
# Faults

What a runtime operation reports when it cannot be carried out. A fault is a cause; its text and
the status code that stands for it at the C boundary are functions of the cause. A fault leaves
the runtime in a state in which the next operation can run.
-/

set_option autoImplicit false

namespace Reclamation

/-- Why a runtime operation was refused. -/
inductive Fault where
  /-- The tag of a handle does not fit its slot, or the slot is free. -/
  | invalidHandle
  /-- The capture at this place of a closure is gone. -/
  | invalidCapture (index : Nat)
  | arenaHasExternals (outstanding : Nat)
  /-- An object of an arena may only refer to objects of the same arena. -/
  | crossArenaReference
  /-- The object was not registered as external, or every registration is resolved. -/
  | unknownExternal
  | arenaExhausted (maxChunks : Nat)
  | componentsExhausted (capacity : Nat)
  | poolExhausted (capacity : Nat)
  /-- A field of a member of a frozen component cannot be written. -/
  | frozenObject
  | fieldOutOfRange (index count : Nat)
  | notInComponent
  | noActiveScope
  /-- The object is no longer in memory. -/
  | objectReleasing
  | unknownType (tag : Nat)
  /-- The address does not fit a handle or is not that of a slot. -/
  | addressOutOfRange (address : Nat)
  deriving DecidableEq, Repr

namespace Fault

/-- The text of a fault. -/
def message : Fault → String
  | invalidHandle => "invalid handle"
  | invalidCapture index => "closure capture " ++ toString index ++ " is no longer valid"
  | arenaHasExternals outstanding =>
    "arena has " ++ toString outstanding ++ " outstanding external reference(s)"
  | crossArenaReference => "reference crosses an arena boundary"
  | unknownExternal => "pointer is not a registered arena external"
  | arenaExhausted maxChunks => "arena exhausted after " ++ toString maxChunks ++ " chunk(s)"
  | componentsExhausted capacity =>
    "SCC registry exhausted (capacity " ++ toString capacity ++ ")"
  | poolExhausted capacity => "slot pool exhausted (capacity " ++ toString capacity ++ ")"
  | frozenObject => "object is frozen"
  | fieldOutOfRange index count =>
    "field " ++ toString index ++ " out of range for " ++ toString count ++ " field(s)"
  | notInComponent => "object is not a member of a live SCC"
  | noActiveScope => "no active symmetric RC scope"
  | objectReleasing => "object is being released"
  | unknownType tag => "unknown type tag " ++ toString tag
  | addressOutOfRange address => "address 0x" ++ Text.hex address ++ " is outside the slot pool"

/-- The status that stands for a fault at the C boundary. -/
def status : Fault → Status
  | invalidHandle | invalidCapture _ => .invalidHandle
  | arenaHasExternals _ => .deferred
  | crossArenaReference | unknownExternal => .crossArena
  | arenaExhausted _ | poolExhausted _ => .poolExhausted
  | componentsExhausted _ => .sccExhausted
  | frozenObject => .frozen
  | fieldOutOfRange _ _ => .fieldOutOfRange
  | notInComponent => .notInScc
  | noActiveScope => .noScope
  | objectReleasing | addressOutOfRange _ => .invalidObject
  | unknownType _ => .unknownType

end Fault

end Reclamation
