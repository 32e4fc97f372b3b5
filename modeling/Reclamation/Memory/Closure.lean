import Reclamation.Memory.Basic
import Reclamation.Memory.SlotHandle

/-!
# Handles and closures

A closure does not own what it captures. It keeps a handle to each captured object and is called
only if all of them are still good, so a call never sees an object that is gone.
-/

set_option autoImplicit false

namespace Reclamation

/-- The captured objects of a closure, by handle, in the order of capture. -/
structure Closure where
  captures : List Handle
  deriving DecidableEq, Repr

namespace Memory

/-! ## Handles -/

/-- The handle to an object of the slot pool. -/
def handle (m : Memory) (r : Ref) : Except Fault Handle :=
  m.pool.handle m.secret r

/-- The object that a handle names, as long as the handle is good. -/
def deref? (m : Memory) (h : Handle) : Option Ref :=
  m.pool.deref? m.secret h

/-- Whether a handle is good. -/
def accepts (m : Memory) (h : Handle) : Bool :=
  m.pool.accepts m.secret h

/-- The object that a handle names, or the fault that reports a stale handle. -/
def resolve (m : Memory) (h : Handle) : Except Fault Ref :=
  m.pool.resolve m.secret h

/-! ## Closures -/

/-- Capture objects of the slot pool. -/
def capture (m : Memory) (values : List Ref) : Except Fault Closure :=
  (values.mapM m.handle).map Closure.mk

/-- The objects that a call of a closure sees, or the fault that reports the first capture that is
gone. -/
def call (m : Memory) (c : Closure) : Except Fault (List Ref) :=
  c.captures.zipIdx.mapM fun (h, index) =>
    match m.deref? h with
    | some r => .ok r
    | none => .error (.invalidCapture index)

end Memory

end Reclamation
