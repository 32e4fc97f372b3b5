import Reclamation.Memory.Handle
import Reclamation.Memory.SlotPool

/-!
# Handles to slots

A handle is made for a slot in use and carries the tag of the slot's generation. It is accepted as
long as the slot is in use and its generation still has that tag. Checking reads the slot only, so
it is safe when the object is long gone.
-/

set_option autoImplicit false

namespace Reclamation.SlotPool

/-- The handle to the object in a cell. -/
def handle (p : SlotPool) (secret : UInt64) (r : Ref) : Except Fault Handle :=
  let address := p.machine.address r
  if Handle.addressLimit ≤ address then .error (.addressOutOfRange address)
  else
    match p.slot? r with
    | none => .error (.addressOutOfRange address)
    | some s =>
      if s.inUse then .ok (.ofParts (handleTag address s.generation secret) address)
      else .error .invalidHandle

/-- The object that a handle names, as long as the handle is good. -/
def deref? (p : SlotPool) (secret : UInt64) (h : Handle) : Option Ref :=
  (p.machine.cell? h.address).filter fun r =>
    (p.slot? r).any fun s => s.inUse && handleTag h.address s.generation secret == h.tag

/-- Whether a handle is good. -/
def accepts (p : SlotPool) (secret : UInt64) (h : Handle) : Bool :=
  (p.deref? secret h).isSome

/-- The object that a handle names, or the fault that reports a stale handle. -/
def resolve (p : SlotPool) (secret : UInt64) (h : Handle) : Except Fault Ref :=
  match p.deref? secret h with
  | some r => .ok r
  | none => .error .invalidHandle

/-- A handle is good for the object it was made for. -/
theorem deref?_handle {p : SlotPool} {secret : UInt64} {r : Ref} {h : Handle}
    (hh : p.handle secret r = .ok h) : p.deref? secret h = some r := by
  simp only [handle] at hh
  split at hh
  · simp at hh
  · rename_i hfit
    split at hh
    · simp at hh
    · rename_i s hs
      split at hh
      · rename_i huse
        have hlt : p.machine.address r < Handle.addressLimit := Nat.lt_of_not_le hfit
        have he := Except.ok.inj hh
        subst he
        simp [deref?, Handle.address_ofParts _ hlt, Handle.tag_ofParts _ hlt,
          hs, huse]
      · simp at hh

end Reclamation.SlotPool
