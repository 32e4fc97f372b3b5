import Reclamation.Memory.Closure
import Reclamation.Memory.References

/-!
# Scopes

A symmetric object that is allocated in a scope starts with one reference, which the scope owns and
gives up when it is closed. The scope knows the object by a handle, so an object that was freed
early leaves nothing behind that could be mistaken for the next occupant of its slot.
-/

set_option autoImplicit false

namespace Reclamation

/-- Let a scope own a reference to an object. -/
def Scope.add (scope : Scope) (r : Ref) (h : Handle) : Scope :=
  (r, h) :: scope.filter (·.1 != r)

namespace Memory

/-- Open a scope. -/
def enterScope (m : Memory) : Memory :=
  { m with scopes := [] :: m.scopes }

/-- How many scopes are open. -/
def depth (m : Memory) : Nat :=
  m.scopes.length

/-- The live objects to which some entries of scopes own a reference, in the order of the entries. -/
def owned (m : Memory) (entries : Scope) : List Ref :=
  entries.filterMap fun entry => m.deref? entry.2

/-- The entries of the innermost scope, in the order in which they were made. -/
def innermost (m : Memory) : Scope :=
  (m.scopes.headD []).reverse

/-- Close the innermost scope; the value is how many objects this freed. A scope does not keep its
entries in order, so they come out in whatever order they are given in here. -/
def exitScopeIn (m : Memory) (entries : Scope) : Outcome Nat :=
  match m.scopes with
  | [] => .refused m .noActiveScope
  | _ :: scopes =>
    -- off the stack before any of its references is given up
    let dropped := (m.owned entries).foldlM Release.dropRef { memory := { m with scopes } }
    .ofRelease (·.freed) (dropped.bind Release.run)

/-- Close the innermost scope, its entries in the order in which they were made. -/
abbrev exitScope (m : Memory) : Outcome Nat :=
  m.exitScopeIn m.innermost

/-- Allocate a symmetric object that the innermost scope owns. -/
def allocateScoped (m : Memory) (spec : ObjectSpec) : Outcome Ref :=
  match m.scopes with
  | [] => .refused m .noActiveScope
  | scope :: scopes =>
    (m.allocateSlot { spec with symmetric := true }).bind fun m r =>
      match m.handle r with
      | .ok h => .done { m with scopes := scope.add r h :: scopes } r
      | .error f => .refused m f

/-- Allocate an object of a registered type that the innermost scope owns. -/
def allocateScopedType (m : Memory) (tag : TypeTag) (shared : Bool) : Outcome Ref :=
  match m.spec tag with
  | .error f => .refused m f
  | .ok spec => m.allocateScoped { spec with shared }

/-- The scopes after the innermost one that owns a reference to an object has lost it. -/
def disown (m : Memory) (r : Ref) : List Scope → List Scope
  | [] => []
  | scope :: outer =>
    if scope.any fun entry => entry.1 == r && m.deref? entry.2 == some r then
      scope.filter (·.1 != r) :: outer
    else scope :: m.disown r outer

/-- Give up a reference to a symmetric object, that of a scope if one owns it; the value is how many
objects this freed. -/
def releaseScoped (m : Memory) (r : Ref) : Outcome Nat :=
  { m with scopes := m.disown r m.scopes }.release r

end Memory

end Reclamation
