import Reclamation.Memory.Ref

/-!
# External references

An arena counts the references to its objects that outlive its region: for each object that has one,
how many there are. The counts and their sum are words of 32 bits, and neither is watched for
overflow.
-/

set_option autoImplicit false

namespace Reclamation

/-- The objects to which external references are registered, each with the count of them. -/
abbrev Externals := List (Ref × UInt32)

namespace Externals

/-- Register one more reference to an object. -/
def raise (r : Ref) : Externals → Externals
  | [] => [(r, 1)]
  | (x, n) :: rest => if x = r then (x, n + 1) :: rest else (x, n) :: raise r rest

/-- Resolve one reference to an object, if there is a count for it. A count that comes down to zero
is taken off. -/
def lower? (r : Ref) : Externals → Option Externals
  | [] => none
  | (x, n) :: rest =>
    if x = r then some (if n - 1 = 0 then rest else (x, n - 1) :: rest)
    else (lower? r rest).map ((x, n) :: ·)

/-- The sum of the counts. -/
def total : Externals → UInt32
  | [] => 0
  | (_, n) :: rest => n + total rest

end Externals

end Reclamation
