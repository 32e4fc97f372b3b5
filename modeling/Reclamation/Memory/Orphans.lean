import Std.Data.HashSet
import Reclamation.Graph.Walk
import Reclamation.Memory.Basic

/-!
# Orphans

Symmetric objects keep the references of the program apart from those of fields. One to which the
program refers no more may still be held by a field, and that field may belong to an object that
nothing else holds. So when candidates are given, all objects without a reference of the program
that can be reached from them through such objects are looked at together. One of them is held from
outside if fields refer to it more often than their fields do; it and what it reaches is kept. The
rest are orphans: they refer to each other and nothing else refers to them.
-/

set_option autoImplicit false

namespace Reclamation.Memory

/-- Whether an object is symmetric and the program does not refer to it. -/
def isUnowned (m : Memory) (r : Ref) : Bool :=
  (m.object? r).any fun o => o.symmetric && o.count == 0

/-- The strong references among the objects that the program does not refer to. A walk takes the
fields of an object from the last to the first. -/
def unownedGraph (m : Memory) : Digraph Unit where
  size := m.cells.size
  out r := ((m.strongTargets r).reverse.filter m.isUnowned).map ((), ·)

/-- How often the strong fields of the given objects refer to each object. -/
def referenceCounts (m : Memory) (holders : List Ref) : Std.HashMap Ref Nat :=
  (holders.flatMap m.strongTargets).foldl (fun counts r => counts.insert r (counts.getD r 0 + 1)) ∅

/-- Whether fields refer to a symmetric object more often than the given number. -/
def isHeldBeyond (m : Memory) (r : Ref) (n : Nat) : Bool :=
  (m.object? r).any fun o => n < o.internal.toNat

/-- The objects among the candidates, and behind them, that nothing else holds. -/
def orphans (m : Memory) (candidates : List Ref) : List Ref :=
  let found := m.unownedGraph.preorder (candidates.filter m.isUnowned)
  let inner := m.referenceCounts found
  let held := found.filter fun r => m.isHeldBeyond r (inner.getD r 0)
  let kept := Std.HashSet.ofList (m.unownedGraph.preorder held)
  found.filter fun r => !kept.contains r

end Reclamation.Memory
