/-!
# Finite directed graphs

Types that refer to types, blocks that jump to blocks and objects that refer to objects are all
walked as one kind of graph: nodes are the numbers below `size`, and each node has a list of
outgoing edges in a fixed order, each with a label. Several edges may join the same two nodes, an
edge may lead back to its own node, and an edge may name a number that is no node; such an edge
leads nowhere.

`Reaches` is the reachability relation that the walks of this library compute.
-/

set_option autoImplicit false

namespace Reclamation

/-- A finite directed graph with labelled edges. -/
structure Digraph (ε : Type) where
  /-- The nodes are the numbers below this one. -/
  size : Nat
  /-- The edges out of a node, in order: a label and the node it leads to. -/
  out : Nat → List (ε × Nat)

namespace Digraph

variable {ε : Type}

/-- Some edge of `u` leads to the node `v`. -/
def Edge (g : Digraph ε) (u v : Nat) : Prop :=
  v < g.size ∧ ∃ e, (e, v) ∈ g.out u

/-- `v` can be reached from `u` along zero or more edges. -/
inductive Reaches (g : Digraph ε) : Nat → Nat → Prop where
  | refl (v : Nat) : Reaches g v v
  | step {u v w : Nat} : g.Edge u v → Reaches g v w → Reaches g u w

theorem Reaches.trans {g : Digraph ε} {u v w : Nat} (huv : g.Reaches u v)
    (hvw : g.Reaches v w) : g.Reaches u w := by
  induction huv with
  | refl _ => exact hvw
  | step hedge _ ih => exact .step hedge (ih hvw)

theorem Edge.reaches {g : Digraph ε} {u v : Nat} (h : g.Edge u v) : g.Reaches u v :=
  .step h (.refl v)

theorem Reaches.lt_size {g : Digraph ε} {u v : Nat} (h : g.Reaches u v) (hu : u < g.size) : v < g.size := by
  induction h with
  | refl => exact hu
  | step hedge _ ih => exact ih hedge.1

/-- A rank that decreases along every edge decreases along every path. -/
theorem Reaches.eq_or_lt {g : Digraph ε} {u v : Nat} {rank : Nat → Nat} (h : g.Reaches u v)
    (hrank : ∀ {u v}, g.Edge u v → rank v < rank u) : u = v ∨ rank v < rank u := by
  induction h with
  | refl => exact .inl rfl
  | step hedge _ ih =>
    rcases ih with rfl | hlater
    · exact .inr (hrank hedge)
    · exact .inr (Nat.lt_trans hlater (hrank hedge))

/-- Each of the two nodes reaches the other. -/
def Mutual (g : Digraph ε) (u v : Nat) : Prop :=
  g.Reaches u v ∧ g.Reaches v u

theorem Mutual.symm {g : Digraph ε} {u v : Nat} (h : g.Mutual u v) : g.Mutual v u :=
  ⟨h.2, h.1⟩

theorem Mutual.trans {g : Digraph ε} {u v w : Nat} (huv : g.Mutual u v)
    (hvw : g.Mutual v w) : g.Mutual u w :=
  ⟨huv.1.trans hvw.1, hvw.2.trans huv.2⟩

end Digraph

end Reclamation
