import Mathlib
import Reclamation.Program.Body
import Reclamation.Proofs.Graph.Orders

/-!
# The order of the blocks

The analyses that follow the flow of control take the blocks of a body in an order in which a block comes before
those it leads to, as far as there is one. What this comes to is said here for any body, be its flow reducible or
not (`reversePostorder_exact`): the blocks that control can get to, each once and the entry first, and a jump that
does not go forward in the order closes a cycle. Where there is no cycle, every jump goes forward.

A jump to a block that does not exist leads nowhere, and complete bodies have none.
-/

set_option autoImplicit false

namespace Reclamation.Body

variable {b : Body} {u v : BlockId}

/-- Control may go from the one block to the other, which exists. -/
def Jumps (b : Body) (u v : BlockId) : Prop :=
  v < b.blocks.size ∧ v ∈ b.successors u

theorem flow_edge_iff : b.flow.Edge u v ↔ b.Jumps u v := by
  simp [Digraph.Edge, flow, Jumps]

theorem flow_reaches_iff : b.flow.Reaches u v ↔ Relation.ReflTransGen b.Jumps u v := by
  have hedge : b.flow.Edge = b.Jumps := by
    funext u v
    exact propext flow_edge_iff
  rw [Digraph.reaches_iff_reflTransGen, hedge]

/-! ## Predecessors -/

/-- Where each number below a bound comes as often as is asked for. -/
theorem count_flatMap_replicate (k : Nat → Nat) (n u : Nat) :
    ((List.range n).flatMap fun p => List.replicate (k p) p).count u = if u < n then k u else 0 := by
  induction n with
  | zero => rfl
  | succ n ih =>
    rw [List.range_succ, List.flatMap_append, List.count_append, ih, List.flatMap_singleton, List.count_replicate]
    by_cases hu : n = u
    · subst hu
      simp
    · have hlt : u < n + 1 ↔ u < n := by omega
      simp [hu, hlt]

/-- A block comes among the predecessors of another as often as it names that one. -/
theorem count_predecessors (b : Body) (u v : BlockId) : (b.predecessors v).count u = (b.successors u).count v := by
  have hcopies : b.predecessors v =
      (List.range b.blocks.size).flatMap fun p => List.replicate ((b.successors p).count v) p := by
    refine List.flatMap_congr fun p _ => ?_
    rw [List.map_const', ← List.countP_eq_length_filter]
    rfl
  rw [hcopies, count_flatMap_replicate]
  split
  · rfl
  · next hu =>
    have hnone : b.successors u = [] := by
      rw [successors, Array.getElem?_eq_none (Nat.not_lt.1 hu)]
    rw [hnone]
    rfl

/-! ## The order -/

theorem mem_reversePostorder : v ∈ b.reversePostorder ↔
    v < b.blocks.size ∧ Relation.ReflTransGen b.Jumps entryBlock v := by
  rw [reversePostorder, List.mem_reverse, Digraph.mem_postorder, ← flow_reaches_iff]
  simp only [List.mem_singleton, exists_eq_left]
  constructor
  · rintro ⟨hentry, hreach⟩
    exact ⟨hreach.lt_size hentry, hreach⟩
  · rintro ⟨hv, hreach⟩
    -- where some block exists the entry does
    exact ⟨Nat.zero_lt_of_lt hv, hreach⟩

/-- A jump out of a listed block goes forward in the order, or it closes a cycle. -/
theorem idxOf_lt_or_leads (hu : u ∈ b.reversePostorder) (hjump : b.Jumps u v) :
    b.reversePostorder.idxOf u < b.reversePostorder.idxOf v ∨ Relation.ReflTransGen b.Jumps v u := by
  rcases Nat.lt_or_ge (b.reversePostorder.idxOf u) (b.reversePostorder.idxOf v) with hlt | hle
  · exact .inl hlt
  · exact .inr (flow_reaches_iff.1 (Digraph.reaches_of_idxOf_le hu (flow_edge_iff.2 hjump) hle))

/-- The order of the blocks lists those that control can get to from the entry, each once and the entry first. A jump
that does not go forward in it leads to a block from which control gets back, so where no jump does, all go forward.
The predecessors of a block name each block as often as that one names the block. -/
theorem reversePostorder_exact (b : Body) :
    b.reversePostorder.Nodup ∧
    (∀ v, v ∈ b.reversePostorder ↔ v < b.blocks.size ∧ Relation.ReflTransGen b.Jumps entryBlock v) ∧
    (0 < b.blocks.size → b.reversePostorder.head? = some entryBlock) ∧
    (∀ u ∈ b.reversePostorder, ∀ v, b.Jumps u v → b.reversePostorder.idxOf v ≤ b.reversePostorder.idxOf u →
      Relation.ReflTransGen b.Jumps v u) ∧
    ((∀ u ∈ b.reversePostorder, ∀ v, b.Jumps u v → ¬ Relation.ReflTransGen b.Jumps v u) →
      ∀ u ∈ b.reversePostorder, ∀ v, b.Jumps u v → b.reversePostorder.idxOf u < b.reversePostorder.idxOf v) ∧
    ∀ u v, (b.predecessors v).count u = (b.successors u).count v := by
  refine ⟨List.nodup_reverse.2 Digraph.postorder_nodup, fun v => mem_reversePostorder, fun hentry => ?_,
    fun u hu v hjump hle => ?_, fun hacyclic u hu v hjump => ?_, b.count_predecessors⟩
  · rw [reversePostorder, List.head?_reverse]
    exact Digraph.getLast?_postorder hentry
  · exact (idxOf_lt_or_leads hu hjump).resolve_left (Nat.not_lt.2 hle)
  · exact (idxOf_lt_or_leads hu hjump).resolve_right (hacyclic u hu v hjump)

end Reclamation.Body
