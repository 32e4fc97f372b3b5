import Mathlib
import Reclamation.Proofs.Graph.BackEdges

/-!
# The two orders of a walk

A walk keeps its work as one list of tasks in which a node may wait many times, and it takes note of a node only
when the node's turn has come. The order in which it enters the nodes is nevertheless that of the depth-first
search written as a recursion (`DepthFirst`), which takes note of a node before it turns to what lies behind: a
node that still waits when it is entered from elsewhere is passed over later (`depthFirst_preorder`). The recursion
has one result only (`DepthFirst.unique`).

The order in which the nodes are left is the one to sort by. An edge to a node that is left no earlier than its own
node closes a cycle (`reaches_of_idxOf_le`), and a single root is left last (`getLast?_postorder`).
-/

set_option autoImplicit false

namespace Reclamation

variable {ε : Type}

/-! ## The search as a recursion -/

/-- The depth-first search as a recursion over nodes to go to: `DepthFirst next nodes seen seen'` says that it goes
from having seen `seen`, in order, to having seen `seen'`. A node that has been seen is passed over. One that has
not is entered, and everything that `next` leads to from there is searched before the nodes after it. -/
inductive DepthFirst {α : Type} (next : α → List α) : List α → List α → List α → Prop where
  | done {seen : List α} : DepthFirst next [] seen seen
  | pass {v : α} {nodes seen seen' : List α} :
      v ∈ seen → DepthFirst next nodes seen seen' → DepthFirst next (v :: nodes) seen seen'
  | enter {v : α} {nodes seen mid seen' : List α} :
      v ∉ seen → DepthFirst next (next v) (seen ++ [v]) mid → DepthFirst next nodes mid seen' →
        DepthFirst next (v :: nodes) seen seen'

namespace DepthFirst

variable {α : Type} {next : α → List α} {xs ys seen s t : List α}

theorem unique (hs : DepthFirst next xs seen s) (ht : DepthFirst next xs seen t) : s = t := by
  induction hs generalizing t with
  | done =>
    cases ht
    rfl
  | pass hmem _ ih =>
    cases ht with
    | pass _ ht => exact ih ht
    | enter hnew => exact absurd hmem hnew
  | enter hnew _ _ ihbehind ihrest =>
    cases ht with
    | pass hmem => exact absurd hmem hnew
    | enter _ hbehind hrest =>
      obtain rfl := ihbehind hbehind
      exact ihrest hrest

/-- Going to the nodes of two lists in a row is going to those of the first and then to those of the second. -/
theorem of_append (h : DepthFirst next (xs ++ ys) seen t) :
    ∃ s, DepthFirst next xs seen s ∧ DepthFirst next ys s t := by
  induction xs generalizing seen with
  | nil => exact ⟨seen, .done, h⟩
  | cons v xs ih =>
    cases h with
    | pass hmem hrest =>
      obtain ⟨s, hxs, hys⟩ := ih hrest
      exact ⟨s, .pass hmem hxs, hys⟩
    | enter hnew hbehind hrest =>
      obtain ⟨s, hxs, hys⟩ := ih hrest
      exact ⟨s, .enter hnew hbehind hxs, hys⟩

end DepthFirst

/-! ## The order of entering -/

/-- The nodes that the edges of a node lead to, in order. -/
def Digraph.next (g : Digraph ε) (v : Nat) : List Nat :=
  ((g.out v).map Prod.snd).filter (· < g.size)

theorem Digraph.mem_next {g : Digraph ε} {u v : Nat} : v ∈ g.next u ↔ g.Edge u v := by
  simp [next, Edge, and_comm]

/-- The node that a task goes to, if it goes to one. -/
def Task.dest? : Task ε → Option Nat
  | .visit _ v => some v
  | .leave _ => none

namespace Walk

variable {g : Digraph ε} {roots : List Nat} {tasks : List (Task ε)} {w : Walk ε}

/-- The nodes that the tasks go to, in order. -/
def destinations (g : Digraph ε) (tasks : List (Task ε)) : List Nat :=
  (tasks.filterMap Task.dest?).filter (· < g.size)

theorem destinations_append (xs ys : List (Task ε)) :
    destinations g (xs ++ ys) = destinations g xs ++ destinations g ys := by
  simp [destinations]

theorem destinations_visit {via : Option ε} {v : Nat} (hv : v < g.size) :
    destinations g (.visit via v :: tasks) = v :: destinations g tasks := by
  simp [destinations, Task.dest?, hv]

theorem destinations_outside {via : Option ε} {v : Nat} (hv : ¬ v < g.size) :
    destinations g (.visit via v :: tasks) = destinations g tasks := by
  simp [destinations, Task.dest?, hv]

theorem destinations_below (v : Nat) : destinations g (below g v) = g.next v := by
  have hvisits : (below g v).filterMap Task.dest? = (g.out v).map Prod.snd := by
    simp [below, List.filterMap_append, List.filterMap_map, Function.comp_def, Task.dest?]
  rw [destinations, hvisits, Digraph.next]

theorem destinations_map_visit {nodes : List Nat} (h : ∀ v ∈ nodes, v < g.size) :
    destinations g (nodes.map (.visit none)) = nodes := by
  have hvisits : (nodes.map (@Task.visit ε none)).filterMap Task.dest? = nodes := by
    simp [List.filterMap_map, Function.comp_def, Task.dest?]
  rw [destinations, hvisits]
  exact List.filter_eq_self.2 fun v hv => decide_eq_true (h v hv)

/-- What a walk enters is what the recursion sees. The nodes entered so far are those seen, since these are the nodes
that have a mark. -/
theorem Underway.depthFirst (h : Underway g roots tasks w) :
    DepthFirst g.next (destinations g tasks) w.entered (Walk.run g tasks w).entered := by
  fun_induction Walk.run g tasks w with
  | case1 => exact .done
  | case2 w v rest ih =>
    have hrest := ih h.leave
    rwa [entered_leave] at hrest
  | case3 w via v rest hv hm ih =>
    have hrest := ih (h.enter hv hm)
    rw [destinations_append, destinations_below, entered_enter] at hrest
    obtain ⟨mid, hbehind, hrest⟩ := hrest.of_append
    rw [destinations_visit hv]
    exact .enter (fun hmem => notMem_marks hm ((h.mem_entered v).1 hmem)) hbehind hrest
  | case4 w via v rest hv hm ih =>
    have hrest := ih (h.skip (fun _ => mem_marks hm) (marks_meet ..) (entered_meet ..) (left_meet ..))
    rw [entered_meet] at hrest
    rw [destinations_visit hv]
    exact .pass ((h.mem_entered v).2 (mem_marks hm)) hrest
  | case5 w via v rest hv hm ih =>
    rw [destinations_visit hv]
    exact .pass ((h.mem_entered v).2 (mem_marks hm)) (ih (h.skip (fun _ => mem_marks hm) rfl rfl rfl))
  | case6 w via v rest hv ih =>
    rw [destinations_outside hv]
    exact ih (h.skip (fun hlt => absurd hlt hv) rfl rfl rfl)

end Walk

namespace Digraph

variable {g : Digraph ε} {roots : List Nat}

/-- A walk enters the nodes in the order of the recursion. -/
theorem depthFirst_preorder (hroots : ∀ r ∈ roots, r < g.size) :
    DepthFirst g.next roots [] (g.preorder roots) := by
  have hrun := (Walk.Underway.init g roots).depthFirst
  rw [Walk.destinations_map_visit hroots] at hrun
  exact hrun

theorem reaches_iff_reflTransGen {u v : Nat} : g.Reaches u v ↔ Relation.ReflTransGen g.Edge u v := by
  constructor
  · intro h
    induction h with
    | refl => exact .refl
    | step hedge _ ih => exact .head hedge ih
  · intro h
    induction h with
    | refl => exact .refl u
    | tail _ hedge ih => exact ih.trans hedge.reaches

/-! ## The order of leaving -/

/-- Where the nodes are listed the other way round, an edge to a node that comes no later than its own closes a
cycle. -/
theorem reaches_of_idxOf_le {u v : Nat} (hu : u ∈ (g.postorder roots).reverse) (huv : g.Edge u v)
    (hle : (g.postorder roots).reverse.idxOf v ≤ (g.postorder roots).reverse.idxOf u) : g.Reaches v u := by
  obtain ⟨w, hw, h⟩ := g.underway_walk roots
  obtain ⟨pre, post, he⟩ := List.append_of_mem hu
  have hleft : w.left = post.reverse ++ u :: pre.reverse := by
    have hpostorder : g.postorder roots = post.reverse ++ u :: pre.reverse := by
      simpa using congrArg List.reverse he
    rw [← hpostorder, postorder, Walk.left, hw]
  rcases h.left_edge _ u _ hleft u (by simp) v huv with hv | hvu
  · rcases List.mem_append.1 hv with hv | hv
    · -- a node that is left before `u` comes later in the list
      have hsub : [u, v].Sublist (g.postorder roots).reverse := by
        rw [he]
        refine .trans ?_ (List.sublist_append_right pre _)
        exact (List.singleton_sublist.2 (List.mem_reverse.1 hv)).cons_cons u
      have hlt := idxOf_lt_of_sublist (List.nodup_reverse.2 postorder_nodup) hsub
      exact absurd hlt (Nat.not_lt.2 hle)
    · rw [List.mem_singleton.1 hv]
      exact .refl u
  · exact hvu

/-- The root of a walk with no other root is left last. -/
theorem getLast?_postorder {root : Nat} (hroot : root < g.size) : (g.postorder [root]).getLast? = some root := by
  have hrun : Walk.run g [.visit none root] {} =
      (Walk.run g ((g.out root).map fun edge => .visit (some edge.1) edge.2)
        (({} : Walk ε).enter root)).leave root := by
    rw [Walk.run, dif_pos hroot]
    split
    · rw [List.append_nil, Walk.below, Walk.run_append]
      simp [Walk.run]
    · simp_all
    · simp_all
  have hleft : g.postorder [root] = (Walk.run g [.visit none root] {}).left := rfl
  rw [hleft, hrun, Walk.left_leave, List.getLast?_concat]

end Digraph

end Reclamation
