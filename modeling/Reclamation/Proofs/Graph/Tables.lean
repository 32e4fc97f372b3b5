import Mathlib
import Reclamation.Analysis.Error
import Reclamation.Proofs.Graph.Walk
import Reclamation.Proofs.Graph.Components

/-!
# Walks over tables

What a walk knows of the nodes it can keep in tables with one cell for each node. A number that is no node has no
cell, and a walk that comes to one stops (`Stop.noCell`), while the walks of this library pass over it.

Where every edge leads to a node (`Digraph.Closed`) and the starting points are nodes, no walk stops, and what it
finds is what the walk of the library finds: `Walk.runInTable_eq_ok` for a walk, `Links.componentsInTable_eq_ok` for
the search that collects the components.
-/

set_option autoImplicit false

namespace Reclamation

variable {ε : Type}

/-- Why a computation over tables stops short of an answer. -/
inductive Stop where
  /-- A table has no cell of this number. -/
  | noCell (index : Nat)
  /-- The input is refused. -/
  | refused (e : AnalysisError)
  deriving DecidableEq, Repr

/-- Look for the cell of a number in a table of a size. -/
def needCell (size index : Nat) : Except Stop Unit :=
  if index < size then .ok () else .error (.noCell index)

theorem needCell_eq_ok {size index : Nat} (h : index < size) : needCell size index = .ok () :=
  if_pos h

theorem forM_eq_ok {α e : Type} {f : α → Except e PUnit} {l : List α} (h : ∀ x ∈ l, f x = .ok ()) :
    l.forM f = .ok () := by
  induction l with
  | nil => rfl
  | cons x l ih =>
    show (f x >>= fun _ => l.forM f) = .ok ()
    rw [h x List.mem_cons_self]
    exact ih fun y hy => h y (List.mem_cons_of_mem x hy)

/-- Every edge leads to a node. -/
def Digraph.Closed (g : Digraph ε) : Prop :=
  ∀ u e v, (e, v) ∈ g.out u → v < g.size

namespace Walk

/-- Do all the tasks of a list, with the marks in a table. -/
def runInTable (g : Digraph ε) (tasks : List (Task ε)) (w : Walk ε) : Except Stop (Walk ε) :=
  match tasks with
  | [] => .ok w
  | .leave v :: rest => if v < g.size then runInTable g rest (w.leave v) else .error (.noCell v)
  | .visit via v :: rest =>
    if _hv : v < g.size then
      match _hm : w.marks[v]? with
      | none => runInTable g (below g v ++ rest) (w.enter v)
      | some .opened => runInTable g rest (w.meet via)
      | some .closed => runInTable g rest w
    else .error (.noCell v)
termination_by (unentered g w, tasks.length)
decreasing_by
  · exact lex_of_le_of_lt (unentered_insert_le g w v .closed _) (Nat.lt_succ_self _)
  · exact Prod.Lex.left _ _ (unentered_enter_lt g w v _hv _hm)
  · refine lex_of_le_of_lt ?_ (Nat.lt_succ_self _)
    cases via <;> exact Nat.le_refl _
  · exact lex_of_le_of_lt (Nat.le_refl _) (Nat.lt_succ_self _)

theorem node_lt_of_mem_below {g : Digraph ε} (hg : g.Closed) {v : Nat} (hv : v < g.size) :
    ∀ t ∈ below g v, t.node < g.size := by
  intro t ht
  rcases List.mem_append.1 ht with ht | ht
  · obtain ⟨edge, hedge, rfl⟩ := List.mem_map.1 ht
    exact hg v edge.1 edge.2 hedge
  · rw [List.mem_singleton.1 ht]
    exact hv

theorem runInTable_eq_ok {g : Digraph ε} (hg : g.Closed) {tasks : List (Task ε)} {w : Walk ε}
    (htasks : ∀ t ∈ tasks, t.node < g.size) : runInTable g tasks w = .ok (run g tasks w) := by
  fun_induction run g tasks w with
  | case1 w => rw [runInTable]
  | case2 w v rest ih =>
    have hv : v < g.size := htasks (.leave v) List.mem_cons_self
    rw [runInTable, if_pos hv]
    exact ih fun t ht => htasks t (List.mem_cons_of_mem _ ht)
  | case3 w via v rest hv hm ih =>
    rw [runInTable, dif_pos hv]
    split
    · refine ih fun t ht => ?_
      rcases List.mem_append.1 ht with ht | ht
      · exact node_lt_of_mem_below hg hv t ht
      · exact htasks t (List.mem_cons_of_mem _ ht)
    · simp_all
    · simp_all
  | case4 w via v rest hv hm ih =>
    rw [runInTable, dif_pos hv]
    split
    · simp_all
    · exact ih fun t ht => htasks t (List.mem_cons_of_mem _ ht)
    · simp_all
  | case5 w via v rest hv hm ih =>
    rw [runInTable, dif_pos hv]
    split
    · simp_all
    · simp_all
    · exact ih fun t ht => htasks t (List.mem_cons_of_mem _ ht)
  | case6 w via v rest hv ih => exact absurd (htasks _ List.mem_cons_self) hv

end Walk

namespace Digraph

variable {g : Digraph ε} {roots : List Nat}

/-- The events of the walk from the roots, with the marks in a table. -/
def walkInTable (g : Digraph ε) (roots : List Nat) : Except Stop (List (Event ε)) := do
  let w ← Walk.runInTable g (roots.map (Task.visit none)) {}
  return w.events.toList

theorem walkInTable_eq_ok (hg : g.Closed) (hroots : ∀ r ∈ roots, r < g.size) :
    g.walkInTable roots = .ok (g.walk roots) := by
  have hrun : Walk.runInTable g (roots.map (Task.visit none)) {} =
      .ok (Walk.run g (roots.map (Task.visit none)) {}) := by
    refine Walk.runInTable_eq_ok hg fun t ht => ?_
    obtain ⟨r, hr, rfl⟩ := List.mem_map.1 ht
    exact hroots r hr
  rw [walkInTable, hrun]
  rfl

end Digraph

/-! ## Components -/

namespace Tarjan

variable {φ : Type} {g : Links φ} {keep : List Nat → Bool} {s t : Tarjan}

/-- The nodes that the next step looks up. -/
def lookedUp (g : Links φ) (s : Tarjan) : List Nat :=
  match s.frames with
  | [] => []
  | (v, i) :: _ => v :: ((g.fields v)[i]?.bind (g.target? v)).toList

/-- Go on until no node is left, with what is known of the nodes in tables. -/
def runInTable (g : Links φ) (keep : List Nat → Bool) (s : Tarjan) : Except Stop Tarjan :=
  match (lookedUp g s).forM (needCell g.size) with
  | .error e => .error e
  | .ok () =>
    match _h : step g keep s with
    | none => .ok s
    | some t => runInTable g keep t
termination_by (unentered g s, pending g s.frames)
decreasing_by exact step_lt g _h

/-- Search from one more node, with what is known of the nodes in tables. -/
def startInTable (g : Links φ) (keep : List Nat → Bool) (s : Tarjan) (root : Nat) : Except Stop Tarjan := do
  needCell g.size root
  if s.index.contains root then return s else runInTable g keep (s.enter root)

theorem lookUp_eq_ok (hg : g.graph.Closed) (hframes : ∀ frame ∈ s.frames, frame.1 < g.size) :
    (lookedUp g s).forM (needCell g.size) = .ok () := by
  refine forM_eq_ok fun v hv => needCell_eq_ok ?_
  unfold lookedUp at hv
  split at hv
  · exact absurd hv List.not_mem_nil
  · next u i rest hhead =>
    rcases List.mem_cons.1 hv with rfl | hv
    · exact hframes (v, i) (by rw [hhead]; exact List.mem_cons_self)
    · rw [Option.mem_toList] at hv
      obtain ⟨field, hfield, htarget⟩ := Option.bind_eq_some_iff.1 hv
      exact hg u field v (List.mem_filterMap.2 ⟨field, List.mem_of_getElem? hfield, by rw [htarget]; rfl⟩)

/-- A step is in the middle of nodes only. -/
theorem frames_lt_step (hframes : ∀ frame ∈ s.frames, frame.1 < g.size) (hstep : step g keep s = some t) :
    ∀ frame ∈ t.frames, frame.1 < g.size := by
  unfold step at hstep
  split at hstep
  · exact absurd hstep (by simp)
  · next v i rest hhead =>
    rw [hhead] at hframes
    obtain ⟨hv, hrest⟩ := List.forall_mem_cons.1 hframes
    have hmoved : ∀ frame ∈ (v, i + 1) :: rest, frame.1 < g.size := List.forall_mem_cons.2 ⟨hv, hrest⟩
    split at hstep
    · obtain rfl := Option.some.inj hstep
      rw [(leave_keeps keep s v rest).2]
      exact hrest
    · split at hstep
      · obtain rfl := Option.some.inj hstep
        exact hmoved
      · obtain rfl := Option.some.inj hstep
        unfold follow
        split
        · next hw =>
          split
          · exact List.forall_mem_cons.2 ⟨hw, hmoved⟩
          · split <;> exact hmoved
        · exact hmoved

theorem runInTable_eq_ok (hg : g.graph.Closed) (hframes : ∀ frame ∈ s.frames, frame.1 < g.size) :
    runInTable g keep s = .ok (run g keep s) := by
  fun_induction run g keep s with
  | case1 s hstep =>
    rw [runInTable, lookUp_eq_ok hg hframes]
    dsimp only
    split
    · rfl
    · next hsome => exact absurd (hsome.symm.trans hstep) (by simp)
  | case2 s t hstep ih =>
    rw [runInTable, lookUp_eq_ok hg hframes]
    dsimp only
    split
    · next hnone => exact absurd (hstep.symm.trans hnone) (by simp)
    · next t' ht' =>
      obtain rfl := Option.some.inj (hstep.symm.trans ht')
      exact ih (frames_lt_step hframes hstep)

theorem startInTable_eq_ok (hg : g.graph.Closed) (hframes : s.frames = []) {root : Nat} (hroot : root < g.size) :
    startInTable g keep s root = .ok (start g keep s root) := by
  have hrun : runInTable g keep (s.enter root) = .ok (run g keep (s.enter root)) := by
    refine runInTable_eq_ok hg fun frame hframe => ?_
    have hframe : frame ∈ (root, 0) :: s.frames := hframe
    rw [hframes, List.mem_singleton] at hframe
    rw [hframe]
    exact hroot
  rw [startInTable, start, needCell_eq_ok hroot, decide_eq_true hroot, Bool.true_and, hrun]
  cases s.index.contains root <;> rfl

end Tarjan

namespace Links

variable {φ : Type} {g : Links φ} {roots : List Nat}

/-- The components of the nodes that the roots reach, as far as they are to be kept, with what is known of the nodes
in tables. -/
def componentsInTable (g : Links φ) (keep : List Nat → Bool) (roots : List Nat) : Except Stop (List (List Nat)) := do
  let s ← roots.foldlM (Tarjan.startInTable g keep) {}
  return s.components.toList

theorem componentsInTable_eq_ok (hg : g.graph.Closed) (keep : List Nat → Bool) (hroots : ∀ r ∈ roots, r < g.size) :
    g.componentsInTable keep roots = .ok (g.componentsWhere keep roots) := by
  have hfold : ∀ s : Tarjan, s.frames = [] → roots.foldlM (Tarjan.startInTable g keep) s =
      .ok (roots.foldl (Tarjan.start g keep) s) := by
    induction roots with
    | nil => exact fun _ _ => rfl
    | cons root rest ih =>
      intro s hs
      rw [List.foldlM_cons, Tarjan.startInTable_eq_ok hg hs (hroots root List.mem_cons_self)]
      exact ih (fun r hr => hroots r (List.mem_cons_of_mem root hr)) _ (Tarjan.frames_start hs)
  rw [componentsInTable, hfold {} rfl]
  rfl

end Links

end Reclamation
