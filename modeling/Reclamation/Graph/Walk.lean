import Std.Data.HashMap
import Reclamation.Graph.Basic

/-!
# Depth-first walks

A walk enters each node it reaches once, takes the edges of the node in order, and leaves the node
when everything behind its edges has been walked. What it reports is the list of its events:
entering a node, leaving it, and meeting an edge that leads back to a node that is entered and not
yet left. The orders that the analyses need are read off the events: nodes as entered (`preorder`),
nodes as left (`postorder`), labels of the edges that lead back (`backEdges`).

The work to do is an explicit list of tasks, so a long chain of nodes needs no deep recursion. Tasks
compose: running two lists one after the other is running their concatenation (`run_append`), which
is the recursive reading of a walk.
-/

set_option autoImplicit false

namespace Reclamation

/-! ## Counting what is left -/

/-- A weaker test passes more often, if some member passes it alone. -/
theorem countP_lt_of_mem {α : Type} {p q : α → Bool} (hpq : ∀ x, p x = true → q x = true) :
    ∀ {l : List α} {x : α}, x ∈ l → q x = true → p x = false → l.countP p < l.countP q
  | [], _, h, _, _ => absurd h (by simp)
  | y :: l, x, h, hq, hp => by
    have hle : l.countP p ≤ l.countP q := List.countP_mono_left fun z _ => hpq z
    rcases List.mem_cons.1 h with rfl | h
    · simp only [List.countP_cons, hq, hp]
      simp only [Bool.false_eq_true, ↓reduceIte]
      omega
    · have ih := countP_lt_of_mem hpq h hq hp
      have hy := hpq y
      simp only [List.countP_cons]
      have hle : (if p y = true then 1 else 0) ≤ if q y = true then 1 else 0 := by
        split
        · next hpy => exact Nat.le_of_eq (if_pos (hy hpy)).symm
        · exact Nat.zero_le _
      omega

/-- A pair decreases if its first part does not grow and its second part does decrease. -/
theorem lex_of_le_of_lt {a a' : Nat} {b b' : Nat} (ha : a ≤ a') (hb : b < b') :
    Prod.Lex (· < ·) (· < ·) (a, b) (a', b') := by
  rcases Nat.lt_or_eq_of_le ha with h | h
  · exact Prod.Lex.left _ _ h
  · rw [h]
    exact Prod.Lex.right _ hb

/-! ## The state of a walk -/

/-- How far a walk is done with a node it has entered. -/
inductive Mark where
  /-- Entered and not yet left. -/
  | opened
  /-- Left. -/
  | closed
  deriving DecidableEq, Repr

/-- What a walk reports. -/
inductive Event (ε : Type) where
  | enter (v : Nat)
  /-- The edge with this label leads to a node that is entered and not yet left. -/
  | back (e : ε)
  | leave (v : Nat)
  deriving DecidableEq, Repr

/-- A piece of work that a walk has yet to do. -/
inductive Task (ε : Type) where
  /-- Go to a node, along the edge with this label or, without one, as a starting point. -/
  | visit (via : Option ε) (v : Nat)
  | leave (v : Nat)
  deriving Repr

/-- A walk so far: the nodes it has entered and the events, in order. -/
structure Walk (ε : Type) where
  marks : Std.HashMap Nat Mark := ∅
  events : Array (Event ε) := #[]

namespace Walk

variable {ε : Type}

/-- Enter a node. -/
def enter (w : Walk ε) (v : Nat) : Walk ε :=
  { marks := w.marks.insert v .opened, events := w.events.push (.enter v) }

/-- Leave a node. -/
def leave (w : Walk ε) (v : Nat) : Walk ε :=
  { marks := w.marks.insert v .closed, events := w.events.push (.leave v) }

/-- Take note of an edge to a node that is open. -/
def meet (w : Walk ε) (via : Option ε) : Walk ε :=
  match via with
  | some e => { w with events := w.events.push (.back e) }
  | none => w

/-- How many nodes of a graph the walk has not entered. -/
def unentered (g : Digraph ε) (w : Walk ε) : Nat :=
  (List.range g.size).countP fun v => !w.marks.contains v

/-! ## A walk ends -/

theorem unentered_insert_le (g : Digraph ε) (w : Walk ε) (v : Nat) (m : Mark)
    (events : Array (Event ε)) :
    unentered g ⟨w.marks.insert v m, events⟩ ≤ unentered g w := by
  refine List.countP_mono_left fun x _ hx => ?_
  simp only [Std.HashMap.contains_insert, Bool.not_or, Bool.and_eq_true] at hx
  exact hx.2

theorem unentered_enter_lt (g : Digraph ε) (w : Walk ε) (v : Nat) (hv : v < g.size)
    (hm : w.marks[v]? = none) : unentered g (w.enter v) < unentered g w := by
  have hc : w.marks.contains v = false := by
    rw [Std.HashMap.contains_eq_isSome_getElem?, hm]
    rfl
  refine countP_lt_of_mem (fun x hx => ?_) (List.mem_range.2 hv) ?_ ?_
  · simp only [enter, Std.HashMap.contains_insert, Bool.not_or, Bool.and_eq_true] at hx
    exact hx.2
  · rw [hc]
    rfl
  · simp [enter]

/-! ## Running -/

/-- The tasks that entering a node adds: its edges in order, and then leaving it. -/
def below (g : Digraph ε) (v : Nat) : List (Task ε) :=
  (g.out v).map (fun edge => .visit (some edge.1) edge.2) ++ [.leave v]

/-- Do all the tasks of a list, those that entering a node adds included. -/
def run (g : Digraph ε) (tasks : List (Task ε)) (w : Walk ε) : Walk ε :=
  match tasks with
  | [] => w
  | .leave v :: rest => run g rest (w.leave v)
  | .visit via v :: rest =>
    if _hv : v < g.size then
      match _hm : w.marks[v]? with
      | none => run g (below g v ++ rest) (w.enter v)
      | some .opened => run g rest (w.meet via)
      | some .closed => run g rest w
    else run g rest w
termination_by (unentered g w, tasks.length)
decreasing_by
  · exact lex_of_le_of_lt (unentered_insert_le g w v .closed _) (Nat.lt_succ_self _)
  · exact Prod.Lex.left _ _ (unentered_enter_lt g w v _hv _hm)
  · refine lex_of_le_of_lt ?_ (Nat.lt_succ_self _)
    cases via <;> exact Nat.le_refl _
  · exact lex_of_le_of_lt (Nat.le_refl _) (Nat.lt_succ_self _)
  · exact lex_of_le_of_lt (Nat.le_refl _) (Nat.lt_succ_self _)

/-- Running two lists of tasks in turn is running them as one. -/
theorem run_append (g : Digraph ε) (xs ys : List (Task ε)) (w : Walk ε) :
    run g (xs ++ ys) w = run g ys (run g xs w) := by
  fun_induction run g xs w with
  | case1 => rfl
  | case2 w v rest ih => rw [List.cons_append, run, ih]
  | case3 w via v rest hv hm ih =>
    rw [List.cons_append, run, dif_pos hv]
    split
    · rw [← ih, List.append_assoc]
    · simp_all
    · simp_all
  | case4 w via v rest hv hm ih =>
    rw [List.cons_append, run, dif_pos hv]
    split <;> simp_all
  | case5 w via v rest hv hm ih =>
    rw [List.cons_append, run, dif_pos hv]
    split <;> simp_all
  | case6 w via v rest hv ih => rw [List.cons_append, run, dif_neg hv, ih]

end Walk

namespace Event

variable {ε : Type}

/-- The node that an event enters. -/
def entered? : Event ε → Option Nat
  | enter v => some v
  | back _ | leave _ => none

/-- The node that an event leaves. -/
def left? : Event ε → Option Nat
  | leave v => some v
  | enter _ | back _ => none

/-- The label of the edge that an event finds leading back. -/
def back? : Event ε → Option ε
  | back e => some e
  | enter _ | leave _ => none

end Event

namespace Digraph

variable {ε : Type}

/-- The events of the walk from the roots. -/
def walk (g : Digraph ε) (roots : List Nat) : List (Event ε) :=
  (Walk.run g (roots.map (Task.visit none)) {}).events.toList

/-- The nodes reachable from the roots, each once, in the order in which the walk enters them. -/
def preorder (g : Digraph ε) (roots : List Nat) : List Nat :=
  (g.walk roots).filterMap Event.entered?

/-- The nodes reachable from the roots, each once, in the order in which the walk leaves them. -/
def postorder (g : Digraph ε) (roots : List Nat) : List Nat :=
  (g.walk roots).filterMap Event.left?

/-- The labels of the edges that lead to a node on the path from the root to their own node. -/
def backEdges (g : Digraph ε) (roots : List Nat) : List ε :=
  (g.walk roots).filterMap Event.back?

end Digraph

end Reclamation
