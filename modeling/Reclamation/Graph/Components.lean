import Std.Data.HashSet
import Reclamation.Graph.Walk

/-!
# Strongly connected components

A component is a largest set of nodes that all reach each other. One search finds them all, that of
Tarjan. It numbers the nodes as it comes to them and keeps for each its low link, the least number
of a node on the stack that it is known to reach. A node whose low link is its own number when all
its fields have been looked at is the first node of its component, and what lies above it on the
stack is the rest of it.

The search looks at `Links`: each node has fields, and a field is followed to another node or passed
over. It keeps the nodes that it is in the middle of as frames, each with the position of the field
where it goes on, so a long chain of nodes needs no deep recursion.

Components are listed sinks first: one comes before every other that reaches it. Within a component
the node with the largest number comes first.
-/

set_option autoImplicit false

namespace Reclamation

/-- Nodes with fields that may lead to other nodes. -/
structure Links (φ : Type) where
  /-- The nodes are the numbers below this one. -/
  size : Nat
  /-- The fields of a node, in order. -/
  fields : Nat → List φ
  /-- Where a field of a node leads, if it is followed. A number that is no node leads nowhere. -/
  target? : Nat → φ → Option Nat

/-- The fields that are followed, as edges. -/
def Links.graph {φ : Type} (g : Links φ) : Digraph φ where
  size := g.size
  out v := (g.fields v).filterMap fun field => (g.target? v field).map (field, ·)

/-- A search for components so far. -/
structure Tarjan where
  /-- The number of each node that the search has come to. -/
  index : Std.HashMap Nat Nat := ∅
  low : Std.HashMap Nat Nat := ∅
  onStack : Std.HashSet Nat := ∅
  /-- The nodes that are in no component yet, the latest first. -/
  stack : List Nat := []
  /-- The number that the next node gets. -/
  next : Nat := 0
  /-- The nodes that the search is in the middle of, the innermost first, each with the position of
  its next field. -/
  frames : List (Nat × Nat) := []
  components : Array (List Nat) := #[]

namespace Tarjan

variable {φ : Type}

/-! ## Steps -/

/-- Come to a node. -/
def enter (s : Tarjan) (v : Nat) : Tarjan :=
  { s with
    index := s.index.insert v s.next
    low := s.low.insert v s.next
    next := s.next + 1
    stack := v :: s.stack
    onStack := s.onStack.insert v
    frames := (v, 0) :: s.frames }

/-- Lower the low link of a node to a number, if it is above that. -/
def lower (s : Tarjan) (v n : Nat) : Tarjan :=
  { s with low := s.low.modify v (min · n) }

/-- Follow a field of a node to another one. -/
def follow (g : Links φ) (s : Tarjan) (v w : Nat) : Tarjan :=
  if w < g.size then
    match s.index[w]? with
    | none => s.enter w
    | some n => if s.onStack.contains w then s.lower v n else s
  else s

/-- What lies on a stack down to a node, the node included, and what lies below it. -/
def cutAt (v : Nat) : List Nat → List Nat × List Nat
  | [] => ([], [])
  | u :: rest =>
    if u = v then ([u], rest)
    else
      let (above, below) := cutAt v rest
      (u :: above, below)

/-- Take the component off the stack of which a node is the first one. -/
def close (keep : List Nat → Bool) (s : Tarjan) (v : Nat) : Tarjan :=
  let (component, stack) := cutAt v s.stack
  { s with
    stack
    onStack := component.foldl (·.erase ·) s.onStack
    components := if keep component then s.components.push component else s.components }

/-- Let a low link count for the node that led to the one it is of. -/
def passOn (s : Tarjan) (low : Nat) : List (Nat × Nat) → Tarjan
  | [] => s
  | (parent, _) :: _ => s.lower parent low

/-- Be done with the innermost node. -/
def leave (keep : List Nat → Bool) (s : Tarjan) (v : Nat) (rest : List (Nat × Nat)) : Tarjan :=
  let low := s.low.getD v 0
  let t : Tarjan := { s.passOn low rest with frames := rest }
  if low = s.index.getD v 0 then t.close keep v else t

/-- Look at the next field of the innermost node. There is no step when no node is left. Only the
components that are to be kept are listed. -/
def step (g : Links φ) (keep : List Nat → Bool) (s : Tarjan) : Option Tarjan :=
  match s.frames with
  | [] => none
  | (v, i) :: rest =>
    match (g.fields v)[i]? with
    | none => some (s.leave keep v rest)
    | some field =>
      let s := { s with frames := (v, i + 1) :: rest }
      match g.target? v field with
      | none => some s
      | some w => some (s.follow g v w)

/-! ## A search ends -/

/-- How many nodes the search has not come to. -/
def unentered (g : Links φ) (s : Tarjan) : Nat :=
  (List.range g.size).countP fun v => !s.index.contains v

/-- How many fields and nodes the frames have left. -/
def pending (g : Links φ) : List (Nat × Nat) → Nat
  | [] => 0
  | (v, i) :: rest => (g.fields v).length - i + 1 + pending g rest

theorem unentered_enter_lt (g : Links φ) {s : Tarjan} {v : Nat} (hv : v < g.size)
    (hnew : s.index[v]? = none) : unentered g (s.enter v) < unentered g s := by
  have hc : s.index.contains v = false := by
    rw [Std.HashMap.contains_eq_isSome_getElem?, hnew]
    rfl
  refine countP_lt_of_mem (fun x hx => ?_) (List.mem_range.2 hv) ?_ ?_
  · simp only [enter, Std.HashMap.contains_insert, Bool.not_or, Bool.and_eq_true] at hx
    exact hx.2
  · rw [hc]
    rfl
  · simp [enter]

theorem leave_keeps (keep : List Nat → Bool) (s : Tarjan) (v : Nat) (rest : List (Nat × Nat)) :
    (s.leave keep v rest).index = s.index ∧ (s.leave keep v rest).frames = rest := by
  have hindex : ∀ low, (s.passOn low rest).index = s.index := fun low => by cases rest <;> rfl
  unfold leave
  dsimp only
  split <;> exact ⟨hindex _, rfl⟩

/-- Following a field comes to a new node or to none. -/
theorem follow_lt (g : Links φ) (s : Tarjan) (v w : Nat) :
    unentered g (s.follow g v w) < unentered g s ∨
      (s.follow g v w).index = s.index ∧ (s.follow g v w).frames = s.frames := by
  unfold follow
  split
  · next hw =>
    split
    · next hnew => exact .inl (unentered_enter_lt g hw hnew)
    · split <;> exact .inr ⟨rfl, rfl⟩
  · exact .inr ⟨rfl, rfl⟩

theorem pending_advance_lt (g : Links φ) {v i : Nat} (rest : List (Nat × Nat)) {field : φ}
    (h : (g.fields v)[i]? = some field) :
    pending g ((v, i + 1) :: rest) < pending g ((v, i) :: rest) := by
  have hi := (List.getElem?_eq_some_iff.1 h).1
  simp only [pending]
  omega

/-- Every step comes to a new node or leaves less to look at. -/
theorem step_lt (g : Links φ) {keep : List Nat → Bool} {s t : Tarjan} (h : step g keep s = some t) :
    Prod.Lex (· < ·) (· < ·) (unentered g t, pending g t.frames)
      (unentered g s, pending g s.frames) := by
  unfold step at h
  split at h
  · exact absurd h (by simp)
  · next v i rest hframes =>
    split at h
    · obtain rfl := Option.some.inj h
      obtain ⟨hindex, hrest⟩ := leave_keeps keep s v rest
      rw [hrest, hframes]
      refine lex_of_le_of_lt (Nat.le_of_eq (by rw [unentered, hindex, unentered])) ?_
      simp only [pending]
      omega
    · next field hfield =>
      have hadvance := pending_advance_lt g rest hfield
      rw [← hframes] at hadvance
      split at h
      · obtain rfl := Option.some.inj h
        exact lex_of_le_of_lt (Nat.le_refl _) hadvance
      · next w _ =>
        obtain rfl := Option.some.inj h
        rcases follow_lt g { s with frames := (v, i + 1) :: rest } v w with hlt | ⟨hindex, hsame⟩
        · exact Prod.Lex.left _ _ hlt
        · rw [hsame]
          exact lex_of_le_of_lt (Nat.le_of_eq (by rw [unentered, hindex, unentered])) hadvance

/-- Go on until no node is left. -/
def run (g : Links φ) (keep : List Nat → Bool) (s : Tarjan) : Tarjan :=
  match _h : step g keep s with
  | none => s
  | some t => run g keep t
termination_by (unentered g s, pending g s.frames)
decreasing_by exact step_lt g _h

/-- Search from one more node, unless the search has come to it before. -/
def start (g : Links φ) (keep : List Nat → Bool) (s : Tarjan) (root : Nat) : Tarjan :=
  if root < g.size && !s.index.contains root then run g keep (s.enter root) else s

end Tarjan

namespace Links

variable {φ : Type}

/-- The strongly connected components of the nodes that the roots reach, as far as they are to be
kept. -/
def componentsWhere (g : Links φ) (keep : List Nat → Bool) (roots : List Nat) : List (List Nat) :=
  (roots.foldl (Tarjan.start g keep) {}).components.toList

/-- The strongly connected components of the nodes that the roots reach. -/
def components (g : Links φ) (roots : List Nat) : List (List Nat) :=
  g.componentsWhere (fun _ => true) roots

end Links

end Reclamation
