import Mathlib
import Reclamation.Graph.Components

/-!
# The stack of a search for components

The nodes that the search is in the middle of form a path (`Tarjan.path`), and they are all on the stack, on which
the number of each node is larger than those of the nodes below it. `Tarjan.Kept` says how the two hang together. A
node of the path reaches every node that lies above it on the stack, and every node on the stack reaches a node of
the path that lies at or below its place. What has left the stack is in components that are classes of mutual
reachability, and no edge leads out of them except to earlier ones (`Classes`).

`Tarjan.Bounded` is about the edges that the search has looked at. Each leads to a node that it has come to, and if
that one is still on the stack, the low link of the innermost node of the path below has taken account of it. So when
the low link of a node is its own number, no edge leads out of what lies above it on the stack except to earlier
components, and what lies there is a class (`Kept.mutual_iff`).

Each change that a step makes keeps the stack in order: `Kept.enter`, `Kept.lower`, `Kept.drop` and `Kept.close`.
-/

set_option autoImplicit false

namespace Reclamation

variable {φ : Type} {g : Links φ}

theorem Links.edge_iff {u v : Nat} :
    g.graph.Edge u v ↔ v < g.size ∧ ∃ field ∈ g.fields u, g.target? u field = some v := by
  simp [Digraph.Edge, graph]

/-! ## Classes -/

/-- Sets of nodes that are classes of mutual reachability. What they reach is in them, and none reaches one that is
listed later. -/
structure Classes (g : Links φ) (groups : List (List Nat)) : Prop where
  nodup : ∀ c ∈ groups, c.Nodup
  isClass : ∀ c ∈ groups, ∃ r ∈ c, ∀ v, v ∈ c ↔ g.graph.Mutual r v
  closed : ∀ c ∈ groups, ∀ u ∈ c, ∀ v, g.graph.Reaches u v → ∃ d ∈ groups, v ∈ d
  sinksFirst : groups.Pairwise fun c d => ∀ u ∈ c, ∀ v ∈ d, ¬ g.graph.Reaches u v

/-- One more class, of nodes that reach nothing but each other and members of the classes before. -/
theorem Classes.snoc {groups : List (List Nat)} {c : List Nat} (h : Classes g groups) (hnodup : c.Nodup)
    (hmutual : ∃ r ∈ c, ∀ v, v ∈ c ↔ g.graph.Mutual r v) (hnew : ∀ v ∈ c, ∀ d ∈ groups, v ∉ d)
    (hclosed : ∀ u ∈ c, ∀ v, g.graph.Reaches u v → v ∈ c ∨ ∃ d ∈ groups, v ∈ d) : Classes g (groups ++ [c]) where
  nodup d hd := by
    rcases List.mem_append.1 hd with hd | hd
    · exact h.nodup d hd
    · rw [List.mem_singleton.1 hd]
      exact hnodup
  isClass d hd := by
    rcases List.mem_append.1 hd with hd | hd
    · exact h.isClass d hd
    · rw [List.mem_singleton.1 hd]
      exact hmutual
  closed d hd u hu v huv := by
    rcases List.mem_append.1 hd with hd | hd
    · obtain ⟨e, he, hv⟩ := h.closed d hd u hu v huv
      exact ⟨e, List.mem_append_left _ he, hv⟩
    · rw [List.mem_singleton.1 hd] at hu
      rcases hclosed u hu v huv with hv | ⟨e, he, hv⟩
      · exact ⟨c, by simp, hv⟩
      · exact ⟨e, List.mem_append_left _ he, hv⟩
  sinksFirst := by
    refine List.pairwise_append.2 ⟨h.sinksFirst, List.pairwise_singleton _ c, fun d hd e he u hu v hv huv => ?_⟩
    rw [List.mem_singleton.1 he] at hv
    obtain ⟨d', hd', hv'⟩ := h.closed d hd u hu v huv
    exact hnew v hv d' hd' hv'

namespace Tarjan

variable {s t : Tarjan} {roots : List Nat} {u v w x p n i : Nat} {rest : List (Nat × Nat)}

/-! ## Numbers and low links -/

/-- The number of a node, zero if it has none. -/
def number (s : Tarjan) (v : Nat) : Nat :=
  s.index.getD v 0

/-- The low link of a node, zero if it has none. -/
def lowLink (s : Tarjan) (v : Nat) : Nat :=
  s.low.getD v 0

/-- The nodes that the search is in the middle of, the innermost first. -/
def path (s : Tarjan) : List Nat :=
  s.frames.map Prod.fst

theorem path_of_frames (hframes : s.frames = (v, i) :: rest) : s.path = v :: rest.map Prod.fst := by
  rw [path, hframes, List.map_cons]

@[simp] theorem mem_index_enter : u ∈ (s.enter v).index ↔ v = u ∨ u ∈ s.index := by
  simp [enter]

@[simp] theorem mem_low_enter : u ∈ (s.enter v).low ↔ v = u ∨ u ∈ s.low := by
  simp [enter]

@[simp] theorem mem_onStack_enter : u ∈ (s.enter v).onStack ↔ v = u ∨ u ∈ s.onStack := by
  simp [enter]

theorem number_enter : (s.enter v).number u = if v = u then s.next else s.number u := by
  simp [number, enter, Std.HashMap.getD_insert]

theorem number_enter_self (s : Tarjan) (v : Nat) : (s.enter v).number v = s.next := by
  rw [number_enter, if_pos rfl]

theorem lowLink_enter : (s.enter v).lowLink u = if v = u then s.next else s.lowLink u := by
  simp [lowLink, enter, Std.HashMap.getD_insert]

theorem lowLink_enter_self (s : Tarjan) (v : Nat) : (s.enter v).lowLink v = s.next := by
  rw [lowLink_enter, if_pos rfl]

@[simp] theorem path_enter : (s.enter v).path = v :: s.path := rfl

theorem lowLink_lower (hv : v ∈ s.low) :
    (s.lower v n).lowLink u = if v = u then min (s.lowLink v) n else s.lowLink u := by
  obtain ⟨k, hk⟩ := Option.isSome_iff_exists.1 (Std.HashMap.mem_iff_isSome_getElem?.1 hv)
  have hold : s.lowLink v = k := by
    rw [lowLink, Std.HashMap.getD_eq_getD_getElem?, hk]
    rfl
  rw [hold, lowLink, lower, Std.HashMap.getD_modify, hk]
  simp [lowLink]

theorem lowLink_lower_le (hv : v ∈ s.low) : (s.lower v n).lowLink u ≤ s.lowLink u := by
  rw [lowLink_lower hv]
  split
  · next h => exact h ▸ Nat.min_le_left _ _
  · exact Nat.le_refl _

theorem getElem?_index (hv : v ∈ s.index) : s.index[v]? = some (s.number v) := by
  obtain ⟨k, hk⟩ := Option.isSome_iff_exists.1 (Std.HashMap.mem_iff_isSome_getElem?.1 hv)
  rw [number, Std.HashMap.getD_eq_getD_getElem?, hk]
  rfl

/-! ## The stack -/

theorem cutAt_append {above below : List Nat} (hv : v ∉ above) :
    cutAt v (above ++ v :: below) = (above ++ [v], below) := by
  induction above with
  | nil => simp [cutAt]
  | cons u rest ih =>
    obtain ⟨hu, hrest⟩ := List.ne_and_not_mem_of_not_mem_cons hv
    rw [List.cons_append, cutAt, if_neg (Ne.symm hu), ih hrest]
    rfl

theorem mem_foldl_erase {c : List Nat} : ∀ {set : Std.HashSet Nat},
    x ∈ c.foldl (·.erase ·) set ↔ x ∈ set ∧ x ∉ c := by
  induction c with
  | nil => simp
  | cons y rest ih =>
    intro set
    rw [List.foldl_cons, ih, Std.HashSet.mem_erase, List.mem_cons]
    simp only [beq_eq_false_iff_ne, ne_eq]
    tauto

/-! ## The invariant -/

/-- How the stack, the path and the components of a search from some roots hang together. -/
structure Kept (g : Links φ) (roots : List Nat) (s : Tarjan) : Prop where
  node : ∀ v ∈ s.index, v < g.size
  reached : ∀ v ∈ s.index, ∃ r ∈ roots, r < g.size ∧ g.graph.Reaches r v
  low : ∀ v, v ∈ s.low ↔ v ∈ s.index
  onStack : ∀ v, v ∈ s.onStack ↔ v ∈ s.stack
  number_lt : ∀ v ∈ s.index, s.number v < s.next
  /-- The numbers are those from zero on. -/
  next : s.next = s.index.size
  covered : ∀ v, v ∈ s.index ↔ v ∈ s.stack ∨ ∃ c ∈ s.components.toList, v ∈ c
  apart : ∀ c ∈ s.components.toList, ∀ v ∈ c, v ∉ s.stack
  classes : Classes g s.components.toList
  stack : s.stack.Pairwise fun u v => s.number v < s.number u
  path : s.path.Pairwise fun u v => s.number v < s.number u
  path_sub : ∀ p ∈ s.path, p ∈ s.stack
  /-- A node of the path reaches what lies above it on the stack. -/
  above : ∀ p ∈ s.path, ∀ x ∈ s.stack, s.number p ≤ s.number x → g.graph.Reaches p x
  /-- What lies on the stack reaches a node of the path that lies at or below its place. -/
  below : ∀ x ∈ s.stack, ∃ p ∈ s.path, s.number p ≤ s.number x ∧ g.graph.Reaches x p
  low_le : ∀ x ∈ s.stack, s.lowLink x ≤ s.number x
  /-- A low link is the number of a node on the stack that can be reached. -/
  link : ∀ x ∈ s.stack, ∃ y ∈ s.stack, s.number y = s.lowLink x ∧ g.graph.Reaches x y

/-- A field of the one node leads to the other, and the frames are beyond that field. -/
def LookedAt (g : Links φ) (frames : List (Nat × Nat)) (x w : Nat) : Prop :=
  w < g.size ∧ ∃ k field, (g.fields x)[k]? = some field ∧ g.target? x field = some w ∧
    ∀ i, (x, i) ∈ frames → k < i

/-- A node of the path is the innermost one that is at or below the place of another node on the stack. -/
def Innermost (s : Tarjan) (p x : Nat) : Prop :=
  p ∈ s.path ∧ s.number p ≤ s.number x ∧ ∀ q ∈ s.path, s.number q ≤ s.number x → s.number q ≤ s.number p

/-- What the search has made of the edges that it has looked at. -/
structure Bounded (g : Links φ) (s : Tarjan) : Prop where
  known : ∀ x ∈ s.index, ∀ w, LookedAt g s.frames x w → w ∈ s.index
  /-- An edge back to the stack counts for the low link of the node of the path that it starts above. -/
  bound : ∀ x ∈ s.stack, ∀ w ∈ s.stack, LookedAt g s.frames x w → ∀ p, s.Innermost p x → s.lowLink p ≤ s.number w

namespace Kept

theorem init (g : Links φ) (roots : List Nat) : Kept g roots {} := by
  have hnone : Classes g [] := ⟨by simp, by simp, by simp, List.Pairwise.nil⟩
  constructor <;> first | exact hnone | simp [Tarjan.path]

theorem mem_index (h : Kept g roots s) (hx : x ∈ s.stack) : x ∈ s.index :=
  (h.covered x).2 (.inl hx)

theorem mem_low (h : Kept g roots s) (hx : x ∈ s.stack) : x ∈ s.low :=
  (h.low x).2 (h.mem_index hx)

/-- Nodes on the stack have different numbers. -/
theorem number_inj (h : Kept g roots s) (hu : u ∈ s.stack) (hv : v ∈ s.stack) (he : s.number u = s.number v) :
    u = v := by
  have hsymm : Std.Symm fun x y => s.number x ≠ s.number y := ⟨fun _ _ => Ne.symm⟩
  by_contra hne
  exact (h.stack.imp fun hlt => hlt.ne').forall hu hv hne he

/-- The positions at which the search goes on do not matter. -/
theorem reframe (h : Kept g roots s) {frames : List (Nat × Nat)} (hpath : frames.map Prod.fst = s.path) :
    Kept g roots { s with frames } where
  node := h.node
  reached := h.reached
  low := h.low
  onStack := h.onStack
  number_lt := h.number_lt
  next := h.next
  covered := h.covered
  apart := h.apart
  classes := h.classes
  stack := h.stack
  path := by
    show (frames.map Prod.fst).Pairwise _
    rw [hpath]
    exact h.path
  path_sub := by
    show ∀ p ∈ frames.map Prod.fst, _
    rw [hpath]
    exact h.path_sub
  above := by
    show ∀ p ∈ frames.map Prod.fst, _
    rw [hpath]
    exact h.above
  below := by
    show ∀ x ∈ s.stack, ∃ p ∈ frames.map Prod.fst, _
    rw [hpath]
    exact h.below
  low_le := h.low_le
  link := h.link

theorem nodup_stack (h : Kept g roots s) : s.stack.Nodup :=
  h.stack.imp fun hlt he => absurd hlt (by rw [he]; exact Nat.lt_irrefl _)

/-! ### Coming to a node -/

theorem ne_of_new (h : Kept g roots s) (hnew : v ∉ s.index) (hx : x ∈ s.stack) : v ≠ x :=
  fun he => hnew (he ▸ h.mem_index hx)

theorem number_enter_of_mem (h : Kept g roots s) (hnew : v ∉ s.index) (hx : x ∈ s.stack) :
    (s.enter v).number x = s.number x := by
  rw [number_enter, if_neg (h.ne_of_new hnew hx)]

theorem lowLink_enter_of_mem (h : Kept g roots s) (hnew : v ∉ s.index) (hx : x ∈ s.stack) :
    (s.enter v).lowLink x = s.lowLink x := by
  rw [lowLink_enter, if_neg (h.ne_of_new hnew hx)]

/-- The number of a new node is larger than those of all nodes on the stack. -/
theorem falling_enter (h : Kept g roots s) (hnew : v ∉ s.index) {l : List Nat} (hl : ∀ x ∈ l, x ∈ s.stack)
    (hfalling : l.Pairwise fun x y => s.number y < s.number x) :
    (v :: l).Pairwise fun x y => (s.enter v).number y < (s.enter v).number x := by
  refine List.pairwise_cons.2 ⟨fun x hx => ?_, hfalling.imp_of_mem fun {x y} hx hy hlt => ?_⟩
  · rw [number_enter_self, h.number_enter_of_mem hnew (hl x hx)]
    exact h.number_lt x (h.mem_index (hl x hx))
  · rwa [h.number_enter_of_mem hnew (hl x hx), h.number_enter_of_mem hnew (hl y hy)]

/-- Coming to a new node that every node of the path reaches. -/
theorem enter (h : Kept g roots s) (hv : v < g.size) (hnew : v ∉ s.index)
    (hroot : ∃ r ∈ roots, r < g.size ∧ g.graph.Reaches r v) (hpath : ∀ p ∈ s.path, g.graph.Reaches p v) :
    Kept g roots (s.enter v) := by
  have hsame : ∀ {x}, x ∈ s.stack → (s.enter v).number x = s.number x := h.number_enter_of_mem hnew
  have hself_mem : v ∈ (s.enter v).stack := List.mem_cons_self
  constructor
  case node =>
    intro x hx
    rcases mem_index_enter.1 hx with rfl | hx
    · exact hv
    · exact h.node x hx
  case reached =>
    intro x hx
    rcases mem_index_enter.1 hx with rfl | hx
    · exact hroot
    · exact h.reached x hx
  case low =>
    intro x
    rw [mem_low_enter, mem_index_enter, h.low]
  case onStack =>
    intro x
    rw [mem_onStack_enter, h.onStack]
    show _ ↔ x ∈ v :: s.stack
    rw [List.mem_cons, eq_comm]
  case number_lt =>
    intro x hx
    show _ < s.next + 1
    rw [number_enter]
    split
    · exact Nat.lt_succ_self _
    · next hx' => exact (h.number_lt x ((mem_index_enter.1 hx).resolve_left hx')).trans (Nat.lt_succ_self _)
  case next =>
    show s.next + 1 = (s.index.insert v s.next).size
    rw [Std.HashMap.size_insert, if_neg hnew, h.next]
  case covered =>
    intro x
    rw [mem_index_enter, h.covered]
    show _ ↔ x ∈ v :: s.stack ∨ ∃ c ∈ s.components.toList, x ∈ c
    rw [List.mem_cons, eq_comm, or_assoc]
  case apart =>
    intro c hc x hx hx'
    rcases List.mem_cons.1 hx' with rfl | hx'
    · exact hnew ((h.covered x).2 (.inr ⟨c, hc, hx⟩))
    · exact h.apart c hc x hx hx'
  case classes => exact h.classes
  case stack => exact h.falling_enter hnew (fun _ hx => hx) h.stack
  case path =>
    rw [path_enter]
    exact h.falling_enter hnew h.path_sub h.path
  case path_sub =>
    intro q hq
    rw [path_enter] at hq
    rcases List.mem_cons.1 hq with rfl | hq
    · exact hself_mem
    · exact List.mem_cons_of_mem v (h.path_sub q hq)
  case above =>
    intro q hq x hx hle
    rw [path_enter] at hq
    rcases List.mem_cons.1 hx with rfl | hold
    · rcases List.mem_cons.1 hq with rfl | hq
      · exact .refl q
      · exact hpath q hq
    · rcases List.mem_cons.1 hq with rfl | hq
      · -- nothing that was on the stack lies above the new node
        rw [number_enter_self, hsame hold] at hle
        exact absurd (h.number_lt x (h.mem_index hold)) (Nat.not_lt.2 hle)
      · rw [hsame hold, hsame (h.path_sub q hq)] at hle
        exact h.above q hq x hold hle
  case below =>
    intro x hx
    rw [path_enter]
    rcases List.mem_cons.1 hx with rfl | hx
    · exact ⟨x, List.mem_cons_self, Nat.le_refl _, .refl x⟩
    · obtain ⟨q, hq, hle, hreach⟩ := h.below x hx
      refine ⟨q, List.mem_cons_of_mem v hq, ?_, hreach⟩
      rwa [hsame hx, hsame (h.path_sub q hq)]
  case low_le =>
    intro x hx
    rcases List.mem_cons.1 hx with rfl | hx
    · rw [lowLink_enter_self, number_enter_self]
    · rw [h.lowLink_enter_of_mem hnew hx, hsame hx]
      exact h.low_le x hx
  case link =>
    intro x hx
    rcases List.mem_cons.1 hx with rfl | hx
    · exact ⟨x, hself_mem, by rw [lowLink_enter_self, number_enter_self], .refl x⟩
    · obtain ⟨y, hy, he, hreach⟩ := h.link x hx
      refine ⟨y, List.mem_cons_of_mem v hy, ?_, hreach⟩
      rw [hsame hy, h.lowLink_enter_of_mem hnew hx, he]

/-- Lowering a low link to the number of a node on the stack that can be reached. -/
theorem lower (h : Kept g roots s) (hv : v ∈ s.stack) (hw : w ∈ s.stack) (hvw : g.graph.Reaches v w) :
    Kept g roots (s.lower v (s.number w)) where
  node := h.node
  reached := h.reached
  low x := Std.HashMap.mem_modify.trans (h.low x)
  onStack := h.onStack
  number_lt := h.number_lt
  next := h.next
  covered := h.covered
  apart := h.apart
  classes := h.classes
  stack := h.stack
  path := h.path
  path_sub := h.path_sub
  above := h.above
  below := h.below
  low_le x hx := (lowLink_lower_le (h.mem_low hv)).trans (h.low_le x hx)
  link x hx := by
    obtain ⟨y, hy, he, hreach⟩ := h.link x hx
    show ∃ y ∈ s.stack, s.number y = _ ∧ _
    rw [lowLink_lower (h.mem_low hv)]
    split
    · next hvx =>
      subst hvx
      rcases Nat.le_total (s.lowLink v) (s.number w) with hle | hle
      · exact ⟨y, hy, by rw [Nat.min_eq_left hle, he], hreach⟩
      · exact ⟨w, hw, by rw [Nat.min_eq_right hle], hvw⟩
    · exact ⟨y, hy, he, hreach⟩

/-- The innermost node comes last. -/
theorem number_le_head (h : Kept g roots s) {path : List Nat} (hpath : s.path = v :: path) (hp : p ∈ s.path) :
    s.number p ≤ s.number v := by
  rw [hpath] at hp
  rcases List.mem_cons.1 hp with rfl | hp
  · exact Nat.le_refl _
  · have hfirst := h.path
    rw [hpath] at hfirst
    exact ((List.pairwise_cons.1 hfirst).1 p hp).le

theorem number_lt_head (h : Kept g roots s) {path : List Nat} (hpath : s.path = v :: path) (hp : p ∈ path) :
    s.number p < s.number v := by
  have hfirst := h.path
  rw [hpath] at hfirst
  exact (List.pairwise_cons.1 hfirst).1 p hp

theorem head_mem (h : Kept g roots s) {path : List Nat} (hpath : s.path = v :: path) : v ∈ s.stack :=
  h.path_sub v (by rw [hpath]; exact List.mem_cons_self)

/-- Every node of the path reaches the innermost one. -/
theorem reaches_head (h : Kept g roots s) {path : List Nat} (hpath : s.path = v :: path) (hp : p ∈ s.path) :
    g.graph.Reaches p v :=
  h.above p hp v (h.head_mem hpath) (h.number_le_head hpath hp)

/-! ### Leaving a node -/

/-- Passing on a low link changes low links only. -/
theorem passOn (h : Kept g roots s) (hframes : s.frames = (v, i) :: rest) :
    Kept g roots (s.passOn (s.lowLink v) rest) := by
  have hpath := path_of_frames hframes
  cases rest with
  | nil => exact h
  | cons q rest =>
    obtain ⟨y, hy, he, hreach⟩ := h.link v (h.head_mem hpath)
    have hq : q.1 ∈ s.path := by simp [hpath]
    rw [← he]
    exact h.lower (h.path_sub _ hq) hy ((h.reaches_head hpath hq).trans hreach)

/-- A node that is not the first one of its component stays on the stack. -/
theorem drop (h : Kept g roots s) (hframes : s.frames = (v, i) :: rest) (hlow : s.lowLink v ≠ s.number v) :
    Kept g roots { s with frames := rest } := by
  have hpath := path_of_frames hframes
  have hrest : ∀ p ∈ rest.map Prod.fst, p ∈ s.path := fun p hp => by
    rw [hpath]
    exact List.mem_cons_of_mem v hp
  refine { h with path := ?_, path_sub := ?_, above := ?_, below := ?_ }
  · have hfirst := h.path
    rw [hpath] at hfirst
    exact (List.pairwise_cons.1 hfirst).2
  · exact fun p hp => h.path_sub p (hrest p hp)
  · exact fun p hp => h.above p (hrest p hp)
  · intro x hx
    obtain ⟨p, hp, hle, hxp⟩ := h.below x hx
    rw [hpath] at hp
    rcases List.mem_cons.1 hp with rfl | hp
    · -- the low link leads further down
      obtain ⟨y, hy, he, hpy⟩ := h.link p (h.head_mem hpath)
      obtain ⟨q, hq, hqy, hyq⟩ := h.below y hy
      have hlt := lt_of_le_of_ne (h.low_le p (h.head_mem hpath)) hlow
      rw [hpath] at hq
      rcases List.mem_cons.1 hq with rfl | hq
      · omega
      · exact ⟨q, hq, show s.number q ≤ s.number x by omega, hxp.trans (hpy.trans hyq)⟩
    · exact ⟨p, hp, hle, hxp⟩

/-- What lies above the first node of a component on the stack leads nowhere but to earlier components. -/
theorem stays_above (h : Kept g roots s) (hb : Bounded g s) (hframes : s.frames = (v, i) :: rest)
    (hdone : (g.fields v).length ≤ i) (hroot : s.lowLink v = s.number v) (hx : x ∈ s.stack)
    (hle : s.number v ≤ s.number x) (hxw : g.graph.Reaches x w) :
    (w ∈ s.stack ∧ s.number v ≤ s.number w) ∨ ∃ c ∈ s.components.toList, w ∈ c := by
  have hpath := path_of_frames hframes
  -- only nodes of the path have fields left, and above this one there is none, so each edge has been looked at
  induction hxw with
  | refl => exact .inl ⟨hx, hle⟩
  | @step x y w hedge hyw ih =>
    obtain ⟨hlt, field, hfield, htarget⟩ := Links.edge_iff.1 hedge
    obtain ⟨k, hk, hget⟩ := List.getElem_of_mem hfield
    have hlooked : LookedAt g s.frames x y := by
      refine ⟨hlt, k, field, by rw [List.getElem?_eq_getElem hk, hget], htarget, fun j hj => ?_⟩
      rw [hframes] at hj
      rcases List.mem_cons.1 hj with he | hj
      · obtain ⟨rfl, rfl⟩ := Prod.mk.inj he
        omega
      · have hbelow := h.number_lt_head hpath (List.mem_map_of_mem hj)
        exact absurd hbelow (Nat.not_lt.2 hle)
    rcases (h.covered y).1 (hb.known x (h.mem_index hx) y hlooked) with hy | ⟨c, hc, hy⟩
    · refine ih hy (hroot ▸ hb.bound x hx y hy hlooked v ⟨?_, hle, fun q hq _ => h.number_le_head hpath hq⟩)
      rw [hpath]
      exact List.mem_cons_self
    · exact .inr (h.classes.closed c hc y hy w hyw)

/-- What lies on the stack from the first node of a component on is the component. -/
theorem mutual_iff (h : Kept g roots s) (hb : Bounded g s) (hframes : s.frames = (v, i) :: rest)
    (hdone : (g.fields v).length ≤ i) (hroot : s.lowLink v = s.number v) :
    x ∈ s.stack ∧ s.number v ≤ s.number x ↔ g.graph.Mutual v x := by
  have hpath := path_of_frames hframes
  have hv : v ∈ s.stack := h.head_mem hpath
  constructor
  · intro hx
    obtain ⟨hx, hle⟩ := hx
    obtain ⟨p, hp, -, hxp⟩ := h.below x hx
    exact ⟨h.above v (by rw [hpath]; exact List.mem_cons_self) x hx hle, hxp.trans (h.reaches_head hpath hp)⟩
  · -- what the node reaches is in an earlier component only if the node is
    intro hvx
    rcases h.stays_above hb hframes hdone hroot hv (Nat.le_refl _) hvx.1 with hx | ⟨c, hc, hx⟩
    · exact hx
    · obtain ⟨d, hd, hvd⟩ := h.classes.closed c hc x hx v hvx.2
      exact absurd hv (h.apart d hd v hvd)

/-- Where the stack is cut. -/
theorem mem_cut_iff (h : Kept g roots s) {top bottom : List Nat} (hstack : s.stack = top ++ v :: bottom) :
    (x ∈ top ++ [v] ↔ x ∈ s.stack ∧ s.number v ≤ s.number x) ∧
      (x ∈ bottom ↔ x ∈ s.stack ∧ s.number x < s.number v) := by
  have hfalling := h.stack
  rw [hstack] at hfalling
  obtain ⟨-, hbottom, htop⟩ := List.pairwise_append.1 hfalling
  have habove : ∀ y ∈ top, s.number v < s.number y := fun y hy => htop y hy v List.mem_cons_self
  have hbelow : ∀ y ∈ bottom, s.number y < s.number v := (List.pairwise_cons.1 hbottom).1
  rw [hstack, List.mem_append, List.mem_append, List.mem_singleton, List.mem_cons]
  constructor
  · constructor
    · intro hx
      rcases hx with hx | rfl
      · exact ⟨.inl hx, (habove x hx).le⟩
      · exact ⟨.inr (.inl rfl), Nat.le_refl _⟩
    · intro hx
      obtain ⟨hx | rfl | hx, hle⟩ := hx
      · exact .inl hx
      · exact .inr rfl
      · exact absurd (hbelow x hx) (Nat.not_lt.2 hle)
  · constructor
    · exact fun hx => ⟨.inr (.inr hx), hbelow x hx⟩
    · intro hx
      obtain ⟨hx | rfl | hx, hlt⟩ := hx
      · exact absurd (habove x hx) (Nat.not_lt.2 hlt.le)
      · exact absurd hlt (Nat.lt_irrefl _)
      · exact hx

end Kept

theorem close_eq {top bottom : List Nat} (hstack : s.stack = top ++ v :: bottom) (hv : v ∉ top) :
    s.close (fun _ => true) v =
      { s with
        stack := bottom
        onStack := (top ++ [v]).foldl (·.erase ·) s.onStack
        components := s.components.push (top ++ [v]) } := by
  rw [close, hstack, cutAt_append hv]
  rfl

/-- The first node of a component leaves the stack with all that lies above it. -/
theorem Kept.close (h : Kept g roots s) (hb : Bounded g s) (hframes : s.frames = (v, i) :: rest)
    (hdone : (g.fields v).length ≤ i) (hroot : s.lowLink v = s.number v) :
    Kept g roots (({ s with frames := rest } : Tarjan).close (fun _ => true) v) := by
  have hpath := path_of_frames hframes
  obtain ⟨top, bottom, hstack, hv⟩ := List.eq_append_cons_of_mem (h.head_mem hpath)
  have hcut := fun {x} => (h.mem_cut_iff hstack (x := x)).1
  have hleft := fun {x} => (h.mem_cut_iff hstack (x := x)).2
  have hclass := fun {x} => h.mutual_iff hb hframes hdone hroot (x := x)
  have hsub : ∀ x ∈ bottom, x ∈ s.stack := fun x hx => (hleft.1 hx).1
  have hrest : ∀ p ∈ rest.map Prod.fst, p ∈ s.path := fun p hp => by
    rw [hpath]
    exact List.mem_cons_of_mem v hp
  have hbottom : bottom.Pairwise fun u v => s.number v < s.number u := by
    have hfalling := h.stack
    rw [hstack] at hfalling
    exact (List.pairwise_cons.1 (List.pairwise_append.1 hfalling).2.1).2
  have hnodup : (top ++ [v]).Nodup := by
    have hall : (top ++ [v] ++ bottom).Nodup := by
      rw [List.append_assoc, List.singleton_append, ← hstack]
      exact h.nodup_stack
    exact (List.nodup_append.1 hall).1
  have hcomponents : s.components.toList ++ [top ++ [v]] = (s.components.push (top ++ [v])).toList :=
    Array.toList_push.symm
  have hmem : ∀ x, (∃ c ∈ s.components.toList ++ [top ++ [v]], x ∈ c) ↔
      (∃ c ∈ s.components.toList, x ∈ c) ∨ x ∈ top ++ [v] := fun x => by
    simp only [List.mem_append, List.mem_singleton, or_and_right, exists_or, exists_eq_left]
  rw [close_eq (s := { s with frames := rest }) hstack hv]
  constructor
  case node => exact h.node
  case reached => exact h.reached
  case low => exact h.low
  case onStack =>
    intro x
    show x ∈ (top ++ [v]).foldl (·.erase ·) s.onStack ↔ x ∈ bottom
    rw [mem_foldl_erase, h.onStack, hcut, hleft]
    constructor
    · exact fun hx => ⟨hx.1, Nat.lt_of_not_le fun hle => hx.2 ⟨hx.1, hle⟩⟩
    · exact fun hx => ⟨hx.1, fun hle => absurd hx.2 (Nat.not_lt.2 hle.2)⟩
  case number_lt => exact h.number_lt
  case next => exact h.next
  case covered =>
    intro x
    show x ∈ s.index ↔ x ∈ bottom ∨ ∃ c ∈ (s.components.push (top ++ [v])).toList, x ∈ c
    rw [← hcomponents, hmem, h.covered, hcut, hleft]
    rcases Nat.lt_or_ge (s.number x) (s.number v) with hlt | hle
    · simp only [hlt, Nat.not_le.2 hlt, and_true, and_false, or_false]
    · simp only [hle, Nat.not_lt.2 hle, and_true, and_false, false_or, or_comm]
  case apart =>
    intro c hc x hx hx'
    rw [← hcomponents] at hc
    rcases List.mem_append.1 hc with hc | hc
    · exact h.apart c hc x hx (hsub x hx')
    · rw [List.mem_singleton.1 hc, hcut] at hx
      exact absurd (hleft.1 hx').2 (Nat.not_lt.2 hx.2)
  case classes =>
    show Classes g (s.components.push (top ++ [v])).toList
    rw [← hcomponents]
    refine h.classes.snoc hnodup ⟨v, by simp, fun x => hcut.trans hclass⟩ (fun x hx c hc hx' => ?_)
      fun x hx y hxy => ?_
    · exact h.apart c hc x hx' (hcut.1 hx).1
    · rw [hcut] at hx ⊢
      exact h.stays_above hb hframes hdone hroot hx.1 hx.2 hxy
  case stack => exact hbottom
  case path =>
    have hfirst := h.path
    rw [hpath] at hfirst
    exact (List.pairwise_cons.1 hfirst).2
  case path_sub => exact fun p hp => hleft.2 ⟨h.path_sub p (hrest p hp), h.number_lt_head hpath hp⟩
  case above => exact fun p hp x hx => h.above p (hrest p hp) x (hsub x hx)
  case below =>
    intro x hx
    obtain ⟨p, hp, hle, hreach⟩ := h.below x (hsub x hx)
    rw [hpath] at hp
    rcases List.mem_cons.1 hp with rfl | hp
    · exact absurd (hleft.1 hx).2 (Nat.not_lt.2 hle)
    · exact ⟨p, hp, hle, hreach⟩
  case low_le => exact fun x hx => h.low_le x (hsub x hx)
  case link =>
    intro x hx
    obtain ⟨y, hy, he, hreach⟩ := h.link x (hsub x hx)
    have hlow := h.low_le x (hsub x hx)
    exact ⟨y, hleft.2 ⟨hy, by rw [he]; exact hlow.trans_lt (hleft.1 hx).2⟩, he, hreach⟩

end Tarjan

end Reclamation
