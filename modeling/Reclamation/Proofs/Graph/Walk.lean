import Mathlib
import Reclamation.Graph.Walk

/-!
# What a walk visits

A walk keeps its work as an explicit list of tasks, so what it has still to do is data, and
`Walk.Underway` says how that data hangs together with the marks and events so far. Each kind of task
keeps it (`Underway.leave`, `Underway.enter`, `Underway.skip`), and a walk that has run out of tasks
can be read off it:

* the nodes entered, and the nodes left, are those that the roots reach, each once
  (`mem_preorder`, `mem_postorder`);
* when a node is left, an edge from what has been left by then leads to something left by then or to
  a node from which the one just left can be reached (`Underway.left_edge`).
-/

set_option autoImplicit false

namespace Reclamation

variable {ε : Type}

/-- The node that a task is about. -/
def Task.node : Task ε → Nat
  | .visit _ v => v
  | .leave v => v

/-- The node that a task leaves. -/
def Task.left? : Task ε → Option Nat
  | .visit _ _ => none
  | .leave v => some v

/-- Where a list that ends in `u` can be split in front of a member. -/
theorem split_snoc {α : Type} {l pre post : List α} {u v : α} (h : l ++ [u] = pre ++ v :: post) :
    (l = pre ∧ u = v ∧ post = []) ∨ ∃ post', post = post' ++ [u] ∧ l = pre ++ v :: post' := by
  rcases List.eq_nil_or_concat post with rfl | ⟨post', z, rfl⟩
  · obtain ⟨hl, hu⟩ := List.append_inj' h rfl
    exact .inl ⟨hl, List.head_eq_of_cons_eq hu, rfl⟩
  · rw [List.concat_eq_append, ← List.cons_append, ← List.append_assoc] at h
    obtain ⟨hl, hu⟩ := List.append_inj' h rfl
    refine .inr ⟨post', ?_, hl⟩
    rw [List.concat_eq_append, List.head_eq_of_cons_eq hu]

namespace Walk

/-- The nodes entered so far, in order. -/
def entered (w : Walk ε) : List Nat :=
  w.events.toList.filterMap Event.entered?

/-- The nodes left so far, in order. -/
def left (w : Walk ε) : List Nat :=
  w.events.toList.filterMap Event.left?

@[simp] theorem entered_enter (w : Walk ε) (v : Nat) : (w.enter v).entered = w.entered ++ [v] := by
  simp [entered, enter, Event.entered?]

@[simp] theorem entered_leave (w : Walk ε) (v : Nat) : (w.leave v).entered = w.entered := by
  simp [entered, leave, Event.entered?]

@[simp] theorem entered_meet (w : Walk ε) (via : Option ε) : (w.meet via).entered = w.entered := by
  cases via <;> simp [entered, meet, Event.entered?]

@[simp] theorem left_enter (w : Walk ε) (v : Nat) : (w.enter v).left = w.left := by
  simp [left, enter, Event.left?]

@[simp] theorem left_leave (w : Walk ε) (v : Nat) : (w.leave v).left = w.left ++ [v] := by
  simp [left, leave, Event.left?]

@[simp] theorem left_meet (w : Walk ε) (via : Option ε) : (w.meet via).left = w.left := by
  cases via <;> simp [left, meet, Event.left?]

@[simp] theorem marks_meet (w : Walk ε) (via : Option ε) : (w.meet via).marks = w.marks := by
  cases via <;> rfl

theorem mem_marks {w : Walk ε} {v : Nat} {m : Mark} (hm : w.marks[v]? = some m) : v ∈ w.marks := by
  rw [Std.HashMap.mem_iff_isSome_getElem?, hm, Option.isSome_some]

theorem notMem_marks {w : Walk ε} {v : Nat} (hm : w.marks[v]? = none) : v ∉ w.marks := by
  simp [Std.HashMap.mem_iff_isSome_getElem?, hm]

theorem mem_marks_enter {w : Walk ε} {u v : Nat} : v ∈ (w.enter u).marks ↔ v = u ∨ v ∈ w.marks := by
  simp only [enter, Std.HashMap.mem_insert, beq_iff_eq]
  exact or_congr_left eq_comm

theorem getElem?_marks_enter (w : Walk ε) (u v : Nat) :
    (w.enter u).marks[v]? = if u = v then some .opened else w.marks[v]? := by
  simp [enter, Std.HashMap.getElem?_insert]

theorem mem_marks_leave {w : Walk ε} {u v : Nat} (hu : u ∈ w.marks) : v ∈ (w.leave u).marks ↔ v ∈ w.marks := by
  simp only [leave, Std.HashMap.mem_insert, beq_iff_eq]
  exact ⟨fun hv => hv.elim (fun e => e ▸ hu) id, .inr⟩

theorem getElem?_marks_leave (w : Walk ε) (u v : Nat) :
    (w.leave u).marks[v]? = if u = v then some .closed else w.marks[v]? := by
  simp [leave, Std.HashMap.getElem?_insert]

/-! ## The tasks that entering a node adds -/

section Below

variable {g : Digraph ε} {tasks : List (Task ε)} {u v : Nat}

theorem leave_mem_below : Task.leave v ∈ below g u ↔ v = u := by
  simp [below]

theorem left?_below : (below g u).filterMap Task.left? = [u] := by
  simp [below, List.filterMap_append, List.filterMap_map, Function.comp_def, Task.left?]

theorem reaches_of_mem_below {t : Task ε} (ht : t ∈ below g u) (hn : t.node < g.size) : g.Reaches u t.node := by
  rcases List.mem_append.1 ht with ht | ht
  · obtain ⟨e, he, rfl⟩ := List.mem_map.1 ht
    exact Digraph.Edge.reaches ⟨hn, e.1, he⟩
  · rw [List.mem_singleton.1 ht]
    exact .refl u

/-- What stands before a leaving: it is that of the node, after its edges, or one that was due before. -/
theorem below_append_split {pre post : List (Task ε)} (he : below g u ++ tasks = pre ++ .leave v :: post) :
    (v = u ∧ pre = (g.out u).map fun edge => .visit (some edge.1) edge.2) ∨
      ∃ mid, pre = below g u ++ mid ∧ tasks = mid ++ .leave v :: post := by
  rw [below, List.append_assoc, List.singleton_append] at he
  rcases List.append_eq_append_iff.1 he with ⟨as, hpre, has⟩ | ⟨as, hmap, has⟩
  · cases as with
    | nil =>
      simp only [List.nil_append, List.cons.injEq, Task.leave.injEq] at has
      exact .inl ⟨has.1.symm, by simpa using hpre⟩
    | cons a as =>
      simp only [List.cons_append, List.cons.injEq] at has
      refine .inr ⟨as, ?_, has.2⟩
      rw [hpre, ← has.1, below, List.append_assoc, List.singleton_append]
  · cases as with
    | nil =>
      simp only [List.nil_append, List.cons.injEq, Task.leave.injEq] at has
      exact .inl ⟨has.1, by simpa using hmap.symm⟩
    | cons a as =>
      -- the leaving would be one of the edges
      simp only [List.cons_append, List.cons.injEq] at has
      have hedge : a ∈ (g.out u).map (fun edge => Task.visit (some edge.1) edge.2) := by
        rw [hmap]
        simp
      rw [← has.1] at hedge
      simp at hedge

end Below

/-- How far a walk from the roots has come when the tasks are left to do. -/
structure Underway (g : Digraph ε) (roots : List Nat) (tasks : List (Task ε)) (w : Walk ε) : Prop where
  lt_size : ∀ v, v ∈ w.marks → v < g.size
  /-- The open nodes are those still to be left. -/
  opened_iff : ∀ v, w.marks[v]? = some .opened ↔ .leave v ∈ tasks
  /-- No node is left twice. -/
  leave_once : (tasks.filterMap Task.left?).Nodup
  /-- What is done before a node is left lies behind that node. -/
  stacked : tasks.Pairwise fun t u =>
    ∀ v, u = .leave v → t.node < g.size → g.Reaches v t.node
  /-- Nothing is missed behind a node that was left. -/
  closed_edge : ∀ v, w.marks[v]? = some .closed → ∀ x, g.Edge v x → x ∈ w.marks
  /-- Nothing is missed behind an open node once the tasks before its leaving are done. -/
  open_edge : ∀ pre v post, tasks = pre ++ .leave v :: post → ∀ x, g.Edge v x →
    x ∈ w.marks ∨ ∃ via, .visit via x ∈ pre
  root_seen : ∀ r ∈ roots, r < g.size → r ∈ w.marks ∨ ∃ via, .visit via r ∈ tasks
  task_reached : ∀ t ∈ tasks, t.node < g.size → ∃ r ∈ roots, r < g.size ∧ g.Reaches r t.node
  mark_reached : ∀ v, v ∈ w.marks → ∃ r ∈ roots, r < g.size ∧ g.Reaches r v
  mem_entered : ∀ v, v ∈ w.entered ↔ v ∈ w.marks
  entered_nodup : w.entered.Nodup
  mem_left : ∀ v, v ∈ w.left ↔ w.marks[v]? = some .closed
  left_nodup : w.left.Nodup
  /-- An edge out of the nodes left up to some node leads to one of them or above that node. -/
  left_edge : ∀ pre u post, w.left = pre ++ u :: post → ∀ x ∈ pre ++ [u], ∀ y, g.Edge x y →
    y ∈ pre ++ [u] ∨ g.Reaches y u

namespace Underway

variable {g : Digraph ε} {roots : List Nat} {tasks : List (Task ε)} {w : Walk ε}

/-- The walk from the roots, before its first step. -/
theorem init (g : Digraph ε) (roots : List Nat) : Underway g roots (roots.map (.visit none)) {} where
  lt_size v hv := absurd hv Std.HashMap.not_mem_empty
  opened_iff v := by simp
  leave_once := by
    have hnone : (roots.map (@Task.visit ε none)).filterMap Task.left? = [] := by
      simp [List.filterMap_map, Function.comp_def, Task.left?]
    rw [hnone]
    exact List.nodup_nil
  stacked := by
    rw [List.pairwise_map]
    exact List.pairwise_of_forall fun _ _ _ h => absurd h (by simp)
  closed_edge v hv := by simp at hv
  open_edge pre v post h := by
    have hleave : Task.leave v ∈ roots.map (@Task.visit ε none) := by
      rw [h]
      simp
    simp at hleave
  root_seen r hr _ := .inr ⟨none, List.mem_map_of_mem hr⟩
  task_reached t ht hlt := by
    obtain ⟨r, hr, rfl⟩ := List.mem_map.1 ht
    exact ⟨r, hr, hlt, .refl r⟩
  mark_reached v hv := absurd hv Std.HashMap.not_mem_empty
  mem_entered v := by simp [entered]
  entered_nodup := List.nodup_nil
  mem_left v := by simp [left]
  left_nodup := List.nodup_nil
  left_edge pre u post h := by simp [left] at h

theorem opened_head {u : Nat} (h : Underway g roots (.leave u :: tasks) w) : w.marks[u]? = some .opened :=
  (h.opened_iff u).2 List.mem_cons_self

theorem mem_marks_head {u : Nat} (h : Underway g roots (.leave u :: tasks) w) : u ∈ w.marks :=
  Std.HashMap.mem_iff_isSome_getElem?.2 (by rw [h.opened_head]; rfl)

theorem leave_once_head {u : Nat} (h : Underway g roots (.leave u :: tasks) w) :
    u ∉ tasks.filterMap Task.left? ∧ (tasks.filterMap Task.left?).Nodup := by
  have honce := h.leave_once
  rw [show (Task.leave u :: tasks).filterMap Task.left? = u :: tasks.filterMap Task.left? from rfl] at honce
  exact List.nodup_cons.1 honce

/-- All edges of the node have been taken, since its leaving has no tasks in front of it. -/
theorem edge_head {u x : Nat} (h : Underway g roots (.leave u :: tasks) w) (hx : g.Edge u x) :
    x ∈ w.marks := by
  rcases h.open_edge [] u tasks rfl x hx with hx | ⟨via, hvia⟩
  · exact hx
  · simp at hvia

/-- Whatever is still open lies above the node. -/
theorem above_head {u y : Nat} (h : Underway g roots (.leave u :: tasks) w) (hy : y ∈ w.marks) :
    y ∈ w.left ++ [u] ∨ g.Reaches y u := by
  cases hm : w.marks[y]? with
  | none => exact absurd hy (notMem_marks hm)
  | some m =>
    cases m with
    | closed => exact .inl (List.mem_append_left _ ((h.mem_left y).2 hm))
    | opened =>
      rcases List.mem_cons.1 ((h.opened_iff y).1 hm) with e | ht
      · exact .inl (by simp [Task.leave.inj e])
      · exact .inr ((List.pairwise_cons.1 h.stacked).1 _ ht y rfl (h.lt_size _ h.mem_marks_head))

/-- Leaving the node whose edges have all been taken. -/
theorem leave {u : Nat} (h : Underway g roots (.leave u :: tasks) w) :
    Underway g roots tasks (w.leave u) where
  lt_size v hv := h.lt_size v ((mem_marks_leave h.mem_marks_head).1 hv)
  opened_iff v := by
    have hgone : Task.leave u ∉ tasks := fun hu => h.leave_once_head.1 (List.mem_filterMap.2 ⟨_, hu, rfl⟩)
    rw [getElem?_marks_leave]
    split
    · next e => subst e; simp [hgone]
    · next e => rw [h.opened_iff]; simp [Ne.symm e]
  leave_once := h.leave_once_head.2
  stacked := (List.pairwise_cons.1 h.stacked).2
  closed_edge v hv x hx := by
    rw [getElem?_marks_leave] at hv
    rw [mem_marks_leave h.mem_marks_head]
    split at hv
    · next e => exact h.edge_head (e ▸ hx)
    · exact h.closed_edge v hv x hx
  open_edge pre v post he x hx := by
    rw [mem_marks_leave h.mem_marks_head]
    rcases h.open_edge (.leave u :: pre) v post (by rw [he]; rfl) x hx with hx | ⟨via, hvia⟩
    · exact .inl hx
    · exact .inr ⟨via, by simpa using hvia⟩
  root_seen r hr hlt := by
    rw [mem_marks_leave h.mem_marks_head]
    rcases h.root_seen r hr hlt with hm | ⟨via, hvia⟩
    · exact .inl hm
    · exact .inr ⟨via, by simpa using hvia⟩
  task_reached t ht hlt := h.task_reached t (List.mem_cons_of_mem _ ht) hlt
  mark_reached v hv := h.mark_reached v ((mem_marks_leave h.mem_marks_head).1 hv)
  mem_entered v := by rw [entered_leave, mem_marks_leave h.mem_marks_head, h.mem_entered]
  entered_nodup := by
    rw [entered_leave]
    exact h.entered_nodup
  mem_left v := by
    rw [left_leave, List.mem_append, List.mem_singleton, h.mem_left, getElem?_marks_leave]
    by_cases e : u = v
    · simp [e]
    · simp [e, Ne.symm e]
  left_nodup := by
    rw [left_leave]
    refine List.nodup_append.2 ⟨h.left_nodup, by simp, fun a ha b hb e => ?_⟩
    have hb : b = u := List.mem_singleton.1 hb
    rw [e, hb, h.mem_left, h.opened_head] at ha
    exact absurd ha (by simp)
  left_edge pre v post he x hx y hxy := by
    rw [left_leave] at he
    rcases split_snoc he with ⟨rfl, rfl, -⟩ | ⟨post', rfl, hleft⟩
    · -- the node just left is the last one
      refine h.above_head ?_
      rcases List.mem_append.1 hx with hx | hx
      · exact h.closed_edge x ((h.mem_left x).1 hx) y hxy
      · exact h.edge_head (List.mem_singleton.1 hx ▸ hxy)
    · exact h.left_edge pre v post' hleft x hx y hxy

/-- Passing over a node that was entered before, or over a number that is no node. -/
theorem skip {via : Option ε} {u : Nat} {w' : Walk ε}
    (h : Underway g roots (.visit via u :: tasks) w) (hu : u < g.size → u ∈ w.marks)
    (hmarks : w'.marks = w.marks) (hent : w'.entered = w.entered) (hleft : w'.left = w.left) :
    Underway g roots tasks w' where
  lt_size v hv := h.lt_size v (hmarks ▸ hv)
  opened_iff v := by rw [hmarks, h.opened_iff]; simp
  leave_once := h.leave_once
  stacked := (List.pairwise_cons.1 h.stacked).2
  closed_edge v hv x hx := hmarks ▸ h.closed_edge v (hmarks ▸ hv) x hx
  open_edge pre v post he x hx := by
    rw [hmarks]
    rcases h.open_edge (.visit via u :: pre) v post (by rw [he]; rfl) x hx with hm | ⟨via', hvia⟩
    · exact .inl hm
    · rcases List.mem_cons.1 hvia with e | hpre
      · obtain ⟨-, rfl⟩ := Task.visit.inj e
        exact .inl (hu hx.1)
      · exact .inr ⟨via', hpre⟩
  root_seen r hr hlt := by
    rw [hmarks]
    rcases h.root_seen r hr hlt with hm | ⟨via', hvia⟩
    · exact .inl hm
    · rcases List.mem_cons.1 hvia with e | htasks
      · obtain ⟨-, rfl⟩ := Task.visit.inj e
        exact .inl (hu hlt)
      · exact .inr ⟨via', htasks⟩
  task_reached t ht hlt := h.task_reached t (List.mem_cons_of_mem _ ht) hlt
  mark_reached v hv := h.mark_reached v (hmarks ▸ hv)
  mem_entered v := by rw [hent, hmarks, h.mem_entered]
  entered_nodup := hent ▸ h.entered_nodup
  mem_left v := by rw [hleft, hmarks, h.mem_left]
  left_nodup := hleft ▸ h.left_nodup
  left_edge := hleft ▸ h.left_edge

/-- A node without a mark is not being left. -/
theorem leave_notMem {u : Nat} (h : Underway g roots tasks w) (hnew : w.marks[u]? = none) :
    Task.leave u ∉ tasks := fun hu => by
  have hopen := (h.opened_iff u).2 hu
  rw [hnew] at hopen
  exact absurd hopen (by simp)

/-- Entering a node. -/
theorem enter {via : Option ε} {u : Nat} (h : Underway g roots (.visit via u :: tasks) w)
    (hlt : u < g.size) (hnew : w.marks[u]? = none) :
    Underway g roots (below g u ++ tasks) (w.enter u) where
  lt_size v hv := by
    rcases mem_marks_enter.1 hv with rfl | hv
    · exact hlt
    · exact h.lt_size v hv
  opened_iff v := by
    rw [getElem?_marks_enter, List.mem_append, leave_mem_below]
    by_cases e : u = v
    · simp [e]
    · rw [if_neg e, h.opened_iff]
      simp [Ne.symm e]
  leave_once := by
    rw [List.filterMap_append, left?_below]
    refine List.nodup_cons.2 ⟨fun hu => ?_, h.leave_once⟩
    obtain ⟨t, ht, hu⟩ := List.mem_filterMap.1 hu
    cases t with
    | visit => exact absurd hu (by simp [Task.left?])
    | leave v => exact h.leave_notMem hnew (List.mem_cons_of_mem _ (Option.some.inj hu ▸ ht))
  stacked := by
    refine List.pairwise_append.2 ⟨?_, (List.pairwise_cons.1 h.stacked).2, ?_⟩
    · refine List.pairwise_append.2 ⟨?_, List.pairwise_singleton .., ?_⟩
      · rw [List.pairwise_map]
        exact List.pairwise_of_forall fun _ _ _ e => absurd e (by simp)
      · intro t ht s hs v e hn
        rw [List.mem_singleton.1 hs] at e
        rw [← Task.leave.inj e]
        exact reaches_of_mem_below (List.mem_append_left _ ht) hn
    · intro t ht s hs v e hn
      have hvu := (List.pairwise_cons.1 h.stacked).1 s hs v e hlt
      exact hvu.trans (reaches_of_mem_below ht hn)
  closed_edge v hv x hx := by
    rw [getElem?_marks_enter] at hv
    rw [mem_marks_enter]
    split at hv
    · exact absurd hv (by simp)
    · exact .inr (h.closed_edge v hv x hx)
  open_edge pre v post he x hx := by
    rw [mem_marks_enter]
    rcases below_append_split he with ⟨rfl, rfl⟩ | ⟨mid, rfl, htasks⟩
    · obtain ⟨-, e, he⟩ := hx
      exact .inr ⟨some e, List.mem_map.2 ⟨(e, x), he, rfl⟩⟩
    · rcases h.open_edge (.visit via u :: mid) v post (by rw [htasks]; rfl) x hx with hm | ⟨via', hvia⟩
      · exact .inl (.inr hm)
      · rcases List.mem_cons.1 hvia with e | hmid
        · exact .inl (.inl (Task.visit.inj e).2)
        · exact .inr ⟨via', List.mem_append_right _ hmid⟩
  root_seen r hr hr' := by
    rw [mem_marks_enter]
    rcases h.root_seen r hr hr' with hm | ⟨via', hvia⟩
    · exact .inl (.inr hm)
    · rcases List.mem_cons.1 hvia with e | htasks
      · exact .inl (.inl (Task.visit.inj e).2)
      · exact .inr ⟨via', List.mem_append_right _ htasks⟩
  task_reached t ht hn := by
    rcases List.mem_append.1 ht with ht | ht
    · obtain ⟨r, hr, hrlt, hru⟩ := h.task_reached _ List.mem_cons_self hlt
      exact ⟨r, hr, hrlt, hru.trans (reaches_of_mem_below ht hn)⟩
    · exact h.task_reached t (List.mem_cons_of_mem _ ht) hn
  mark_reached v hv := by
    rcases mem_marks_enter.1 hv with rfl | hv
    · exact h.task_reached _ List.mem_cons_self hlt
    · exact h.mark_reached v hv
  mem_entered v := by
    rw [entered_enter, List.mem_append, List.mem_singleton, h.mem_entered, mem_marks_enter, or_comm]
  entered_nodup := by
    have hfresh : u ∉ w.marks := by simp [Std.HashMap.mem_iff_isSome_getElem?, hnew]
    rw [entered_enter]
    refine List.nodup_append.2 ⟨h.entered_nodup, by simp, fun a ha b hb e => ?_⟩
    rw [e, List.mem_singleton.1 hb, h.mem_entered] at ha
    exact hfresh ha
  mem_left v := by
    rw [left_enter, h.mem_left, getElem?_marks_enter]
    split
    · next e => subst e; simp [hnew]
    · rfl
  left_nodup := by
    rw [left_enter]
    exact h.left_nodup
  left_edge := by
    rw [left_enter]
    exact h.left_edge

/-- A walk that is under way ends up with nothing left to do. -/
theorem run (h : Underway g roots tasks w) :
    Underway g roots [] (Walk.run g tasks w) := by
  fun_induction Walk.run g tasks w with
  | case1 => exact h
  | case2 w v rest ih => exact ih h.leave
  | case3 w via v rest hv hm ih => exact ih (h.enter hv hm)
  | case4 w via v rest hv hm ih =>
    exact ih (h.skip (fun _ => mem_marks hm) (marks_meet ..) (entered_meet ..) (left_meet ..))
  | case5 w via v rest hv hm ih => exact ih (h.skip (fun _ => mem_marks hm) rfl rfl rfl)
  | case6 w via v rest hv ih => exact ih (h.skip (fun hv' => absurd hv' hv) rfl rfl rfl)

/-! ## A walk that has ended -/

/-- Every node that was entered has been left. -/
theorem closed (h : Underway g roots [] w) {v : Nat} (hv : v ∈ w.marks) :
    w.marks[v]? = some .closed := by
  cases hm : w.marks[v]? with
  | none => exact absurd hv (notMem_marks hm)
  | some m =>
    cases m with
    | closed => rfl
    | opened => exact absurd ((h.opened_iff v).1 hm) (by simp)

/-- Nothing is missed behind a node. -/
theorem mem_of_reaches (h : Underway g roots [] w) {u v : Nat} (hu : u ∈ w.marks)
    (huv : g.Reaches u v) : v ∈ w.marks := by
  induction huv with
  | refl => exact hu
  | step hedge _ ih => exact ih (h.closed_edge _ (h.closed hu) _ hedge)

theorem mem_marks_iff (h : Underway g roots [] w) (v : Nat) :
    v ∈ w.marks ↔ ∃ r ∈ roots, r < g.size ∧ g.Reaches r v := by
  refine ⟨h.mark_reached v, ?_⟩
  rintro ⟨r, hr, hlt, hrv⟩
  rcases h.root_seen r hr hlt with hm | ⟨via, hvia⟩
  · exact h.mem_of_reaches hm hrv
  · simp at hvia

/-- The nodes that a walk enters are those that its roots reach. -/
theorem mem_entered_iff (h : Underway g roots [] w) (v : Nat) :
    v ∈ w.entered ↔ ∃ r ∈ roots, r < g.size ∧ g.Reaches r v :=
  (h.mem_entered v).trans (h.mem_marks_iff v)

/-- The nodes that a walk leaves are those that it enters. -/
theorem mem_left_iff (h : Underway g roots [] w) (v : Nat) : v ∈ w.left ↔ v ∈ w.entered := by
  rw [h.mem_left, h.mem_entered]
  exact ⟨mem_marks, h.closed⟩

end Underway

end Walk

namespace Digraph

variable {g : Digraph ε} {roots : List Nat}

/-- The walk from the roots, run to its end. -/
theorem underway_walk (g : Digraph ε) (roots : List Nat) :
    ∃ w : Walk ε, w.events.toList = g.walk roots ∧
      Walk.Underway g roots [] w :=
  ⟨_, rfl, (Walk.Underway.init g roots).run⟩

theorem mem_preorder {v : Nat} :
    v ∈ g.preorder roots ↔ ∃ r ∈ roots, r < g.size ∧ g.Reaches r v := by
  obtain ⟨w, hw, h⟩ := g.underway_walk roots
  have hentered := h.mem_entered_iff v
  rwa [Walk.entered, hw] at hentered

theorem preorder_nodup : (g.preorder roots).Nodup := by
  obtain ⟨w, hw, h⟩ := g.underway_walk roots
  have := h.entered_nodup
  rwa [Walk.entered, hw] at this

theorem mem_postorder {v : Nat} :
    v ∈ g.postorder roots ↔ ∃ r ∈ roots, r < g.size ∧ g.Reaches r v := by
  obtain ⟨w, hw, h⟩ := g.underway_walk roots
  have hleft := (h.mem_left_iff v).trans (h.mem_entered_iff v)
  rwa [Walk.left, hw] at hleft

theorem postorder_nodup : (g.postorder roots).Nodup := by
  obtain ⟨w, hw, h⟩ := g.underway_walk roots
  have := h.left_nodup
  rwa [Walk.left, hw] at this

end Digraph

end Reclamation
