import Mathlib
import Reclamation.Proofs.Graph.Walk

/-!
# Edges that lead back

A walk leaves a node only when each of its edges has been taken, and then the edge either led to a node
that was still open, so that it was reported as leading back, or to one that has been left earlier. So
the order of leaving decreases along every edge that was not reported (`exists_rank`): every cycle has a
reported edge, and without the reported edges there is no cycle.

`Walk.Followed` says this of a walk under way. Of an edge out of a node that is still open it says what
will become of it: it waits among the tasks before the leaving of its node, and so does the leaving of
a target that is open itself.
-/

set_option autoImplicit false

namespace Reclamation

variable {ε : Type}

namespace Walk

/-- The edges reported so far as leading back, in order. -/
def back (w : Walk ε) : List ε :=
  w.events.toList.filterMap Event.back?

@[simp] theorem back_enter (w : Walk ε) (v : Nat) : (w.enter v).back = w.back := by
  simp [back, enter, Event.back?]

@[simp] theorem back_leave (w : Walk ε) (v : Nat) : (w.leave v).back = w.back := by
  simp [back, leave, Event.back?]

theorem back_meet (w : Walk ε) (via : Option ε) : (w.meet via).back = w.back ++ via.toList := by
  cases via <;> simp [back, meet, Event.back?]

/-- What has become of the edges out of the nodes that were left, and will become of those out of the
nodes that are open, when the tasks are left to do. -/
structure Followed (g : Digraph ε) (tasks : List (Task ε)) (w : Walk ε) : Prop where
  left_edge : ∀ u ∈ w.left, ∀ e v, (e, v) ∈ g.out u → v < g.size →
    e ∈ w.back ∨ [v, u].Sublist w.left
  open_edge : ∀ pre u post, tasks = pre ++ .leave u :: post → ∀ e v, (e, v) ∈ g.out u → v < g.size →
    e ∈ w.back ∨ v ∈ w.left ∨ .visit (some e) v ∈ pre ∨ .leave v ∈ pre

namespace Followed

variable {g : Digraph ε} {roots : List Nat} {before : Nat → Prop} {tasks : List (Task ε)} {w : Walk ε}

theorem start (roots : List Nat) : Followed g (roots.map (Task.visit none)) {} where
  left_edge u hu := by simp [left] at hu
  open_edge pre u post h := by
    have hmem : Task.leave u ∈ roots.map (Task.visit (none : Option ε)) := by
      rw [h]
      simp
    simp at hmem

theorem leave {u : Nat} (h : Followed g (.leave u :: tasks) w) : Followed g tasks (w.leave u) where
  left_edge x hx e v he hv := by
    rw [back_leave, left_leave]
    rw [left_leave, List.mem_append, List.mem_singleton] at hx
    rcases hx with hx | rfl
    · rcases h.left_edge x hx e v he hv with hb | hs
      · exact .inl hb
      · exact .inr (hs.trans (List.sublist_append_left ..))
    · -- nothing waits in front of the leaving, so the target has been left
      rcases h.open_edge [] x tasks rfl e v he hv with hb | hl | hpre | hpre
      · exact .inl hb
      · exact .inr ((List.singleton_sublist.2 hl).append (List.Sublist.refl [x]))
      · exact absurd hpre (by simp)
      · exact absurd hpre (by simp)
  open_edge pre x post htasks e v he hv := by
    rw [back_leave, left_leave, List.mem_append, List.mem_singleton]
    rcases h.open_edge (.leave u :: pre) x post (by rw [htasks]; rfl) e v he hv with hb | hl | hpre | hpre
    · exact .inl hb
    · exact .inr (.inl (.inl hl))
    · exact .inr (.inr (.inl (by simpa using hpre)))
    · rcases List.mem_cons.1 hpre with hvu | hpre
      · exact .inr (.inl (.inr (Task.leave.inj hvu)))
      · exact .inr (.inr (.inr hpre))

/-- An edge to a node that was entered before is dealt with at once. -/
theorem skip {via : Option ε} {x : Nat} {w' : Walk ε} (h : Followed g (.visit via x :: tasks) w)
    (hleft : w'.left = w.left) (hback : ∀ e ∈ w.back, e ∈ w'.back)
    (hx : ∀ e, via = some e → x < g.size → e ∈ w'.back ∨ x ∈ w.left) : Followed g tasks w' where
  left_edge u hu e v he hv := by
    rw [hleft] at hu ⊢
    exact (h.left_edge u hu e v he hv).imp_left (hback e)
  open_edge pre u post htasks e v he hv := by
    rw [hleft]
    rcases h.open_edge (.visit via x :: pre) u post (by rw [htasks]; rfl) e v he hv with hb | hl | hpre | hpre
    · exact .inl (hback e hb)
    · exact .inr (.inl hl)
    · rcases List.mem_cons.1 hpre with hvisit | hpre
      · obtain ⟨rfl, rfl⟩ := Task.visit.inj hvisit
        exact (hx e rfl hv).imp_right .inl
      · exact .inr (.inr (.inl hpre))
    · exact .inr (.inr (.inr (by simpa using hpre)))

theorem enter {via : Option ε} {x : Nat} (h : Followed g (.visit via x :: tasks) w) :
    Followed g (below g x ++ tasks) (w.enter x) where
  left_edge u hu e v he hv := by
    rw [left_enter] at hu ⊢
    rw [back_enter]
    exact h.left_edge u hu e v he hv
  open_edge pre u post htasks e v he hv := by
    rw [back_enter, left_enter]
    rw [below, List.append_assoc, List.singleton_append] at htasks
    -- the leaving in question is that of `x` or one that was due before
    rcases List.append_eq_append_iff.1 htasks with ⟨mid, hpre, hmid⟩ | ⟨mid, hvisits, hmid⟩
    · cases mid with
      | nil =>
        obtain ⟨hux, -⟩ := List.cons.inj hmid
        obtain rfl := Task.leave.inj hux
        refine .inr (.inr (.inl ?_))
        rw [hpre, List.append_nil]
        exact List.mem_map.2 ⟨(e, v), he, rfl⟩
      | cons t mid =>
        obtain ⟨rfl, hrest⟩ := List.cons.inj hmid
        rcases h.open_edge (.visit via x :: mid) u post (by rw [hrest]; rfl) e v he hv with
          hb | hl | hin | hin
        · exact .inl hb
        · exact .inr (.inl hl)
        · rcases List.mem_cons.1 hin with hvisit | hin
          · -- the target is the node just entered, which is left before `u`
            obtain ⟨-, rfl⟩ := Task.visit.inj hvisit
            exact .inr (.inr (.inr (by rw [hpre]; simp)))
          · exact .inr (.inr (.inl (by rw [hpre]; simp [hin])))
        · have hin : Task.leave v ∈ mid := by simpa using hin
          exact .inr (.inr (.inr (by rw [hpre]; simp [hin])))
    · cases mid with
      | nil =>
        obtain ⟨hux, -⟩ := List.cons.inj hmid
        obtain rfl := Task.leave.inj hux
        refine .inr (.inr (.inl ?_))
        rw [← List.append_nil pre, ← hvisits]
        exact List.mem_map.2 ⟨(e, v), he, rfl⟩
      | cons t mid =>
        obtain ⟨rfl, -⟩ := List.cons.inj hmid
        have hmem : Task.leave u ∈ (g.out x).map (fun edge => Task.visit (some edge.1) edge.2) := by
          rw [hvisits]
          simp
        simp at hmem

theorem run (h : Followed g tasks w) (hunder : Underway g roots tasks w) :
    Followed g [] (Walk.run g tasks w) := by
  fun_induction Walk.run g tasks w with
  | case1 => exact h
  | case2 w v rest ih => exact ih h.leave hunder.leave
  | case3 w via v rest hv hm ih => exact ih h.enter (hunder.enter hv hm)
  | case4 w via v rest hv hm ih =>
    refine ih (h.skip (left_meet ..) (fun e he => ?_) fun e hvia _ => .inl ?_)
      (hunder.skip (fun _ => mem_marks hm) (marks_meet ..) (entered_meet ..) (left_meet ..))
    · rw [back_meet]
      exact List.mem_append_left _ he
    · rw [back_meet, hvia]
      simp
  | case5 w via v rest hv hm ih =>
    have hleft : v ∈ w.left := (hunder.mem_left v).2 hm
    exact ih (h.skip rfl (fun e he => he) fun e _ _ => .inr hleft) (hunder.skip (fun _ => mem_marks hm) rfl rfl rfl)
  | case6 w via v rest hv ih =>
    refine ih (h.skip rfl (fun e he => he) fun e _ hlt => absurd hlt hv)
      (hunder.skip (fun hlt => absurd hlt hv) rfl rfl rfl)

end Followed

/-- What holds of the labels of all edges holds of those that are reported. -/
theorem of_mem_back {g : Digraph ε} {P : ε → Prop} (hout : ∀ u, ∀ edge ∈ g.out u, P edge.1)
    (tasks : List (Task ε)) (w : Walk ε) (htasks : ∀ e v, .visit (some e) v ∈ tasks → P e)
    (hback : ∀ e ∈ w.back, P e) : ∀ e ∈ (run g tasks w).back, P e := by
  fun_induction run g tasks w with
  | case1 => exact hback
  | case2 w v rest ih =>
    exact ih (fun e v h => htasks e v (List.mem_cons_of_mem _ h)) (by rwa [back_leave])
  | case3 w via v rest hv hm ih =>
    refine ih (fun e v' h => ?_) (by rwa [back_enter])
    rcases List.mem_append.1 h with h | h
    · have hedge : (e, v') ∈ g.out v := by
        simpa [below] using h
      exact hout v _ hedge
    · exact htasks e v' (List.mem_cons_of_mem _ h)
  | case4 w via v rest hv hm ih =>
    refine ih (fun e v' h => htasks e v' (List.mem_cons_of_mem _ h)) fun e he => ?_
    rw [back_meet, List.mem_append, Option.mem_toList] at he
    rcases he with he | rfl
    · exact hback e he
    · exact htasks e v List.mem_cons_self
  | case5 w via v rest hv hm ih =>
    exact ih (fun e v' h => htasks e v' (List.mem_cons_of_mem _ h)) hback
  | case6 w via v rest hv ih =>
    exact ih (fun e v' h => htasks e v' (List.mem_cons_of_mem _ h)) hback

end Walk

namespace Digraph

variable {g : Digraph ε} {roots : List Nat}

/-- In a list without repetition what comes first has the smaller index. -/
theorem idxOf_lt_of_sublist {l : List Nat} {u v : Nat} (hl : l.Nodup) (h : [v, u].Sublist l) :
    l.idxOf v < l.idxOf u := by
  induction l with
  | nil => exact absurd h (by simp)
  | cons x l ih =>
    obtain ⟨hx, hl⟩ := List.nodup_cons.1 hl
    cases h with
    | cons _ h =>
      have hv : v ∈ l := h.subset (by simp)
      have hu : u ∈ l := h.subset (by simp)
      rw [List.idxOf_cons_ne _ (ne_of_mem_of_not_mem hv hx).symm,
        List.idxOf_cons_ne _ (ne_of_mem_of_not_mem hu hx).symm]
      exact Nat.succ_lt_succ (ih hl h)
    | cons_cons _ h =>
      have hu : u ∈ l := List.singleton_sublist.1 h
      rw [List.idxOf_cons_self, List.idxOf_cons_ne _ (ne_of_mem_of_not_mem hu hx).symm]
      exact Nat.succ_pos _

/-- Along an edge that is not reported as leading back the nodes have a rank that decreases. -/
theorem exists_rank (g : Digraph ε) (roots : List Nat) : ∃ rank : Nat → Nat,
    ∀ u ∈ g.postorder roots, ∀ e v, (e, v) ∈ g.out u → v < g.size → e ∉ g.backEdges roots →
      rank v < rank u := by
  have hend := (Walk.Followed.start (g := g) roots).run (.init g roots)
  refine ⟨fun v => (g.postorder roots).idxOf v, fun u hu e v he hv hback => ?_⟩
  rcases hend.left_edge u hu e v he hv with hb | hs
  · exact absurd hb hback
  · exact idxOf_lt_of_sublist postorder_nodup hs

theorem of_mem_backEdges {P : ε → Prop} (hout : ∀ u, ∀ edge ∈ g.out u, P edge.1) {e : ε}
    (he : e ∈ g.backEdges roots) : P e :=
  Walk.of_mem_back (g := g) hout (roots.map (Task.visit none)) {} (by simp)
    (by simp [Walk.back]) e he

end Digraph

end Reclamation
