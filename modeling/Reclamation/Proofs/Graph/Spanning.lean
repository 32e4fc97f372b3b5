import Mathlib
import Reclamation.Proofs.Graph.BackEdges

/-!
# The edges a walk goes along

A walk takes an edge once. Either the edge leads to a node not yet entered and the walk goes along it, or to
an open node and the walk reports it, or to a node that has been left and the walk passes over it. Where
each edge has a label of its own, three facts follow:

* no label is reported twice (`backEdges_nodup`);
* a reported edge closes a cycle, since it leads to a node that is open when the edge is taken, and what is
  done before a node is left lies behind it (`reaches_of_mem_backEdges`);
* the edges that the walk goes along are not reported, so without the reported edges every node can still be
  reached, and from the very root whose turn it was when the node was entered: the first one that reaches it
  at all (`exists_first_root`).
-/

set_option autoImplicit false

namespace Reclamation

variable {ε : Type}

/-! ## Graphs with fewer edges -/

namespace Digraph

/-- Each edge has a label of its own. -/
structure Labelled (g : Digraph ε) : Prop where
  nodup : ∀ u, ((g.out u).map Prod.fst).Nodup
  source_eq : ∀ {u u' v v' : Nat} {e : ε}, (e, v) ∈ g.out u → (e, v') ∈ g.out u' → u = u'

/-- The graph without the edges that have one of the labels. -/
def without [DecidableEq ε] (g : Digraph ε) (labels : List ε) : Digraph ε where
  size := g.size
  out u := (g.out u).filter fun edge => edge.1 ∉ labels

theorem edge_without_iff [DecidableEq ε] {g : Digraph ε} {labels : List ε} {u v : Nat} :
    (g.without labels).Edge u v ↔ v < g.size ∧ ∃ e, (e, v) ∈ g.out u ∧ e ∉ labels := by
  simp [Edge, without]

/-- Paths along edges of one graph are paths of another that has these edges. -/
theorem Reaches.imp {ε' : Type} {g : Digraph ε} {h : Digraph ε'} {u v : Nat}
    (hedge : ∀ u v, g.Edge u v → h.Edge u v) (huv : g.Reaches u v) : h.Reaches u v := by
  induction huv with
  | refl => exact .refl _
  | step huw _ ih => exact .step (hedge _ _ huw) ih

end Digraph

/-! ## Taking an edge once -/

/-- The label of the edge that a task takes. -/
def Task.via? : Task ε → Option ε
  | .visit via _ => via
  | .leave _ => none

namespace Walk

variable {g : Digraph ε} {roots : List Nat} {tasks : List (Task ε)} {w : Walk ε}

theorem via?_below {v : Nat} : (below g v).filterMap Task.via? = (g.out v).map Prod.fst := by
  simp [below, List.filterMap_append, List.filterMap_map, Function.comp_def, Task.via?]

theorem via?_visit (via : Option ε) (v : Nat) (tasks : List (Task ε)) :
    (Task.visit via v :: tasks).filterMap Task.via? = via.toList ++ tasks.filterMap Task.via? := by
  cases via <;> rfl

/-- Once an edge is taken the same edges are left, or one less. -/
theorem via?_sublist_cons (labels : List ε) (via : Option ε) (v : Nat) (tasks : List (Task ε)) :
    (labels ++ tasks.filterMap Task.via?).Sublist (labels ++ (Task.visit via v :: tasks).filterMap Task.via?) := by
  rw [via?_visit]
  exact (List.Sublist.refl _).append (List.sublist_append_right ..)

theorem mem_marks_leave_of_mem {u v : Nat} (hv : v ∈ w.marks) : v ∈ (w.leave u).marks := by
  simp only [leave, Std.HashMap.mem_insert]
  exact .inr hv

/-- The labels reported and the labels of the edges still to be taken, when the tasks are left to do. -/
structure Taking (g : Digraph ε) (tasks : List (Task ε)) (w : Walk ε) : Prop where
  /-- No edge is taken again. -/
  once : (w.back ++ tasks.filterMap Task.via?).Nodup
  /-- Only the edges out of nodes that have been entered are taken. -/
  source : ∀ e ∈ w.back ++ tasks.filterMap Task.via?, ∀ u v, (e, v) ∈ g.out u → u ∈ w.marks
  leaving : ∀ v, .leave v ∈ tasks → v ∈ w.marks

namespace Taking

theorem start (g : Digraph ε) (roots : List Nat) : Taking g (roots.map (.visit none)) {} := by
  have hnone : (roots.map (@Task.visit ε none)).filterMap Task.via? = [] := by
    simp [List.filterMap_map, Function.comp_def, Task.via?]
  constructor <;> simp [hnone, back]

theorem leave {v : Nat} (h : Taking g (.leave v :: tasks) w) : Taking g tasks (w.leave v) where
  once := by
    rw [back_leave]
    exact h.once
  source e he u x hx := by
    rw [back_leave] at he
    exact mem_marks_leave_of_mem (h.source e he u x hx)
  leaving u hu := mem_marks_leave_of_mem (h.leaving u (List.mem_cons_of_mem _ hu))

theorem enter {via : Option ε} {v : Nat} (hg : g.Labelled) (h : Taking g (.visit via v :: tasks) w)
    (hnew : v ∉ w.marks) : Taking g (below g v ++ tasks) (w.enter v) := by
  have hrest := via?_sublist_cons w.back via v tasks
  refine ⟨?_, fun e he u x hx => ?_, fun u hu => ?_⟩
  · -- the edges out of a new node have not been taken before
    rw [back_enter, List.filterMap_append, via?_below]
    have hapart : List.Disjoint ((g.out v).map Prod.fst) (w.back ++ tasks.filterMap Task.via?) := by
      intro e he hold
      obtain ⟨⟨_, x⟩, hx, rfl⟩ := List.mem_map.1 he
      exact hnew (h.source _ (hrest.subset hold) v x hx)
    have hall := List.nodup_append'.2 ⟨hg.nodup v, h.once.sublist hrest, hapart⟩
    exact (List.perm_append_comm_assoc ..).nodup_iff.1 hall
  · rw [back_enter, List.filterMap_append, via?_below] at he
    rw [mem_marks_enter]
    rcases List.mem_append.1 he with he | he
    · exact .inr (h.source e (hrest.subset (List.mem_append_left _ he)) u x hx)
    · rcases List.mem_append.1 he with he | he
      · obtain ⟨⟨_, y⟩, hy, rfl⟩ := List.mem_map.1 he
        exact .inl (hg.source_eq hx hy)
      · exact .inr (h.source e (hrest.subset (List.mem_append_right _ he)) u x hx)
  · rw [mem_marks_enter]
    rcases List.mem_append.1 hu with hu | hu
    · exact .inl (leave_mem_below.1 hu)
    · exact .inr (h.leaving u (List.mem_cons_of_mem _ hu))

/-- Taking an edge without entering a node, whether it is reported or not. -/
theorem skip {via : Option ε} {v : Nat} {w' : Walk ε} (h : Taking g (.visit via v :: tasks) w)
    (hmarks : w'.marks = w.marks) (hback : w'.back.Sublist (w.back ++ via.toList)) : Taking g tasks w' := by
  have hsub : (w'.back ++ tasks.filterMap Task.via?).Sublist
      (w.back ++ (Task.visit via v :: tasks).filterMap Task.via?) := by
    rw [via?_visit, ← List.append_assoc]
    exact hback.append (List.Sublist.refl _)
  exact
    { once := h.once.sublist hsub
      source := fun e he u x hx => hmarks ▸ h.source e (hsub.subset he) u x hx
      leaving := fun u hu => hmarks ▸ h.leaving u (List.mem_cons_of_mem _ hu) }

theorem run (hg : g.Labelled) (h : Taking g tasks w) : Taking g [] (Walk.run g tasks w) := by
  fun_induction Walk.run g tasks w with
  | case1 => exact h
  | case2 w v rest ih => exact ih h.leave
  | case3 w via v rest hv hm ih =>
    exact ih (h.enter hg (notMem_marks hm))
  | case4 w via v rest hv hm ih => exact ih (h.skip (marks_meet ..) (by rw [back_meet]))
  | case5 w via v rest hv hm ih => exact ih (h.skip rfl (List.sublist_append_left ..))
  | case6 w via v rest hv ih => exact ih (h.skip rfl (List.sublist_append_left ..))

end Taking

/-- What is reported in the end was reported before, or waited to be taken, or leads out of a node that had
not been entered. -/
theorem mem_back_run {e : ε} (he : e ∈ (run g tasks w).back) :
    e ∈ w.back ++ tasks.filterMap Task.via? ∨ ∃ u v, u ∉ w.marks ∧ (e, v) ∈ g.out u := by
  fun_induction run g tasks w with
  | case1 => exact .inl (by simpa using he)
  | case2 w v rest ih =>
    rcases ih he with h | ⟨u, x, hu, hx⟩
    · rw [back_leave] at h
      exact .inl h
    · exact .inr ⟨u, x, fun hmem => hu (mem_marks_leave_of_mem hmem), hx⟩
  | case3 w via v rest hv hm ih =>
    have hnew : v ∉ w.marks := notMem_marks hm
    rcases ih he with h | ⟨u, x, hu, hx⟩
    · rw [back_enter, List.filterMap_append, via?_below] at h
      simp only [List.mem_append] at h
      rcases h with h | h | h
      · exact .inl (List.mem_append_left _ h)
      · obtain ⟨⟨_, x⟩, hx, rfl⟩ := List.mem_map.1 h
        exact .inr ⟨v, x, hnew, hx⟩
      · exact .inl (by simp [via?_visit, h])
    · exact .inr ⟨u, x, fun hmem => hu (mem_marks_enter.2 (.inr hmem)), hx⟩
  | case4 w via v rest hv hm ih =>
    rcases ih he with h | h
    · rw [back_meet, List.append_assoc] at h
      exact .inl (by rwa [via?_visit])
    · rw [marks_meet] at h
      exact .inr h
  | case5 w via v rest hv hm ih =>
    exact (ih he).imp_left fun h => (via?_sublist_cons ..).subset h
  | case6 w via v rest hv ih =>
    exact (ih he).imp_left fun h => (via?_sublist_cons ..).subset h

/-- The edge along which a node is entered is taken by that, so it is not reported. -/
theorem Taking.unreported {via : Option ε} {v : Nat} (h : Taking g (.visit via v :: tasks) w)
    (hnew : v ∉ w.marks) : ∀ e ∈ via, e ∉ (Walk.run g (below g v ++ tasks) (w.enter v)).back := by
  rintro e rfl hback
  have hwaits : e ∈ w.back ++ (Task.visit (some e) v :: tasks).filterMap Task.via? := by simp [via?_visit]
  have honce := h.once
  rw [via?_visit] at honce
  rcases mem_back_run hback with hmem | ⟨u, y, hu, hy⟩
  · rw [back_enter, List.filterMap_append, via?_below] at hmem
    simp only [List.mem_append] at hmem
    rcases hmem with hmem | hmem | hmem
    · exact (List.nodup_append'.1 honce).2.2 hmem (by simp)
    · obtain ⟨⟨_, y⟩, hy, rfl⟩ := List.mem_map.1 hmem
      exact hnew (h.source _ hwaits v y hy)
    · exact (List.nodup_cons.1 (List.nodup_append'.1 honce).2.1).1 hmem
  · exact hu (mem_marks_enter.2 (.inr (h.source e hwaits u y hy)))

/-! ## Edges that close cycles -/

/-- The edges reported so far close cycles, and those still to be taken out of a node lie behind every node
that is left later. -/
structure Closing (g : Digraph ε) (tasks : List (Task ε)) (w : Walk ε) : Prop where
  closed : ∀ e ∈ w.back, ∃ u v, (e, v) ∈ g.out u ∧ v < g.size ∧ g.Reaches v u
  behind : tasks.Pairwise fun t s => ∀ e x v, t = .visit (some e) x → s = .leave v →
    ∃ u, (e, x) ∈ g.out u ∧ g.Reaches v u

namespace Closing

theorem enter {via : Option ε} {y : Nat} (h : Closing g (.visit via y :: tasks) w)
    (hunder : Underway g roots (.visit via y :: tasks) w) (hy : y < g.size) :
    Closing g (below g y ++ tasks) (w.enter y) where
  closed e he := h.closed e (by rwa [back_enter] at he)
  behind := by
    have hvisit : ∀ {e x}, .visit (some e) x ∈ below g y → (e, x) ∈ g.out y := by
      intro e x hmem
      simpa [below] using hmem
    refine List.pairwise_append.2 ⟨?_, (List.pairwise_cons.1 h.behind).2, ?_⟩
    · refine List.pairwise_iff_forall_sublist.2 fun {t s} hts e x v ht hs => ?_
      subst ht hs
      have hv : Task.leave v ∈ below g y := hts.subset (by simp)
      rw [leave_mem_below.1 hv]
      exact ⟨y, hvisit (hts.subset (by simp)), .refl y⟩
    · rintro t ht s hs e x v rfl rfl
      exact ⟨y, hvisit ht, (List.pairwise_cons.1 hunder.stacked).1 _ hs v rfl hy⟩

theorem meet {via : Option ε} {v : Nat} (h : Closing g (.visit via v :: tasks) w)
    (hunder : Underway g roots (.visit via v :: tasks) w) (hv : v < g.size)
    (hopen : w.marks[v]? = some .opened) : Closing g tasks (w.meet via) where
  closed e he := by
    rw [back_meet, List.mem_append, Option.mem_toList] at he
    rcases he with he | rfl
    · exact h.closed e he
    · -- the open node is left after the edge is taken
      have hleave : Task.leave v ∈ tasks := by simpa using (hunder.opened_iff v).1 hopen
      obtain ⟨u, hu, hvu⟩ := (List.pairwise_cons.1 h.behind).1 _ hleave e v v rfl rfl
      exact ⟨u, v, hu, hv, hvu⟩
  behind := (List.pairwise_cons.1 h.behind).2

theorem run (h : Closing g tasks w) (hunder : Underway g roots tasks w) :
    Closing g [] (Walk.run g tasks w) := by
  fun_induction Walk.run g tasks w with
  | case1 => exact h
  | case2 w v rest ih =>
    exact ih ⟨by rw [back_leave]; exact h.closed, (List.pairwise_cons.1 h.behind).2⟩ hunder.leave
  | case3 w via v rest hv hm ih => exact ih (h.enter hunder hv) (hunder.enter hv hm)
  | case4 w via v rest hv hm ih =>
    exact ih (h.meet hunder hv hm)
      (hunder.skip (fun _ => mem_marks hm) (marks_meet ..) (entered_meet ..) (left_meet ..))
  | case5 w via v rest hv hm ih =>
    exact ih ⟨h.closed, (List.pairwise_cons.1 h.behind).2⟩
      (hunder.skip (fun _ => mem_marks hm) rfl rfl rfl)
  | case6 w via v rest hv ih =>
    exact ih ⟨h.closed, (List.pairwise_cons.1 h.behind).2⟩
      (hunder.skip (fun hlt => absurd hlt hv) rfl rfl rfl)

end Closing

/-! ## Where a node is found -/

theorem run_enter {via : Option ε} {v : Nat} (hv : v < g.size) (hm : w.marks[v]? = none) :
    run g (.visit via v :: tasks) w = run g (below g v ++ tasks) (w.enter v) := by
  rw [run, dif_pos hv]
  split <;> simp_all

theorem run_meet {via : Option ε} {v : Nat} (hv : v < g.size) (hm : w.marks[v]? = some .opened) :
    run g (.visit via v :: tasks) w = run g tasks (w.meet via) := by
  rw [run, dif_pos hv]
  split <;> simp_all

theorem run_pass {via : Option ε} {v : Nat} (hv : v < g.size) (hm : w.marks[v]? = some .closed) :
    run g (.visit via v :: tasks) w = run g tasks w := by
  rw [run, dif_pos hv]
  split <;> simp_all

theorem run_outside {via : Option ε} {v : Nat} (hv : ¬ v < g.size) :
    run g (.visit via v :: tasks) w = run g tasks w := by
  rw [run, dif_neg hv]

/-- A visit among those that entering a node adds, or one that waited before. -/
theorem visit_below_append {via : Option ε} {u v : Nat} {pre post : List (Task ε)}
    (he : below g u ++ tasks = pre ++ .visit via v :: post) :
    (∃ e, via = some e ∧ (e, v) ∈ g.out u) ∨
      ∃ mid, pre = below g u ++ mid ∧ tasks = mid ++ .visit via v :: post := by
  rcases List.append_eq_append_iff.1 he with ⟨mid, hpre, htasks⟩ | ⟨mid, hbelow, htasks⟩
  · exact .inr ⟨mid, hpre, htasks⟩
  · cases mid with
    | nil => exact .inr ⟨[], by simpa using hbelow.symm, by simpa using htasks.symm⟩
    | cons t mid =>
      obtain ⟨rfl, -⟩ := List.cons.inj htasks
      have hmem : Task.visit via v ∈ below g u := by
        rw [hbelow]
        simp
      simp only [below, List.mem_append, List.mem_map, Task.visit.injEq, List.mem_singleton,
        reduceCtorEq, or_false] at hmem
      obtain ⟨⟨e, x⟩, hx, hvia, rfl⟩ := hmem
      exact .inl ⟨e, hvia.symm, hx⟩

/-- The visit behind which a walk finds a node: not before it, and then along edges that are not reported. -/
def FoundBehind [DecidableEq ε] (g : Digraph ε) (reported : List ε) (tasks : List (Task ε)) (w : Walk ε)
    (x : Nat) : Prop :=
  ∃ pre via v post, tasks = pre ++ .visit via v :: post ∧ x ∉ (run g pre w).marks ∧ v < g.size ∧
    (∀ e ∈ via, e ∉ reported) ∧ (g.without reported).Reaches v x

theorem FoundBehind.cons [DecidableEq ε] {reported : List ε} {t : Task ε} {w' : Walk ε} {x : Nat}
    (h : FoundBehind g reported tasks w' x) (hstep : ∀ pre, run g (t :: pre) w = run g pre w') :
    FoundBehind g reported (t :: tasks) w x := by
  obtain ⟨pre, via, v, post, rfl, hx, hrest⟩ := h
  exact ⟨t :: pre, via, v, post, rfl, by rwa [hstep], hrest⟩

/-- Every node that a walk comes to enter is found behind one of the visits. -/
theorem Taking.foundBehind [DecidableEq ε] (hg : g.Labelled) (h : Taking g tasks w) {x : Nat}
    (hx : x ∈ (Walk.run g tasks w).marks) (hnew : x ∉ w.marks) :
    FoundBehind g (Walk.run g tasks w).back tasks w x := by
  fun_induction Walk.run g tasks w with
  | case1 => exact absurd hx hnew
  | case2 w v rest ih =>
    have hv := h.leaving v List.mem_cons_self
    exact (ih h.leave hx fun hmem => hnew ((mem_marks_leave hv).1 hmem)).cons fun pre => by rw [Walk.run]
  | case3 w via v rest hv hm ih =>
    have hfresh : v ∉ w.marks := notMem_marks hm
    have hentered := h.enter hg hfresh
    have hvia := h.unreported hfresh
    by_cases hxv : x = v
    · subst hxv
      exact ⟨[], via, x, rest, rfl, by rwa [Walk.run], hv, hvia, .refl x⟩
    · have hx' : x ∉ (w.enter v).marks := fun hmem => (mem_marks_enter.1 hmem).elim hxv hnew
      obtain ⟨pre, via', v', post, he, hpre, hv', hvia', hreach⟩ := ih hentered hx hx'
      rcases visit_below_append he with ⟨e, rfl, hedge⟩ | ⟨mid, rfl, rfl⟩
      · have hout : (g.without (Walk.run g (below g v ++ rest) (w.enter v)).back).Edge v v' :=
          Digraph.edge_without_iff.2 ⟨hv', e, hedge, hvia' e rfl⟩
        exact ⟨[], via, v, rest, rfl, by rwa [Walk.run], hv, hvia, .step hout hreach⟩
      · exact ⟨.visit via v :: mid, via', v', post, rfl, by rwa [run_enter hv hm], hv', hvia', hreach⟩
  | case4 w via v rest hv hm ih =>
    have hskip : Taking g rest (w.meet via) := h.skip (marks_meet ..) (by rw [back_meet])
    exact (ih hskip hx (by rwa [marks_meet])).cons fun pre => run_meet hv hm
  | case5 w via v rest hv hm ih =>
    exact (ih (h.skip rfl (List.sublist_append_left ..)) hx hnew).cons fun pre => run_pass hv hm
  | case6 w via v rest hv ih =>
    exact (ih (h.skip rfl (List.sublist_append_left ..)) hx hnew).cons fun pre => run_outside hv

end Walk

namespace Digraph

variable {g : Digraph ε} {roots : List Nat}

theorem backEdges_nodup (hg : g.Labelled) : (g.backEdges roots).Nodup := by
  have honce := ((Walk.Taking.start g roots).run hg).once
  rw [List.filterMap_nil, List.append_nil] at honce
  exact honce

/-- A reported edge closes a cycle. -/
theorem reaches_of_mem_backEdges {e : ε} (he : e ∈ g.backEdges roots) :
    ∃ u v, (e, v) ∈ g.out u ∧ v < g.size ∧ g.Reaches v u := by
  have hstart : Walk.Closing g (roots.map (.visit none)) {} := by
    refine ⟨by simp [Walk.back], ?_⟩
    rw [List.pairwise_map]
    exact List.pairwise_of_forall fun _ _ e x v ht _ => absurd ht (by simp)
  exact (hstart.run (.init g roots)).closed e he

/-- Without the reported edges a node can still be reached from the first root that reaches it. -/
theorem exists_first_root [DecidableEq ε] (hg : g.Labelled) {x : Nat} (hx : x ∈ g.preorder roots) :
    ∃ pre r post, roots = pre ++ r :: post ∧ (∀ p ∈ pre, p < g.size → ¬ g.Reaches p x) ∧ r < g.size ∧
      (g.without (g.backEdges roots)).Reaches r x := by
  have hend : ∀ roots, Walk.Underway g roots [] (Walk.run g (roots.map (.visit none)) {}) :=
    fun roots => (Walk.Underway.init g roots).run
  have hmarks : x ∈ (Walk.run g (roots.map (.visit none)) {}).marks :=
    ((hend roots).mem_marks_iff x).2 (mem_preorder.1 hx)
  obtain ⟨tasks, via, r, rest, he, hnot, hr, -, hreach⟩ :=
    (Walk.Taking.start g roots).foundBehind hg hmarks (by simp)
  obtain ⟨pre, mid, rfl, rfl, hmid⟩ := List.map_eq_append_iff.1 he
  obtain ⟨r', post, rfl, hvisit, -⟩ := List.map_eq_cons_iff.1 hmid
  obtain ⟨-, rfl⟩ := Task.visit.inj hvisit
  refine ⟨pre, r', post, rfl, fun p hp hlt hpx => hnot ?_, hr, hreach⟩
  exact ((hend pre).mem_marks_iff x).2 ⟨p, hp, hlt, hpx⟩

end Digraph

end Reclamation
