import Mathlib
import Reclamation.Proofs.Graph.Walk
import Reclamation.Proofs.Memory.Discard

/-!
# Orphans are a closed group

A symmetric object keeps the number of references from fields, so whether all of them come from the
objects that were found can be told by counting. An object that has more is held from outside; what is
held that way, and what it reaches, is kept. Every other object that was found has all its references
from objects that were found, and none of those is kept, for then it would be kept as well
(`closed_orphans`).
-/

set_option autoImplicit false

namespace Reclamation

namespace Memory

variable {m : Memory} {r v : Ref} {candidates : List Ref}

theorem isUnowned_iff : m.isUnowned r = true ↔
    ∃ o, m.object? r = some o ∧ o.symmetric = true ∧ o.count = 0 := by
  simp [isUnowned, Option.any_eq_true]

theorem unownedGraph_edge_iff {u : Ref} : m.unownedGraph.Edge u v ↔
    v ∈ m.strongTargets u ∧ m.isUnowned v = true := by
  simp only [Digraph.Edge, unownedGraph, List.mem_map, List.mem_filter, List.mem_reverse,
    Prod.mk.injEq, true_and, exists_eq_right, exists_const]
  constructor
  · exact fun h => h.2
  · rintro ⟨hv, hun⟩
    obtain ⟨o, ho, -⟩ := isUnowned_iff.1 hun
    exact ⟨lt_size_of_isLive (isLive_of_object? ho), hv, hun⟩

theorem lt_size_of_isUnowned (h : m.isUnowned v = true) : v < m.unownedGraph.size := by
  obtain ⟨o, ho, -⟩ := isUnowned_iff.1 h
  exact lt_size_of_isLive (isLive_of_object? ho)

theorem isUnowned_of_reaches {u : Ref} (h : m.unownedGraph.Reaches u v)
    (hu : m.isUnowned u = true) : m.isUnowned v = true := by
  induction h with
  | refl => exact hu
  | step hedge _ ih => exact ih (unownedGraph_edge_iff.1 hedge).2

/-! ## Counting the references of a group -/

theorem getD_foldl_count (r : Ref) : ∀ (l : List Ref) (counts : Std.HashMap Ref Nat),
    (l.foldl (fun counts r => counts.insert r (counts.getD r 0 + 1)) counts).getD r 0 =
      counts.getD r 0 + l.count r
  | [], counts => by simp
  | x :: l, counts => by
    rw [List.foldl_cons, getD_foldl_count r l, Std.HashMap.getD_insert, List.count_cons]
    by_cases hx : x = r
    · simp [hx]
      omega
    · simp [hx]

theorem getD_referenceCounts (m : Memory) (holders : List Ref) (r : Ref) :
    (m.referenceCounts holders).getD r 0 = (holders.flatMap m.strongTargets).count r := by
  rw [referenceCounts, getD_foldl_count]
  simp

/-! ## What is found and what is kept -/

/-- The objects among the candidates and behind them that the program does not refer to. -/
def found (m : Memory) (candidates : List Ref) : List Ref :=
  m.unownedGraph.preorder (candidates.filter m.isUnowned)

/-- Whether an object is referred to by more fields than those of the objects found. -/
def IsHeld (m : Memory) (candidates : List Ref) (r : Ref) : Prop :=
  ∃ o, m.object? r = some o ∧
    ((m.found candidates).flatMap m.strongTargets).count r < o.internal.toNat

theorem mem_found_iff : v ∈ m.found candidates ↔
    ∃ c ∈ candidates, m.isUnowned c = true ∧ m.unownedGraph.Reaches c v := by
  rw [found, Digraph.mem_preorder]
  constructor
  · rintro ⟨c, hc, -, hv⟩
    obtain ⟨hc, hun⟩ := List.mem_filter.1 hc
    exact ⟨c, hc, hun, hv⟩
  · rintro ⟨c, hc, hun, hv⟩
    exact ⟨c, List.mem_filter.2 ⟨hc, hun⟩, lt_size_of_isUnowned hun, hv⟩

theorem isUnowned_of_mem_found (h : v ∈ m.found candidates) : m.isUnowned v = true := by
  obtain ⟨c, -, hun, hv⟩ := mem_found_iff.1 h
  exact isUnowned_of_reaches hv hun

theorem mem_found_of_edge {u : Ref} (hu : u ∈ m.found candidates) (hv : v ∈ m.strongTargets u)
    (hun : m.isUnowned v = true) : v ∈ m.found candidates := by
  obtain ⟨c, hc, hcun, hcu⟩ := mem_found_iff.1 hu
  exact mem_found_iff.2 ⟨c, hc, hcun, hcu.trans (unownedGraph_edge_iff.2 ⟨hv, hun⟩).reaches⟩

theorem mem_orphans_iff : v ∈ m.orphans candidates ↔ v ∈ m.found candidates ∧
    ¬ ∃ h ∈ m.found candidates, m.IsHeld candidates h ∧ m.unownedGraph.Reaches h v := by
  unfold orphans
  rw [List.mem_filter]
  refine and_congr_right fun _ => ?_
  have hheld : ∀ h, h ∈ (m.found candidates).filter (fun r =>
      m.isHeldBeyond r ((m.referenceCounts (m.found candidates)).getD r 0)) ↔
        h ∈ m.found candidates ∧ m.IsHeld candidates h := fun h => by
    rw [List.mem_filter, getD_referenceCounts]
    simp [isHeldBeyond, IsHeld, Option.any_eq_true]
  show (!(Std.HashSet.ofList (m.unownedGraph.preorder ((m.found candidates).filter (fun r =>
    m.isHeldBeyond r ((m.referenceCounts (m.found candidates)).getD r 0))))).contains v) = true ↔ _
  rw [Bool.not_eq_true', Std.HashSet.contains_ofList, List.contains_eq_mem, decide_eq_false_iff_not,
    Digraph.mem_preorder]
  refine not_congr ⟨?_, ?_⟩
  · rintro ⟨h, hh, -, hv⟩
    obtain ⟨hfound, hheld⟩ := (hheld h).1 hh
    exact ⟨h, hfound, hheld, hv⟩
  · rintro ⟨h, hfound, hh, hv⟩
    exact ⟨h, (hheld h).2 ⟨hfound, hh⟩, lt_size_of_isUnowned (isUnowned_of_mem_found hfound), hv⟩

theorem isUnowned_of_mem_orphans (h : v ∈ m.orphans candidates) : m.isUnowned v = true :=
  isUnowned_of_mem_found (mem_orphans_iff.1 h).1

theorem isLive_of_mem_found (h : v ∈ m.found candidates) : m.isLive v = true := by
  obtain ⟨o, ho, -⟩ := isUnowned_iff.1 (isUnowned_of_mem_found h)
  exact isLive_of_object? ho

theorem nodup_found (m : Memory) (candidates : List Ref) : (m.found candidates).Nodup :=
  Digraph.preorder_nodup

/-- Fields outside of what was found refer to an object that is held, if its count tells all references from fields
and those that are still to be given up. -/
theorem isHeld_iff_of_internal {extra : Multiset Ref} (hr : r ∈ m.found candidates)
    (hinternal : ∀ o, m.object? r = some o → o.internal.toNat = (extra + m.references).count r) :
    m.IsHeld candidates r ↔ r ∈ extra ∨ r ∈ m.referencesOutside (m.found candidates) := by
  obtain ⟨o, ho, -⟩ := isUnowned_iff.1 (isUnowned_of_mem_found hr)
  have hcount := hinternal o ho
  rw [m.references_eq_add (nodup_found m candidates) fun _ => isLive_of_mem_found] at hcount
  simp only [Multiset.count_add, Multiset.coe_count] at hcount
  rw [← Multiset.count_pos, ← Multiset.count_pos]
  constructor
  · rintro ⟨o', ho', hlt⟩
    obtain rfl := Option.some.inj (ho.symm.trans ho')
    omega
  · intro hpos
    exact ⟨o, ho, by omega⟩

theorem not_isHeld_of_mem_orphans (hv : v ∈ m.orphans candidates) : ¬ m.IsHeld candidates v := by
  intro hheld
  obtain ⟨hfound, hnot⟩ := mem_orphans_iff.1 hv
  exact hnot ⟨v, hfound, hheld, .refl v⟩

/-- What refers to an orphan is one, if what fields outside refer to is held. -/
theorem mem_orphans_of_mem_strongTargets (hheld : ∀ x ∈ m.found candidates,
    x ∈ m.referencesOutside (m.found candidates) → m.IsHeld candidates x) (hv : v ∈ m.orphans candidates)
    (hfield : v ∈ m.strongTargets r) : r ∈ m.orphans candidates := by
  obtain ⟨hfound, hnot⟩ := mem_orphans_iff.1 hv
  have hr : r ∈ m.found candidates := by
    by_contra hout
    exact not_isHeld_of_mem_orphans hv (hheld v hfound (mem_referencesOutside.2 ⟨r, hout, hfield⟩))
  refine mem_orphans_iff.2 ⟨hr, ?_⟩
  -- if it were kept, the orphan would be kept as well
  rintro ⟨g, hg, hgheld, hgr⟩
  refine hnot ⟨g, hg, hgheld, hgr.trans ?_⟩
  exact (unownedGraph_edge_iff.2 ⟨hfield, isUnowned_of_mem_orphans hv⟩).reaches

end Memory

namespace Balanced

open Memory

variable {s : Release} {outer extra : Multiset Ref} {candidates : List Ref}

/-- Fields outside of what was found refer to an object that is held. -/
theorem isHeld_iff (h : Balanced s outer extra) {x : Ref} (hx : x ∈ s.memory.found candidates) :
    s.memory.IsHeld candidates x ↔
      x ∈ extra ∨ x ∈ s.memory.referencesOutside (s.memory.found candidates) := by
  refine isHeld_iff_of_internal hx fun o ho => ?_
  obtain ⟨o', ho', hsym, -⟩ := isUnowned_iff.1 (isUnowned_of_mem_found hx)
  obtain rfl := Option.some.inj (ho.symm.trans ho')
  exact (h.symmetric x o ho hsym).2.2

/-- Orphans are referred to by orphans only. -/
theorem closed_orphans (h : Balanced s outer extra) (candidates : List Ref) :
    Closed s.memory outer extra (s.memory.orphans candidates) := by
  have hnodup : (s.memory.orphans candidates).Nodup :=
    (nodup_found s.memory candidates).filter _
  have hfound : ∀ {x}, x ∈ s.memory.orphans candidates → x ∈ s.memory.found candidates :=
    fun hx => (mem_orphans_iff.1 hx).1
  refine .of_not_mem hnodup (fun x hx => isLive_of_mem_found (hfound hx)) (fun x hx => ?_)
    (fun x hx hextra => ?_) fun x hx hout => ?_
  · obtain ⟨o, ho, hsym, hzero⟩ := isUnowned_iff.1 (isUnowned_of_mem_orphans hx)
    rw [← Multiset.count_eq_zero, ← (h.symmetric x o ho hsym).2.1, hzero]
    rfl
  · exact not_isHeld_of_mem_orphans hx ((h.isHeld_iff (hfound hx)).2 (.inl hextra))
  · obtain ⟨y, hy, hxy⟩ := mem_referencesOutside.1 hout
    exact hy (mem_orphans_of_mem_strongTargets (fun a ha hout => (h.isHeld_iff ha).2 (.inr hout)) hx hxy)

end Balanced

end Reclamation
