import Mathlib
import Reclamation.Proofs.Memory.Exactness

/-!
# What the search for orphans finds

The search looks at a part of memory only: at the suspects, which are the candidates that the program does not refer
to and what can be reached from them through objects of that kind. Counting tells it which suspects others refer to.
If the symmetric objects have their counts of fields right then this local search says something about all of memory:
an orphan is a suspect that cannot be reached, among the suspects, from one that others refer to. So no field but
those of orphans refers to an orphan, and no object that the search does not look at leads to one (`orphans_exact`).
-/

set_option autoImplicit false

namespace Reclamation

namespace Memory

variable {m : Memory} {candidates : List Ref} {x y v : Ref}

/-- Every symmetric object has the number of strong fields that refer to it. -/
def FieldsCounted (m : Memory) : Prop :=
  ∀ r o, m.object? r = some o → o.symmetric = true → o.internal.toNat = m.references.count r

/-- The counts of fields are right as long as no reference of one is still to be given up. -/
theorem FieldsCounted.of_balanced {s : Release} {outer : Multiset Ref} (h : Balanced s outer 0) :
    s.memory.FieldsCounted := by
  intro r o ho hsym
  have hinternal := (h.symmetric r o ho hsym).2.2
  rwa [zero_add] at hinternal

/-- One of the candidates, or behind one, and neither the object nor any on the way is one that the program refers
to. -/
inductive Suspected (m : Memory) (candidates : List Ref) : Ref → Prop
  | candidate {c : Ref} : c ∈ candidates → m.isUnowned c = true → Suspected m candidates c
  | field {x y : Ref} : Suspected m candidates x → m.Refers x y → m.isUnowned y = true → Suspected m candidates y

/-- A suspect that a field refers to whose holder is none. -/
def HeldByOthers (m : Memory) (candidates : List Ref) (x : Ref) : Prop :=
  m.Suspected candidates x ∧ ∃ y, ¬ m.Suspected candidates y ∧ m.Refers y x

/-- One can get from one object to the other through suspects. -/
def ReachesAmong (m : Memory) (candidates : List Ref) : Ref → Ref → Prop :=
  Relation.ReflTransGen fun x y => m.Refers x y ∧ m.Suspected candidates y

theorem Suspected.isUnowned (h : m.Suspected candidates x) : m.isUnowned x = true := by
  cases h with
  | candidate _ hun => exact hun
  | field _ _ hun => exact hun

theorem Suspected.of_reaches (h : m.unownedGraph.Reaches x y) (hx : m.Suspected candidates x) :
    m.Suspected candidates y := by
  induction h with
  | refl => exact hx
  | step hedge _ ih =>
    obtain ⟨hfield, hun⟩ := unownedGraph_edge_iff.1 hedge
    exact ih (hx.field hfield hun)

/-- The first walk finds the suspects. -/
theorem mem_found_iff_suspected : v ∈ m.found candidates ↔ m.Suspected candidates v := by
  constructor
  · intro hv
    obtain ⟨c, hc, hun, hreach⟩ := mem_found_iff.1 hv
    exact .of_reaches hreach (.candidate hc hun)
  · intro hv
    induction hv with
    | candidate hc hun => exact mem_found_iff.2 ⟨_, hc, hun, .refl _⟩
    | field _ hfield hun ih => exact mem_found_of_edge ih hfield hun

/-- The second walk stays among the suspects. -/
theorem reachesAmong_iff (hx : m.Suspected candidates x) :
    m.ReachesAmong candidates x v ↔ m.unownedGraph.Reaches x v := by
  constructor
  · intro h
    induction h with
    | refl => exact .refl x
    | tail _ hstep ih =>
      obtain ⟨hfield, hsuspected⟩ := hstep
      exact ih.trans (unownedGraph_edge_iff.2 ⟨hfield, hsuspected.isUnowned⟩).reaches
  · intro h
    induction h with
    | refl => exact .refl
    | step hedge _ ih =>
      obtain ⟨hfield, hun⟩ := unownedGraph_edge_iff.1 hedge
      have hnext := hx.field hfield hun
      exact .head ⟨hfield, hnext⟩ (ih hnext)

/-- Counting tells whether others refer to a suspect. -/
theorem FieldsCounted.isHeld_iff (h : m.FieldsCounted) (hx : m.Suspected candidates x) :
    m.IsHeld candidates x ↔ m.HeldByOthers candidates x := by
  have hinternal : ∀ o, m.object? x = some o → o.internal.toNat = (0 + m.references).count x := by
    intro o ho
    obtain ⟨o', ho', hsym, -⟩ := isUnowned_iff.1 hx.isUnowned
    obtain rfl := Option.some.inj (ho.symm.trans ho')
    rw [zero_add]
    exact h x o ho hsym
  rw [isHeld_iff_of_internal (mem_found_iff_suspected.2 hx) hinternal, mem_referencesOutside]
  simp only [Multiset.notMem_zero, false_or, mem_found_iff_suspected]
  constructor
  · intro hout
    exact ⟨hx, hout⟩
  · intro hheld
    exact hheld.2

theorem FieldsCounted.mem_orphans_iff (h : m.FieldsCounted) : v ∈ m.orphans candidates ↔
    m.Suspected candidates v ∧ ¬ ∃ g, m.HeldByOthers candidates g ∧ m.ReachesAmong candidates g v := by
  rw [Memory.mem_orphans_iff, mem_found_iff_suspected]
  refine and_congr_right fun _ => not_congr ?_
  constructor
  · rintro ⟨g, hg, hheld, hgv⟩
    rw [mem_found_iff_suspected] at hg
    exact ⟨g, (h.isHeld_iff hg).1 hheld, (reachesAmong_iff hg).2 hgv⟩
  · rintro ⟨g, hheld, hgv⟩
    have hg := hheld.1
    exact ⟨g, mem_found_iff_suspected.2 hg, (h.isHeld_iff hg).2 hheld, (reachesAmong_iff hg).1 hgv⟩

/-- Only orphans refer to orphans. -/
theorem FieldsCounted.mem_orphans_of_refers (h : m.FieldsCounted) (hv : v ∈ m.orphans candidates)
    (hfield : m.Refers x v) : x ∈ m.orphans candidates := by
  refine mem_orphans_of_mem_strongTargets (fun a ha hout => ?_) hv hfield
  obtain ⟨y, hy, hya⟩ := mem_referencesOutside.1 hout
  rw [mem_found_iff_suspected] at ha hy
  exact (h.isHeld_iff ha).2 ⟨ha, y, hy, hya⟩

theorem FieldsCounted.mem_orphans_of_reaches (h : m.FieldsCounted) (hv : v ∈ m.orphans candidates)
    (hreach : m.Reaches x v) : x ∈ m.orphans candidates := by
  induction hreach using Relation.ReflTransGen.head_induction_on with
  | refl => exact hv
  | head hfield _ ih => exact h.mem_orphans_of_refers ih hfield

/-- Memory in which every symmetric object has the number of strong fields that refer to it, and any candidates.

The search returns each orphan once: the suspects that cannot be reached, through suspects, from one that others refer
to. An object that is not symmetric, or to which the program refers, leads to none of them, and every strong field
that refers to one belongs to one. -/
theorem orphans_exact {m : Memory} (h : m.FieldsCounted) (candidates : List Ref) :
    (m.orphans candidates).Nodup ∧
    (∀ v, v ∈ m.orphans candidates ↔ m.Suspected candidates v ∧
      ¬ ∃ g, m.HeldByOthers candidates g ∧ m.ReachesAmong candidates g v) ∧
    (∀ v ∈ m.orphans candidates, ∀ x o, m.object? x = some o → o.symmetric = false ∨ o.count ≠ 0 →
      ¬ m.Reaches x v) ∧
    ∀ v ∈ m.orphans candidates, ∀ x, m.Refers x v → x ∈ m.orphans candidates := by
  refine ⟨(nodup_found m candidates).filter _, fun v => h.mem_orphans_iff, fun v hv x o ho hother hreach => ?_,
    fun v hv x hfield => h.mem_orphans_of_refers hv hfield⟩
  obtain ⟨o', ho', hsym, hcount⟩ := isUnowned_iff.1 (isUnowned_of_mem_orphans (h.mem_orphans_of_reaches hv hreach))
  obtain rfl := Option.some.inj (ho.symm.trans ho')
  rcases hother with hplain | howned
  · rw [hsym] at hplain
    exact absurd hplain (by decide)
  · exact howned hcount

/-- Two symmetric objects that refer to each other, and a third to which a plain object refers. -/
def besideHeld : Memory :=
  let record (target : Ref) : Payload := .record [{ weak := false, target := some target }]
  { Memory.ofConfig {} 0 with
    cells := #[some { tag := 0, symmetric := true, payload := record 1, count := 0, internal := 1 },
      some { tag := 0, symmetric := true, payload := record 0, count := 0, internal := 1 },
      some { tag := 0, payload := record 3 },
      some { tag := 0, symmetric := true, count := 0, internal := 1 }] }

theorem refers_besideHeld (h : besideHeld.Refers x y) : (x = 0 ∧ y = 1) ∨ (x = 1 ∧ y = 0) ∨ (x = 2 ∧ y = 3) := by
  have hx : x < 4 := lt_size_of_isLive (isLive_of_mem_strongTargets h)
  unfold Refers at h
  interval_cases x
  · exact .inl ⟨rfl, List.mem_singleton.1 h⟩
  · exact .inr (.inl ⟨rfl, List.mem_singleton.1 h⟩)
  · exact .inr (.inr ⟨rfl, List.mem_singleton.1 h⟩)
  · exact absurd h List.not_mem_nil

theorem fieldsCounted_besideHeld : besideHeld.FieldsCounted := by
  intro r o ho hsym
  have hr : r < 4 := lt_size_of_isLive (isLive_of_object? ho)
  interval_cases r
  all_goals
    obtain rfl := Option.some.inj ho
    first
      | exact absurd hsym (by decide)
      | decide +kernel

/-- The two are orphans and the third is not, although they and the third are candidates. -/
theorem orphans_exact_besideHeld : besideHeld.FieldsCounted ∧ 0 ∈ besideHeld.orphans [0, 3, 0] ∧
    1 ∈ besideHeld.orphans [0, 3, 0] ∧ 3 ∉ besideHeld.orphans [0, 3, 0] := by
  obtain ⟨-, hmem, hnone, hclosed⟩ := orphans_exact fieldsCounted_besideHeld [0, 3, 0]
  have hrefers : besideHeld.Refers 0 1 ∧ besideHeld.Refers 1 0 ∧ besideHeld.Refers 2 3 := by
    unfold Refers
    decide
  have hzero : besideHeld.Suspected [0, 3, 0] 0 := .candidate (by decide) (by decide)
  have hone : besideHeld.Suspected [0, 3, 0] 1 := hzero.field hrefers.1 (by decide)
  -- only the third is held by others, and it refers to nothing
  have hthird : ∀ g v, besideHeld.HeldByOthers [0, 3, 0] g → besideHeld.ReachesAmong [0, 3, 0] g v → v = 3 := by
    rintro g v ⟨-, y, hy, hyg⟩ hgv
    rcases refers_besideHeld hyg with ⟨rfl, -⟩ | ⟨rfl, -⟩ | ⟨-, rfl⟩
    · exact absurd hzero hy
    · exact absurd hone hy
    · rcases hgv.cases_head with rfl | ⟨z, ⟨hz, -⟩, -⟩
      · rfl
      · exact absurd (refers_besideHeld hz) (by simp)
  have horphan : 0 ∈ besideHeld.orphans [0, 3, 0] := by
    refine (hmem 0).2 ⟨hzero, ?_⟩
    rintro ⟨g, hheld, hreach⟩
    exact absurd (hthird g 0 hheld hreach) (by decide)
  refine ⟨fieldsCounted_besideHeld, horphan, hclosed 0 horphan 1 hrefers.2.1, fun hmem => ?_⟩
  exact hnone 3 hmem 2 _ rfl (.inl rfl) (.single hrefers.2.2)

end Memory

end Reclamation
