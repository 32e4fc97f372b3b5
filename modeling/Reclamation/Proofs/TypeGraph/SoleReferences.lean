import Mathlib
import Reclamation.Proofs.TypeGraph.Detection

/-!
# The only reference to a type

A name alone does not take the only reference to a type away from it: the second rule weakens a reference only
if it lies on a circle, and a reference on no circle is as strong as its annotation asks
(`sole_reference_weakened_iff`). On a circle it does take away also the only one. A leaf that refers back to its
tree has the only reference to the tree, and after detection no type owns trees any more.

A circle is a list of references each of which leads to the next (`IsCircle`). That a reference is on one says
in terms of paths that its target leads back to its owner (`exists_circle_iff`), which is what the rule asks.
-/

set_option autoImplicit false

namespace Reclamation.TypeGraph

variable {g : TypeGraph} {o : AnalysisOptions} {r : Reference} {id : FieldId}

/-! ## Circles and paths -/

/-- From one reference to another, if the target of the first leads to the owner of the second. -/
def LeadsOn (g : TypeGraph) (r s : Reference) : Prop :=
  s ∈ g.references ∧ r.target < g.size ∧ g.Leads r.target s.id.owner

theorem LeadsOn.trans {r s t : Reference} (hrs : g.LeadsOn r s) (hst : g.LeadsOn s t) : g.LeadsOn r t := by
  obtain ⟨hs, hlt, hleads⟩ := hrs
  obtain ⟨ht, hlt', hleads'⟩ := hst
  exact ⟨ht, hlt, hleads.trans ((leads_of_mem_references hs hlt').trans hleads')⟩

theorem leadsOn_of_target_eq {s : Reference} (hs : s ∈ g.references) (h : r.target = s.id.owner) :
    g.LeadsOn r s := by
  have howner := owner_lt_of_field? (mem_references.1 hs).1
  exact ⟨hs, h ▸ howner, h ▸ Leads.refl g _⟩

/-- Once around the circle. -/
theorem IsCircle.leadsOn {c : List Reference} (hc : g.IsCircle c) (hr : r ∈ c) : g.LeadsOn r r := by
  have hstep : (c ++ c.take 1).IsChain g.LeadsOn := by
    refine hc.closed.imp_of_mem_imp fun x y _ hy h => ?_
    have hy' : y ∈ c := (List.mem_append.1 hy).elim id List.mem_of_mem_take
    exact leadsOn_of_target_eq (hc.mem y hy') h
  have : Trans g.LeadsOn g.LeadsOn g.LeadsOn := ⟨LeadsOn.trans⟩
  have hpair := hstep.pairwise
  cases c with
  | nil => exact absurd hr List.not_mem_nil
  | cons a rest =>
    rw [List.take_succ_cons, List.take_zero, List.cons_append] at hpair
    obtain ⟨hfirst, hrest⟩ := List.pairwise_cons.1 hpair
    rcases List.mem_cons.1 hr with rfl | hr
    · exact hfirst r (by simp)
    · have hforth : g.LeadsOn a r := hfirst r (List.mem_append_left _ hr)
      have hback : g.LeadsOn r a := (List.pairwise_append.1 hrest).2.2 r hr a List.mem_cons_self
      exact hback.trans hforth

/-- A path is a chain of references. -/
theorem exists_chain_of_leads {u v : TypeId} (h : g.Leads u v) :
    ∃ c : List Reference, (∀ x ∈ c, x ∈ g.references) ∧ ∀ r s : Reference, r.target = u → s.id.owner = v →
      (r :: (c ++ [s])).IsChain fun x y => x.target = y.id.owner := by
  induction h with
  | refl u => exact ⟨[], by simp, fun r s hr hs => List.isChain_pair.2 (hr.trans hs.symm)⟩
  | step hedge _ ih =>
    obtain ⟨-, x, hx, -, rfl, rfl⟩ := referenceGraph_edge_iff.1 hedge
    obtain ⟨c, hmem, hchain⟩ := ih
    refine ⟨x :: c, List.forall_mem_cons.2 ⟨hx, hmem⟩, fun r s hr hs => ?_⟩
    exact List.isChain_cons_cons.2 ⟨hr, hchain x s rfl hs⟩

/-- A reference is on a circle exactly if its target leads back to its owner. -/
theorem exists_circle_iff : (∃ c, g.IsCircle c ∧ r ∈ c) ↔
    r ∈ g.references ∧ r.target < g.size ∧ g.Leads r.target r.id.owner := by
  constructor
  · rintro ⟨c, hc, hr⟩
    exact hc.leadsOn hr
  · rintro ⟨hr, -, hleads⟩
    obtain ⟨c, hmem, hchain⟩ := exists_chain_of_leads hleads
    exact ⟨r :: c, ⟨List.forall_mem_cons.2 ⟨hr, hmem⟩, hchain r r rfl rfl⟩, List.mem_cons_self⟩

/-! ## The second rule -/

/-- The second rule reads no strengths. -/
theorem mem_namedBackEdges_annotatedOnly : id ∈ g.annotatedOnly.namedBackEdges o ↔
    ∃ r ∈ g.references, r.id = id ∧ r.field.marking = none ∧ o.matchesWord r.field.name = true ∧
      ∃ c, g.IsCircle c ∧ r ∈ c := by
  have hsame := allStrong_annotatedOnly g
  have hsize := size_eq_of_allStrong hsame
  simp only [namedBackEdges, List.mem_map, List.mem_filter, Bool.and_eq_true, Option.isNone_iff_eq_none,
    leadsTo_iff, mem_references, field?_annotatedOnly, Option.map_eq_some_iff]
  constructor
  · rintro ⟨⟨_, _, target⟩, ⟨⟨⟨f, hf, rfl⟩, htype⟩, ⟨hmarking, hword⟩, hlt, hleads⟩, rfl⟩
    refine ⟨⟨_, f, target⟩, ⟨hf, htype⟩, rfl, hmarking, hword, exists_circle_iff.2 ⟨?_, ?_, ?_⟩⟩
    · exact mem_references.2 ⟨hf, htype⟩
    · exact hsize ▸ hlt
    · exact leads_of_allStrong hsame hleads
  · rintro ⟨⟨_, f, target⟩, ⟨hf, htype⟩, rfl, hmarking, hword, hcircle⟩
    obtain ⟨-, hlt, hleads⟩ := exists_circle_iff.1 hcircle
    exact ⟨⟨_, { f with strength := Marking.strength f.marking }, target⟩, ⟨⟨⟨f, hf, rfl⟩, htype⟩,
      ⟨hmarking, hword⟩, hsize.symm ▸ hlt, leads_of_allStrong hsame.symm hleads⟩, rfl⟩

theorem heuristic_mem_decided_iff (hr : r ∈ g.references) :
    (r.id, .heuristic) ∈ (g.detectBackEdges o).2.decided ↔
      r.field.marking = none ∧ o.matchesWord r.field.name = true ∧ ∃ c, g.IsCircle c ∧ r ∈ c := by
  have hdecided : (r.id, .heuristic) ∈ (g.detectBackEdges o).2.decided ↔
      r.id ∈ g.annotatedOnly.namedBackEdges o := by
    rw [decided_detectBackEdges]
    simp
  rw [hdecided, mem_namedBackEdges_annotatedOnly]
  constructor
  · rintro ⟨s, hs, hid, hrest⟩
    exact eq_of_id hs hr hid ▸ hrest
  · exact fun h => ⟨r, hr, rfl, h⟩

/-- What detection weakens without an annotation is on a circle. -/
theorem exists_circle_of_isWeak (hr : r ∈ g.references) {f : Field}
    (hf : (r.id, f) ∈ (g.detectBackEdges o).1.fields) (hweak : f.isWeak = true)
    (hmarking : r.field.marking ≠ some .weak) : ∃ c, g.IsCircle c ∧ r ∈ c := by
  have hback : g.LeadsBack r.id := by
    rcases isWeak_detectBackEdges_iff.1 ⟨f, hf, hweak⟩ with hid | hid | hid
    · obtain ⟨f', hf', hmarked⟩ := mem_annotatedWeak.1 hid
      rw [Option.some.inj ((mem_fields.1 hf').symm.trans (mem_references.1 hr).1)] at hmarked
      exact absurd hmarked hmarking
    · exact leadsBack_of_mem_namedBackEdges hid
    · exact (of_mem_closing hid).1
  obtain ⟨f', target, hf', -, htype, hlt, hleads⟩ := hback
  obtain ⟨hfield, htarget⟩ := mem_references.1 hr
  obtain rfl := Option.some.inj ((mem_fields.1 hf').symm.trans hfield)
  obtain rfl : target = r.target := by
    rw [htype] at htarget
    exact Option.some.inj htarget
  exact exists_circle_iff.2 ⟨hr, hlt, hleads⟩

/-! ## The only reference -/

/-- Whether no other field refers to the type that a reference refers to. -/
def IsSole (g : TypeGraph) (r : Reference) : Prop :=
  ∀ s ∈ g.references, s.target = r.target → s = r

/-- A type that no strong reference leads to is owned by no other. -/
theorem Owns.eq_of_unowned {u v : TypeId} (h : g.Owns v u)
    (hnone : ∀ s ∈ g.references, s.target = u → s.field.isWeak = true) : v = u := by
  induction h with
  | refl => rfl
  | step hedge _ ih =>
    obtain rfl := ih hnone
    obtain ⟨-, s, hs, hstrong, -, htarget⟩ := referenceGraph_edge_iff.1 hedge
    rw [hnone s hs htarget] at hstrong
    exact absurd hstrong (by decide)

/-- The only reference to a type is weakened for its name exactly if it has no annotation, a back-edge word in
its name, and lies on a circle. On no circle it stays as strong as its annotation asks. Where it is weakened no
other type owns its target in the end. -/
theorem sole_reference_weakened_iff (g : TypeGraph) (o : AnalysisOptions) (hr : r ∈ g.references)
    (hsole : g.IsSole r) :
    ((r.id, .heuristic) ∈ (g.detectBackEdges o).2.decided ↔
      r.field.marking = none ∧ o.matchesWord r.field.name = true ∧ ∃ c, g.IsCircle c ∧ r ∈ c) ∧
    ((¬ ∃ c, g.IsCircle c ∧ r ∈ c) → ∃ f, (r.id, f) ∈ (g.detectBackEdges o).1.fields ∧
      (f.isWeak = true ↔ r.field.marking = some .weak)) ∧
    ((r.id, .heuristic) ∈ (g.detectBackEdges o).2.decided →
      ∀ v, (g.detectBackEdges o).1.Owns v r.target → v = r.target) := by
  have hsame := g.allStrong_detectBackEdges o
  obtain ⟨hfield, htype⟩ := mem_references.1 hr
  obtain ⟨f, hf, -, -⟩ := exists_field_of_allStrong hsame.symm hfield
  refine ⟨heuristic_mem_decided_iff hr, fun hnone => ⟨f, mem_fields.2 hf, fun hweak => ?_, fun hmarking => ?_⟩,
    fun hnamed v howns => howns.eq_of_unowned fun s hs htarget => ?_⟩
  · by_contra hmarking
    exact hnone (exists_circle_of_isWeak hr (mem_fields.2 hf) hweak hmarking)
  · obtain ⟨f', hf', hweak⟩ := isWeak_detectBackEdges_iff.2
      (.inl (mem_annotatedWeak.2 ⟨r.field, mem_fields.2 hfield, hmarking⟩) : _ ∨ _ ∈ _ ∨ _ ∈ g.closing o)
    rwa [Option.some.inj (hf.symm.trans (mem_fields.1 hf'))]
  · -- a strong reference in the end was declared, so it is the one that was weakened
    obtain ⟨hsfield, hstype⟩ := mem_references.1 hs
    obtain ⟨f', hf', htarget', -⟩ := exists_field_of_allStrong hsame hsfield
    have hdeclared : (⟨s.id, f', s.target⟩ : Reference) ∈ g.references :=
      mem_references.2 ⟨hf', htarget' ▸ hstype⟩
    have hid : s.id = r.id := by rw [← hsole _ hdeclared htarget]
    have hweak : ∃ f, (r.id, f) ∈ (g.detectBackEdges o).1.fields ∧ f.isWeak = true := by
      refine isWeak_detectBackEdges_iff.2 (.inr (.inl ?_))
      exact mem_namedBackEdges_annotatedOnly.2 ⟨r, hr, rfl, (heuristic_mem_decided_iff hr).1 hnamed⟩
    obtain ⟨f'', hf'', hweak⟩ := hweak
    rw [← hid] at hf''
    rwa [Option.some.inj (hsfield.symm.trans (mem_fields.1 hf''))]

/-- A child that refers to its parent, which refers to nothing. -/
def orphanage : TypeGraph where
  nodes := #[{ name := "Child", fields := #[.declare "parent" (.type 1) none] }, { name := "Parent" }]

/-- The name alone does not weaken the only reference to the parent. -/
theorem sole_reference_weakened_orphanage :
    let r : Reference := ⟨⟨0, 0⟩, .declare "parent" (.type 1) none, 1⟩
    r ∈ orphanage.references ∧ orphanage.IsSole r ∧ r.field.marking = none ∧
      ({} : AnalysisOptions).matchesWord r.field.name = true ∧
      (r.id, .heuristic) ∉ (orphanage.detectBackEdges {}).2.decided ∧
      ∃ f, (r.id, f) ∈ (orphanage.detectBackEdges {}).1.fields ∧ f.isWeak = false := by
  intro r
  have hr : r ∈ orphanage.references := by decide
  have hsole : orphanage.IsSole r := by unfold IsSole; decide
  have hnone : ¬ ∃ c, orphanage.IsCircle c ∧ r ∈ c := by
    rintro hcircle
    obtain ⟨-, -, hleads⟩ := exists_circle_iff.1 hcircle
    have hout : (orphanage.referenceGraph fun _ => true).out 1 = [] := by decide
    cases hleads with
    | step hedge _ =>
      obtain ⟨-, e, he⟩ := hedge
      exact absurd (hout ▸ he) List.not_mem_nil
  obtain ⟨hnamed, hstrong, -⟩ := sole_reference_weakened_iff orphanage {} hr hsole
  obtain ⟨f, hf, hweak⟩ := hstrong hnone
  refine ⟨hr, hsole, rfl, by decide +kernel, fun h => hnone (hnamed.1 h).2.2, f, hf, ?_⟩
  exact Bool.eq_false_iff.2 fun h => absurd (hweak.1 h) (by decide)

/-- A tree with leaves that refer back to it. -/
def tree : TypeGraph where
  nodes := #[{ name := "Tree", fields := #[.declare "child" (.type 1) none] },
    { name := "Leaf", fields := #[.declare "parent" (.type 0) none] }]

/-- The only reference to the tree is weakened for its name. -/
theorem sole_parent_weakened :
    (⟨1, 0⟩, .heuristic) ∈ (tree.detectBackEdges { structural := false }).2.decided ∧
      tree.field? ⟨1, 0⟩ = some (.declare "parent" (.type 0) none) ∧
      ∀ s ∈ tree.references, s.target = 0 → s.id = ⟨1, 0⟩ := by
  let child : Reference := ⟨⟨0, 0⟩, .declare "child" (.type 1) none, 1⟩
  let parent : Reference := ⟨⟨1, 0⟩, .declare "parent" (.type 0) none, 0⟩
  have hcircle : tree.IsCircle [parent, child] := by
    refine ⟨by decide, ?_⟩
    show List.IsChain _ [_, _, _]
    decide
  refine ⟨(heuristic_mem_decided_iff (r := parent) (by decide)).2 ⟨rfl, by decide +kernel, _, hcircle, ?_⟩,
    by decide, by decide⟩
  exact List.mem_cons_self

end Reclamation.TypeGraph
