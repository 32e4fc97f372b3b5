import Mathlib
import Reclamation.Proofs.TypeGraph.Paths

/-!
# What detection decides

Detection starts over from the annotations, so it does not see the strengths that it finds, and a second run
decides as the first did. Its report and the strengths it leaves agree field by field: the three rules
decide different fields, a field that none of them decides stays strong, and what the second and the third
decide is never annotated and closes a cycle (`detection_exact`).

The third rule takes from no type the first of its owners (`first_owner_kept`). The walk enters a type behind the
first one that reaches it, along references that it does not report, and these are not weakened.
-/

set_option autoImplicit false

namespace Reclamation.TypeGraph

variable {g g' : TypeGraph} {o : AnalysisOptions}

/-! ## Leaving strengths out of account -/

/-- The graph with every field strong. Two graphs differ only in strengths if this makes them equal. -/
def allStrong (g : TypeGraph) : TypeGraph :=
  { nodes := g.nodes.map fun n => { n with fields := n.fields.map ({ · with strength := .strong }) } }

/-- A change that a function does not see is not seen by mapping it. -/
theorem map_modify_of_eq {α β : Type} {xs : Array α} {i : Nat} {change : α → α} {view : α → β}
    (h : ∀ x, view (change x) = view x) : (xs.modify i change).map view = xs.map view := by
  refine Array.ext_getElem? fun j => ?_
  rw [Array.getElem?_map, Array.getElem?_map, Array.getElem?_modify]
  split
  · rw [Option.map_map]
    exact Option.map_congr fun x _ => h x
  · rfl

theorem size_allStrong (g : TypeGraph) : g.allStrong.size = g.size := by
  simp [allStrong, size]

theorem field?_allStrong (g : TypeGraph) (id : FieldId) :
    g.allStrong.field? id = (g.field? id).map ({ · with strength := .strong }) := by
  simp only [field?, allStrong, Array.getElem?_map]
  cases g.nodes[id.owner]? with
  | none => rfl
  | some n => simp [Array.getElem?_map]

theorem annotatedOnly_allStrong (g : TypeGraph) : g.allStrong.annotatedOnly = g.annotatedOnly := by
  simp [annotatedOnly, allStrong, Function.comp_def]

theorem allStrong_annotatedOnly (g : TypeGraph) : g.annotatedOnly.allStrong = g.allStrong := by
  simp [annotatedOnly, allStrong, Function.comp_def]

theorem allStrong_modifyField (g : TypeGraph) (id : FieldId) (s : Strength) :
    (g.modifyField id ({ · with strength := s })).allStrong = g.allStrong := by
  simp only [allStrong, modifyField]
  rw [map_modify_of_eq fun n => ?_]
  dsimp only
  rw [map_modify_of_eq fun f => ?_]
  rfl

theorem allStrong_weaken (ids : List FieldId) (g : TypeGraph) : (g.weaken ids).allStrong = g.allStrong := by
  unfold weaken
  induction ids generalizing g with
  | nil => rfl
  | cons id rest ih =>
    rw [List.foldl_cons, ih, allStrong_modifyField]

theorem allStrong_namedWeak (g : TypeGraph) (o : AnalysisOptions) : (g.namedWeak o).allStrong = g.allStrong := by
  rw [namedWeak, allStrong_weaken, allStrong_annotatedOnly]

section SameDeclarations

variable (h : g.allStrong = g'.allStrong)

include h

theorem size_eq_of_allStrong : g.size = g'.size := by
  rw [← size_allStrong, h, size_allStrong]

/-- The same field in the other graph. -/
theorem exists_field_of_allStrong {id : FieldId} {f : Field} (hf : g.field? id = some f) :
    ∃ f', g'.field? id = some f' ∧ f'.target = f.target ∧ f'.marking = f.marking := by
  have hall := g'.field?_allStrong id
  rw [← h, field?_allStrong, hf, Option.map_some] at hall
  obtain ⟨f', hf', heq⟩ := Option.map_eq_some_iff.1 hall.symm
  obtain ⟨-, htarget, -, hmarking⟩ := Field.mk.inj heq
  exact ⟨f', hf', htarget, hmarking⟩

theorem leads_of_allStrong {u v : TypeId} (huv : g.Leads u v) : g'.Leads u v := by
  refine huv.imp fun u v hedge => ?_
  obtain ⟨hlt, r, hr, -, rfl, rfl⟩ := referenceGraph_edge_iff.1 hedge
  obtain ⟨hf, htype⟩ := mem_references.1 hr
  obtain ⟨f', hf', htarget, -⟩ := exists_field_of_allStrong h hf
  refine referenceGraph_edge_iff.2 ⟨size_eq_of_allStrong h ▸ hlt, ⟨r.id, f', r.target⟩, ?_, rfl, rfl, rfl⟩
  exact mem_references.2 ⟨hf', htarget ▸ htype⟩

theorem detectBackEdges_congr (o : AnalysisOptions) : g.detectBackEdges o = g'.detectBackEdges o := by
  have hannotated : g.annotatedOnly = g'.annotatedOnly := by
    rw [← annotatedOnly_allStrong, h, annotatedOnly_allStrong]
  simp only [detectBackEdges, hannotated]

end SameDeclarations

/-! ## The three rules -/

/-- The fields that the third rule decides. -/
def closing (g : TypeGraph) (o : AnalysisOptions) : List FieldId :=
  if o.structural then (g.namedWeak o).structuralBackEdges else []

theorem detectBackEdges_fst (g : TypeGraph) (o : AnalysisOptions) :
    (g.detectBackEdges o).1 = (g.namedWeak o).weaken (g.closing o) :=
  rfl

theorem decided_detectBackEdges (g : TypeGraph) (o : AnalysisOptions) :
    (g.detectBackEdges o).2.decided = g.annotatedOnly.annotatedWeak.map (·, .annotated) ++
      (g.annotatedOnly.namedBackEdges o).map (·, .heuristic) ++ (g.closing o).map (·, .structural) :=
  rfl

theorem map_fst_decided (g : TypeGraph) (o : AnalysisOptions) : (g.detectBackEdges o).2.decided.map (·.1) =
    g.annotatedOnly.annotatedWeak ++ g.annotatedOnly.namedBackEdges o ++ g.closing o := by
  simp [decided_detectBackEdges, Function.comp_def]

theorem allStrong_detectBackEdges (g : TypeGraph) (o : AnalysisOptions) :
    (g.detectBackEdges o).1.allStrong = g.allStrong := by
  rw [detectBackEdges_fst, allStrong_weaken, allStrong_namedWeak]

/-- An unannotated reference to a declared type that leads back to the owner of the reference. -/
def LeadsBack (g : TypeGraph) (id : FieldId) : Prop :=
  ∃ f target, (id, f) ∈ g.fields ∧ f.marking = none ∧ f.target = .type target ∧ target < g.size ∧
    g.Leads target id.owner

/-- A reference of a graph that differs only in strengths leads back in both. -/
theorem LeadsBack.of_mem_references (h : g.allStrong = g'.allStrong) {r : Reference} (hr : r ∈ g.references)
    (hmarking : r.field.marking = none) (hlt : r.target < g.size) (hback : g.Leads r.target r.id.owner) :
    g'.LeadsBack r.id := by
  obtain ⟨hf, htype⟩ := mem_references.1 hr
  obtain ⟨f', hf', htarget, hmarking'⟩ := exists_field_of_allStrong h hf
  refine ⟨f', r.target, mem_fields.2 hf', hmarking'.trans hmarking, ?_, size_eq_of_allStrong h ▸ hlt,
    leads_of_allStrong h hback⟩
  exact htarget.trans (FieldTarget.eq_type_of_type? htype)

theorem mem_annotatedWeak {id : FieldId} :
    id ∈ g.annotatedOnly.annotatedWeak ↔ ∃ f, (id, f) ∈ g.fields ∧ f.marking = some .weak := by
  simp only [annotatedWeak, List.mem_map, List.mem_filter, Prod.exists, exists_and_right, exists_eq_right,
    beq_iff_eq, mem_fields, field?_annotatedOnly, Option.map_eq_some_iff]
  constructor
  · rintro ⟨_, ⟨f, hf, rfl⟩, hweak⟩
    exact ⟨f, hf, hweak⟩
  · rintro ⟨f, hf, hweak⟩
    exact ⟨_, ⟨f, hf, rfl⟩, hweak⟩

theorem nodup_annotatedWeak (g : TypeGraph) : g.annotatedWeak.Nodup :=
  g.nodup_fields.sublist (List.filter_sublist.map _)

theorem nodup_namedBackEdges (g : TypeGraph) (o : AnalysisOptions) : (g.namedBackEdges o).Nodup :=
  g.nodup_references.sublist (List.filter_sublist.map _)

theorem leadsBack_of_mem_namedBackEdges {id : FieldId} (hid : id ∈ g.annotatedOnly.namedBackEdges o) :
    g.LeadsBack id := by
  obtain ⟨r, hr, rfl⟩ := List.mem_map.1 hid
  obtain ⟨hmem, hrule⟩ := List.mem_filter.1 hr
  simp only [Bool.and_eq_true, Option.isNone_iff_eq_none, leadsTo_iff] at hrule
  obtain ⟨⟨hmarking, -⟩, hlt, hback⟩ := hrule
  exact .of_mem_references (allStrong_annotatedOnly g) hmem hmarking hlt hback

theorem mem_structuralBackEdges {id : FieldId} : id ∈ g.structuralBackEdges ↔
    ∃ r ∈ g.strongGraph.backEdges (List.range g.size), r.field.marking = none ∧ r.id = id := by
  show id ∈ ((g.strongGraph.backEdges (List.range g.size)).filter (·.field.marking.isNone)).map (·.id) ↔ _
  simp [and_assoc]

/-- The walk reports strong references of types to others, and these close cycles. -/
theorem closes_of_mem_backEdges {r : Reference} (hr : r ∈ g.strongGraph.backEdges (List.range g.size)) :
    r ∈ g.references ∧ r.field.isWeak = false ∧ r.target < g.size ∧ g.Leads r.target r.id.owner := by
  obtain ⟨u, v, hout, hlt, hback⟩ := Digraph.reaches_of_mem_backEdges hr
  obtain ⟨hmem, rfl, rfl, hfollow⟩ := mem_referenceGraph_out.1 hout
  simp only [Bool.and_eq_true, Bool.not_eq_true'] at hfollow
  exact ⟨hmem, hfollow.1, hlt, (strongGraph_reaches_iff.1 hback).leads⟩

theorem nodup_structuralBackEdges (g : TypeGraph) : g.structuralBackEdges.Nodup := by
  have hnodup : (g.strongGraph.backEdges (List.range g.size)).Nodup :=
    Digraph.backEdges_nodup (g.labelled_referenceGraph _)
  refine (hnodup.filter _).map_on fun r hr s hs h => ?_
  exact eq_of_id (closes_of_mem_backEdges (List.mem_filter.1 hr).1).1
    (closes_of_mem_backEdges (List.mem_filter.1 hs).1).1 h

theorem nodup_closing (g : TypeGraph) (o : AnalysisOptions) : (g.closing o).Nodup := by
  unfold closing
  split
  · exact nodup_structuralBackEdges _
  · exact List.nodup_nil

/-- The third rule decides fields that are strong until then, and these lead back. -/
theorem of_mem_closing {id : FieldId} (hid : id ∈ g.closing o) :
    g.LeadsBack id ∧ ∃ f, (g.namedWeak o).field? id = some f ∧ f.isWeak = false := by
  unfold closing at hid
  split at hid
  · obtain ⟨r, hr, hmarking, rfl⟩ := mem_structuralBackEdges.1 hid
    obtain ⟨hmem, hstrong, hlt, hback⟩ := closes_of_mem_backEdges hr
    exact ⟨.of_mem_references (g.allStrong_namedWeak o) hmem hmarking hlt hback, r.field,
      (mem_references.1 hmem).1, hstrong⟩
  · exact absurd hid List.not_mem_nil

/-! ## What is weak in the end -/

/-- A field is weak after the first two rules if its annotation asks for it or the second decides it. -/
theorem isWeak_namedWeak_iff {id : FieldId} : (∃ f, (g.namedWeak o).field? id = some f ∧ f.isWeak = true) ↔
    id ∈ g.annotatedOnly.annotatedWeak ∨ id ∈ g.annotatedOnly.namedBackEdges o := by
  have hstrength : ∀ f : Field, ({ f with strength := Marking.strength f.marking } : Field).isWeak = true ↔
      f.marking = some .weak := by
    intro f
    cases hm : f.marking with
    | none => simp [Field.isWeak, Marking.strength]
    | some m => cases m <;> simp [Field.isWeak, Marking.strength]
  simp only [namedWeak, field?_weaken, field?_annotatedOnly, Option.map_map, Option.map_eq_some_iff,
    Function.comp_apply, mem_annotatedWeak, mem_fields]
  constructor
  · rintro ⟨_, ⟨f, hf, rfl⟩, hweak⟩
    rcases isWeak_weakened.1 hweak with hid | hweak
    · exact .inr hid
    · exact .inl ⟨f, hf, (hstrength f).1 hweak⟩
  · rintro (⟨f, hf, hweak⟩ | hid)
    · exact ⟨_, ⟨f, hf, rfl⟩, isWeak_weakened.2 (.inr ((hstrength f).2 hweak))⟩
    · obtain ⟨f, -, hf, -⟩ := leadsBack_of_mem_namedBackEdges hid
      exact ⟨_, ⟨f, mem_fields.1 hf, rfl⟩, isWeak_weakened.2 (.inl hid)⟩

theorem isWeak_detectBackEdges_iff {id : FieldId} :
    (∃ f, (id, f) ∈ (g.detectBackEdges o).1.fields ∧ f.isWeak = true) ↔
      id ∈ g.annotatedOnly.annotatedWeak ∨ id ∈ g.annotatedOnly.namedBackEdges o ∨ id ∈ g.closing o := by
  rw [← or_assoc, ← isWeak_namedWeak_iff, detectBackEdges_fst]
  simp only [mem_fields, field?_weaken, Option.map_eq_some_iff]
  constructor
  · rintro ⟨_, ⟨f, hf, rfl⟩, hweak⟩
    rcases isWeak_weakened.1 hweak with hid | hweak
    · exact .inr hid
    · exact .inl ⟨f, hf, hweak⟩
  · rintro (⟨f, hf, hweak⟩ | hid)
    · exact ⟨_, ⟨f, hf, rfl⟩, isWeak_weakened.2 (.inr hweak)⟩
    · obtain ⟨-, f, hf, -⟩ := of_mem_closing hid
      exact ⟨_, ⟨f, hf, rfl⟩, isWeak_weakened.2 (.inl hid)⟩

/-- An annotated field is not one of those that lead back. -/
theorem LeadsBack.marking_eq {id : FieldId} {f : Field} (h : g.LeadsBack id) (hf : (id, f) ∈ g.fields) :
    f.marking = none := by
  obtain ⟨f', -, hf', hmarking, -⟩ := h
  have heq : f' = f := Option.some.inj ((mem_fields.1 hf').symm.trans (mem_fields.1 hf))
  rw [← heq, hmarking]

theorem nodup_decided (g : TypeGraph) (o : AnalysisOptions) :
    ((g.detectBackEdges o).2.decided.map (·.1)).Nodup := by
  have hunmarked : ∀ {id}, id ∈ g.annotatedOnly.annotatedWeak → ¬ g.LeadsBack id := by
    intro id hid hback
    obtain ⟨f, hf, hweak⟩ := mem_annotatedWeak.1 hid
    rw [hback.marking_eq hf] at hweak
    exact absurd hweak (by simp)
  rw [map_fst_decided]
  refine List.nodup_append'.2 ⟨List.nodup_append'.2 ⟨nodup_annotatedWeak _, nodup_namedBackEdges _ _, ?_⟩,
    nodup_closing g o, ?_⟩
  · intro id hid hnamed
    exact hunmarked hid (leadsBack_of_mem_namedBackEdges hnamed)
  · intro id hid hclosing
    -- what the rules before have decided is weak on the walk
    obtain ⟨-, f, hf, hstrong⟩ := of_mem_closing hclosing
    obtain ⟨f', hf', hweak⟩ := isWeak_namedWeak_iff.2 (List.mem_append.1 hid)
    rw [Option.some.inj (hf.symm.trans hf'), hweak] at hstrong
    exact absurd hstrong (by simp)

/-- What an annotation keeps strong is not weak in the end. -/
theorem isWeak_eq_false_of_strong {id : FieldId} {f : Field} (hf : (id, f) ∈ (g.detectBackEdges o).1.fields)
    (hstrong : f.marking = some .strong) : f.isWeak = false := by
  obtain ⟨f', hf', -, hmarking⟩ :=
    exists_field_of_allStrong (g.allStrong_detectBackEdges o) (mem_fields.1 hf)
  rw [hstrong] at hmarking
  have hback : ¬ g.LeadsBack id := by
    intro hback
    rw [hback.marking_eq (mem_fields.2 hf')] at hmarking
    exact absurd hmarking (by simp)
  by_contra hweak
  rw [Bool.not_eq_false] at hweak
  rcases isWeak_detectBackEdges_iff.1 ⟨f, hf, hweak⟩ with hid | hid | hid
  · obtain ⟨f'', hf'', hmarked⟩ := mem_annotatedWeak.1 hid
    rw [Option.some.inj ((mem_fields.1 hf'').symm.trans hf'), hmarking] at hmarked
    exact absurd hmarked (by simp)
  · exact hback (leadsBack_of_mem_namedBackEdges hid)
  · exact hback (of_mem_closing hid).1

theorem leadsBack_of_mem_decided {id : FieldId} {reason : WeakReason}
    (hid : (id, reason) ∈ (g.detectBackEdges o).2.decided) (hreason : reason ≠ .annotated) :
    g.LeadsBack id := by
  rw [decided_detectBackEdges] at hid
  simp only [List.mem_append, List.mem_map, Prod.mk.injEq] at hid
  rcases hid with (⟨_, -, -, rfl⟩ | ⟨_, hid, rfl, -⟩) | ⟨_, hid, rfl, -⟩
  · exact absurd rfl hreason
  · exact leadsBack_of_mem_namedBackEdges hid
  · exact (of_mem_closing hid).1

/-! ## The report -/

/-- Detection goes by the declarations alone, and by nothing that a run of it changes. What it reports are the
fields that are weak in the end, each once: those annotated as weak for their annotation, the others without
any annotation and closing a cycle. -/
theorem detection_exact (o : AnalysisOptions) :
    (∀ g g' : TypeGraph, g.allStrong = g'.allStrong → g.detectBackEdges o = g'.detectBackEdges o) ∧
    ∀ g : TypeGraph,
      (g.detectBackEdges o).1.detectBackEdges o = g.detectBackEdges o ∧
      ((g.detectBackEdges o).2.decided.map (·.1)).Nodup ∧
      (∀ id, id ∈ (g.detectBackEdges o).2.decided.map (·.1) ↔
        ∃ f, (id, f) ∈ (g.detectBackEdges o).1.fields ∧ f.isWeak = true) ∧
      (∀ id, (id, .annotated) ∈ (g.detectBackEdges o).2.decided ↔
        ∃ f, (id, f) ∈ g.fields ∧ f.marking = some .weak) ∧
      (∀ id f, (id, f) ∈ (g.detectBackEdges o).1.fields → f.marking = some .strong → f.isWeak = false) ∧
      ∀ id reason, (id, reason) ∈ (g.detectBackEdges o).2.decided → reason ≠ .annotated → g.LeadsBack id := by
  refine ⟨fun g g' h => detectBackEdges_congr h o, fun g => ⟨?_, nodup_decided g o, fun id => ?_, fun id => ?_,
    fun _ _ => isWeak_eq_false_of_strong, fun _ _ => leadsBack_of_mem_decided⟩⟩
  · exact detectBackEdges_congr (g.allStrong_detectBackEdges o) o
  · rw [map_fst_decided, isWeak_detectBackEdges_iff]
    simp only [List.mem_append, or_assoc]
  · rw [← mem_annotatedWeak, decided_detectBackEdges]
    simp

/-- A parent that keeps its child by annotation, and the child with a reference back by name. -/
def family : TypeGraph where
  nodes := #[{ name := "Parent", fields := #[.declare "child" (.type 1) (some .strong)] },
    { name := "Child", fields := #[.declare "parent" (.type 0) none] }]

/-- Detection does not see that the reference to the parent was found weak. It makes it weak for its name, and
leaves the other reference strong. -/
theorem detection_exact_family : family.allStrong = (family.weaken [⟨1, 0⟩]).allStrong ∧
    (family.weaken [⟨1, 0⟩]).detectBackEdges {} = family.detectBackEdges {} ∧
    (⟨1, 0⟩, .heuristic) ∈ (family.detectBackEdges {}).2.decided ∧ family.LeadsBack ⟨1, 0⟩ ∧
    ∃ f, (⟨0, 0⟩, f) ∈ (family.detectBackEdges {}).1.fields ∧ f.marking = some .strong ∧ f.isWeak = false := by
  have hsame : family.allStrong = (family.weaken [⟨1, 0⟩]).allStrong := (allStrong_weaken ..).symm
  have hannotated : family.annotatedOnly = family := by
    simp [annotatedOnly, family, Field.declare, Marking.strength]
  have hchild : family.Leads 0 1 :=
    leads_of_mem_references (r := ⟨⟨0, 0⟩, .declare "child" (.type 1) (some .strong), 1⟩) (by decide) (by decide)
  have hnamed : (⟨1, 0⟩, .heuristic) ∈ (family.detectBackEdges {}).2.decided := by
    rw [decided_detectBackEdges, hannotated]
    refine List.mem_append_left _ (List.mem_append_right _ (List.mem_map_of_mem ?_))
    refine List.mem_map.2 ⟨⟨⟨1, 0⟩, .declare "parent" (.type 0) none, 0⟩, List.mem_filter.2 ⟨by decide, ?_⟩, rfl⟩
    have hword : ({} : AnalysisOptions).matchesWord "parent" = true := by decide +kernel
    have hback : family.leadsTo 0 1 = true := leadsTo_iff.2 ⟨by decide, hchild⟩
    exact Bool.and_eq_true_iff.2 ⟨Bool.and_eq_true_iff.2 ⟨rfl, hword⟩, hback⟩
  have hkept : family.field? ⟨0, 0⟩ = some (.declare "child" (.type 1) (some .strong)) := by decide
  obtain ⟨f, hf, -, hmarking⟩ := exists_field_of_allStrong (family.allStrong_detectBackEdges {}).symm hkept
  obtain ⟨-, -, -, -, hstrong, hback⟩ := (detection_exact {}).2 family
  exact ⟨hsame, ((detection_exact {}).1 _ _ hsame).symm, hnamed, hback _ _ hnamed (by decide), f,
    mem_fields.2 hf, hmarking, hstrong _ _ (mem_fields.2 hf) hmarking⟩

/-! ## Owners that are kept -/

/-- In front of a number in order stand the smaller ones. -/
theorem mem_of_range_eq_append {n r v : Nat} {pre post : List Nat} (h : List.range n = pre ++ r :: post)
    (hv : v < r) : v ∈ pre := by
  have hr : r < n := List.mem_range.1 (by rw [h]; simp)
  have hmem : v ∈ pre ++ r :: post := h ▸ List.mem_range.2 (hv.trans hr)
  have hpost : ∀ x ∈ post, r < x := by
    have hsorted := List.pairwise_lt_range (n := n)
    rw [h] at hsorted
    exact (List.pairwise_cons.1 (List.pairwise_append.1 hsorted).2.1).1
  rcases List.mem_append.1 hmem with hmem | hmem
  · exact hmem
  · rcases List.mem_cons.1 hmem with rfl | hmem
    · exact absurd hv (Nat.lt_irrefl _)
    · exact absurd (hpost v hmem) (Nat.lt_asymm hv)

/-- A reference that the walk does not report stays strong. -/
theorem edge_weaken_structuralBackEdges {u v : TypeId}
    (h : (g.strongGraph.without (g.strongGraph.backEdges (List.range g.size))).Edge u v) :
    ((g.weaken g.structuralBackEdges).referenceGraph fun r => !r.field.isWeak).Edge u v := by
  obtain ⟨hlt, r, hout, hunreported⟩ := Digraph.edge_without_iff.1 h
  obtain ⟨hmem, rfl, rfl, hfollow⟩ := mem_referenceGraph_out.1 hout
  simp only [Bool.and_eq_true] at hfollow
  have hid : r.id ∉ g.structuralBackEdges := by
    intro hid
    obtain ⟨s, hs, -, hsr⟩ := mem_structuralBackEdges.1 hid
    exact hunreported (eq_of_id (closes_of_mem_backEdges hs).1 hmem hsr ▸ hs)
  obtain ⟨hf, htype⟩ := mem_references.1 hmem
  have hkept : r ∈ (g.weaken g.structuralBackEdges).references := by
    refine mem_references.2 ⟨?_, htype⟩
    rw [field?_weaken, hf, Option.map_some, weakened, if_neg hid]
  exact referenceGraph_edge_iff.2 ⟨by rwa [size_weaken], r, hkept, hfollow.1, rfl, rfl⟩

/-- The third rule leaves every type the first of those that own it: the first type from which strong references
lead to it, in the order of declaration, still does so when the closing references are weak. -/
theorem first_owner_kept (g : TypeGraph) (u : TypeId) (hu : u < g.size) :
    ∃ r, IsLeast {v | g.Owns v u} r ∧ (g.weaken g.structuralBackEdges).Owns r u := by
  have hentered : u ∈ g.strongGraph.preorder (List.range g.size) :=
    Digraph.mem_preorder.2 ⟨u, List.mem_range.2 hu, hu, .refl u⟩
  obtain ⟨pre, r, post, hrange, hnone, hr, hreach⟩ :=
    Digraph.exists_first_root (g.labelled_referenceGraph _) hentered
  refine ⟨r, ⟨?_, fun v hv => ?_⟩, hreach.imp fun _ _ => edge_weaken_structuralBackEdges⟩
  · refine strongGraph_reaches_iff.1 (hreach.imp fun x y hedge => ?_)
    obtain ⟨hlt, s, hout, -⟩ := Digraph.edge_without_iff.1 hedge
    exact ⟨hlt, s, hout⟩
  · by_contra hless
    have hlt : v < r := Nat.lt_of_not_le hless
    exact hnone v (mem_of_range_eq_append hrange hlt) (hlt.trans hr) (strongGraph_reaches_iff.2 hv)

/-- Of two types that refer to each other the first still owns the second. -/
theorem first_owner_kept_couple : 1 < couple.size ∧ (couple.weaken couple.structuralBackEdges).Owns 0 1 := by
  have hsize : 1 < couple.size := by decide
  obtain ⟨r, hleast, howns⟩ := first_owner_kept couple 1 hsize
  have hzero : r = 0 := Nat.le_zero.1 (hleast.2 couple_owns.1)
  exact ⟨hsize, hzero ▸ howns⟩

end Reclamation.TypeGraph
