import Mathlib
import Reclamation.TypeGraph.BackEdge
import Reclamation.TypeGraph.Shape
import Reclamation.Proofs.Graph.BackEdges
import Reclamation.Proofs.Graph.Components

/-!
# Breaking circles of types

Detection leaves no circle of strong references through several types, except where an annotation
keeps a reference strong (`breaks_circles`). The walk of the third rule gives each type a rank, and
every strong reference that it neither weakened nor had to keep leads to a type of smaller rank
(`exists_rank_detectBackEdges`).

Weakening works on the fields one at a time; what it comes to is read off `field?`, the one view of a
type graph that the proofs use.
-/

set_option autoImplicit false

namespace Reclamation.TypeGraph

/-! ## Fields, one by one -/

/-- The field with an identifier, if it is declared. -/
def field? (g : TypeGraph) (id : FieldId) : Option Field :=
  g.nodes[id.owner]?.bind (·.fields[id.index]?)

theorem mem_fieldsOf {g : TypeGraph} {t : TypeId} {id : FieldId} {f : Field} :
    (id, f) ∈ g.fieldsOf t ↔ id.owner = t ∧ g.field? id = some f := by
  obtain ⟨owner, index⟩ := id
  unfold fieldsOf field?
  cases hn : g.nodes[t]? with
  | none =>
    simp only [List.not_mem_nil, false_iff, not_and]
    rintro rfl
    simp [hn]
  | some n =>
    simp only [List.mem_map, Prod.mk.injEq, FieldId.mk.injEq, Prod.exists]
    constructor
    · rintro ⟨f', i, hmem, ⟨rfl, rfl⟩, rfl⟩
      rw [List.mem_zipIdx_iff_getElem?] at hmem
      exact ⟨rfl, by simpa [hn] using hmem⟩
    · rintro ⟨rfl, hf⟩
      refine ⟨f, index, ?_, ⟨rfl, rfl⟩, rfl⟩
      rw [List.mem_zipIdx_iff_getElem?]
      simpa [hn] using hf

theorem owner_lt_of_field? {g : TypeGraph} {id : FieldId} {f : Field} (h : g.field? id = some f) :
    id.owner < g.size := by
  obtain ⟨n, hn, -⟩ := Option.bind_eq_some_iff.1 h
  exact (Array.getElem?_eq_some_iff.1 hn).1

theorem mem_fields {g : TypeGraph} {id : FieldId} {f : Field} :
    (id, f) ∈ g.fields ↔ g.field? id = some f := by
  simp only [fields, List.mem_flatMap, List.mem_range, mem_fieldsOf]
  constructor
  · rintro ⟨t, -, -, hf⟩
    exact hf
  · intro hf
    exact ⟨id.owner, owner_lt_of_field? hf, rfl, hf⟩

theorem mem_referencesOf {g : TypeGraph} {t : TypeId} {r : Reference} :
    r ∈ g.referencesOf t ↔
      r.id.owner = t ∧ g.field? r.id = some r.field ∧ r.field.target.type? = some r.target := by
  obtain ⟨id, field, target⟩ := r
  simp only [referencesOf, List.mem_filterMap, Prod.exists, Option.map_eq_some_iff,
    Reference.mk.injEq, mem_fieldsOf]
  constructor
  · rintro ⟨id', f', ⟨ht, hf⟩, t', htype, rfl, rfl, rfl⟩
    exact ⟨ht, hf, htype⟩
  · rintro ⟨ht, hf, htype⟩
    exact ⟨id, field, ⟨ht, hf⟩, target, htype, rfl, rfl, rfl⟩

theorem mem_references {g : TypeGraph} {r : Reference} :
    r ∈ g.references ↔ g.field? r.id = some r.field ∧ r.field.target.type? = some r.target := by
  simp only [references, List.mem_flatMap, List.mem_range, mem_referencesOf]
  constructor
  · rintro ⟨t, -, -, h⟩
    exact h
  · intro h
    exact ⟨r.id.owner, owner_lt_of_field? h.1, rfl, h⟩

theorem mem_referenceGraph_out {g : TypeGraph} {follow : Reference → Bool} {r : Reference}
    {u v : TypeId} : (r, v) ∈ (g.referenceGraph follow).out u ↔
      r ∈ g.references ∧ r.id.owner = u ∧ r.target = v ∧ follow r = true := by
  simp only [referenceGraph, List.mem_map, List.mem_filter, Prod.mk.injEq, mem_referencesOf,
    mem_references]
  constructor
  · rintro ⟨r', ⟨⟨ho, hr⟩, hf⟩, rfl, ht⟩
    exact ⟨hr, ho, ht, hf⟩
  · rintro ⟨hr, ho, ht, hf⟩
    exact ⟨r, ⟨⟨ho, hr⟩, hf⟩, rfl, ht⟩

/-! ## Weakening -/

theorem field?_modifyField (g : TypeGraph) (id x : FieldId) (change : Field → Field) :
    (g.modifyField id change).field? x = if x = id then (g.field? x).map change else g.field? x := by
  obtain ⟨owner, index⟩ := id
  obtain ⟨owner', index'⟩ := x
  simp only [field?, modifyField, Array.getElem?_modify, FieldId.mk.injEq]
  by_cases ho : owner = owner'
  · subst ho
    cases hn : g.nodes[owner]? with
    | none => simp
    | some n =>
      simp only [↓reduceIte, Option.map_some, Option.bind_some, Array.getElem?_modify, true_and]
      by_cases hi : index = index'
      · rw [if_pos hi, if_pos hi.symm]
      · rw [if_neg hi, if_neg (Ne.symm hi)]
  · rw [if_neg ho, if_neg (fun h => ho h.1.symm)]

/-- What weakening a list of fields makes of one field. -/
def weakened (ids : List FieldId) (id : FieldId) (f : Field) : Field :=
  if id ∈ ids then { f with strength := .weak } else f

theorem field?_weaken (ids : List FieldId) (g : TypeGraph) (x : FieldId) :
    (g.weaken ids).field? x = (g.field? x).map (weakened ids x) := by
  unfold weaken
  induction ids generalizing g with
  | nil =>
    have hid : weakened [] x = id := by
      funext f
      simp [weakened]
    rw [List.foldl_nil, hid, Option.map_id, id_eq]
  | cons id rest ih =>
    rw [List.foldl_cons, ih, field?_modifyField]
    cases hf : g.field? x with
    | none => simp
    | some f =>
      by_cases hx : x = id
      · by_cases hrest : id ∈ rest <;> simp [weakened, hx, hrest]
      · simp [weakened, hx]

theorem size_weaken (ids : List FieldId) (g : TypeGraph) : (g.weaken ids).size = g.size := by
  unfold weaken
  induction ids generalizing g with
  | nil => rfl
  | cons id rest ih =>
    rw [List.foldl_cons, ih]
    simp [size, modifyField]

theorem field?_annotatedOnly (g : TypeGraph) (x : FieldId) : g.annotatedOnly.field? x =
    (g.field? x).map fun f => { f with strength := Marking.strength f.marking } := by
  simp only [field?, annotatedOnly, Array.getElem?_map]
  cases g.nodes[x.owner]? with
  | none => rfl
  | some n => simp [Array.getElem?_map]

theorem marking_weakened (ids : List FieldId) (id : FieldId) (f : Field) :
    (weakened ids id f).marking = f.marking := by
  unfold weakened
  split <;> rfl

theorem isWeak_weakened {ids : List FieldId} {id : FieldId} {f : Field} :
    (weakened ids id f).isWeak = true ↔ id ∈ ids ∨ f.isWeak = true := by
  unfold weakened
  split
  · next hid => exact iff_of_true rfl (.inl hid)
  · next hid => exact (or_iff_right hid).symm

/-- A field that is strong was not weakened. -/
theorem not_isWeak_weakened {ids : List FieldId} {id : FieldId} {f : Field}
    (h : (weakened ids id f).isWeak = false) : id ∉ ids ∧ weakened ids id f = f := by
  unfold weakened at h ⊢
  split at h
  · exact absurd h (by simp [Field.isWeak])
  · next hid => exact ⟨hid, if_neg hid⟩

/-! ## What detection leaves strong -/

/-- The graph that the walk of the third rule goes over. -/
def namedWeak (g : TypeGraph) (o : AnalysisOptions) : TypeGraph :=
  g.annotatedOnly.weaken (g.annotatedOnly.namedBackEdges o)

/-- The references along which that walk goes. -/
def strongGraph (g : TypeGraph) : Digraph Reference :=
  g.referenceGraph fun r => !r.field.isWeak && !r.isSelf

theorem detectBackEdges_eq (g : TypeGraph) {o : AnalysisOptions} (ho : o.structural = true) :
    (g.detectBackEdges o).1 = (g.namedWeak o).weaken (g.namedWeak o).structuralBackEdges := by
  rw [detectBackEdges, ho]
  rfl

theorem size_detectBackEdges (g : TypeGraph) {o : AnalysisOptions} (ho : o.structural = true) :
    (g.detectBackEdges o).1.size = g.size := by
  rw [detectBackEdges_eq g ho, size_weaken, namedWeak, size_weaken]
  simp [size, annotatedOnly]

/-- A field of the graph that is walked was declared with the same annotation, and is weak if that
asks for it. -/
theorem field?_namedWeak {g : TypeGraph} {o : AnalysisOptions} {id : FieldId} {f : Field}
    (h : (g.namedWeak o).field? id = some f) :
    (∃ f', g.field? id = some f' ∧ f'.marking = f.marking) ∧
      (f.marking = some .weak → f.isWeak = true) := by
  rw [namedWeak, field?_weaken, field?_annotatedOnly] at h
  cases hf : g.field? id with
  | none => simp [hf] at h
  | some f' =>
    rw [hf, Option.map_some, Option.map_some, Option.some.injEq] at h
    have hmarking : f.marking = f'.marking := by rw [← h, marking_weakened]
    refine ⟨⟨f', rfl, hmarking.symm⟩, fun hweak => ?_⟩
    rw [← h]
    unfold weakened
    split
    · rfl
    · show (Marking.strength f'.marking == .weak) = true
      rw [← hmarking, hweak]
      rfl

/-- What is strong in the end was strong on the walk, and the walk did not choose it. -/
theorem mem_references_detectBackEdges {g : TypeGraph} {o : AnalysisOptions} (ho : o.structural = true)
    {r : Reference} (hr : r ∈ (g.detectBackEdges o).1.references) (hstrong : r.field.isWeak = false) :
    r ∈ (g.namedWeak o).references ∧ r.id ∉ (g.namedWeak o).structuralBackEdges := by
  rw [detectBackEdges_eq g ho, mem_references, field?_weaken] at hr
  obtain ⟨f, hf, hfield⟩ := Option.map_eq_some_iff.1 hr.1
  obtain ⟨hid, hsame⟩ := not_isWeak_weakened (by rw [hfield]; exact hstrong)
  rw [hsame] at hfield
  exact ⟨mem_references.2 ⟨hf.trans (congrArg some hfield), hr.2⟩, hid⟩

/-- Every strong reference to another type that no annotation keeps leads to a type of smaller
rank. -/
theorem exists_rank_detectBackEdges (g : TypeGraph) {o : AnalysisOptions} (ho : o.structural = true) :
    ∃ rank : TypeId → Nat, ∀ r ∈ (g.detectBackEdges o).1.references, r.field.isWeak = false →
      r.isSelf = false → r.target < g.size → r.field.marking ≠ some .strong →
      rank r.target < rank r.id.owner := by
  have hsize : (g.namedWeak o).size = g.size := by
    rw [namedWeak, size_weaken]
    simp [size, annotatedOnly]
  obtain ⟨rank, hrank⟩ := (g.namedWeak o).strongGraph.exists_rank (List.range (g.namedWeak o).size)
  refine ⟨rank, fun r hr hstrong hself htarget hmarking => ?_⟩
  obtain ⟨hmem, hid⟩ := mem_references_detectBackEdges ho hr hstrong
  obtain ⟨hfield, htype⟩ := mem_references.1 hmem
  have howner := owner_lt_of_field? hfield
  have hnone : r.field.marking = none := by
    cases hm : r.field.marking with
    | none => rfl
    | some m =>
      cases m with
      | strong => exact absurd hm hmarking
      | weak =>
        have hweak := (field?_namedWeak hfield).2 hm
        rw [hstrong] at hweak
        exact absurd hweak (by decide)
  have hout : (r, r.target) ∈ (g.namedWeak o).strongGraph.out r.id.owner :=
    mem_referenceGraph_out.2 ⟨hmem, rfl, rfl, by simp [hstrong, hself]⟩
  have hlt : r.target < (g.namedWeak o).size := by rwa [hsize]
  refine hrank r.id.owner ?_ r r.target hout hlt fun hback => hid ?_
  · exact Digraph.mem_postorder.2 ⟨r.id.owner, List.mem_range.2 howner, howner, .refl _⟩
  · exact List.mem_map.2 ⟨r, List.mem_filter.2 ⟨hback, by simp [hnone]⟩, rfl⟩

/-- Detection leaves the annotations as they are. -/
theorem exists_field_of_detectBackEdges {g : TypeGraph} {o : AnalysisOptions}
    (ho : o.structural = true) {r : Reference} (hr : r ∈ (g.detectBackEdges o).1.references) :
    ∃ f, (r.id, f) ∈ g.fields ∧ f.marking = r.field.marking := by
  rw [detectBackEdges_eq g ho, mem_references, field?_weaken] at hr
  obtain ⟨f, hf, hfield⟩ := Option.map_eq_some_iff.1 hr.1
  obtain ⟨⟨f', hf', hmarking⟩, -⟩ := field?_namedWeak hf
  refine ⟨f', mem_fields.2 hf', hmarking.trans ?_⟩
  rw [← hfield, marking_weakened]

/-- Where every field is annotated, detection does what the annotations ask for and no more. -/
theorem detectBackEdges_of_annotated {g : TypeGraph} (h : ∀ f ∈ g.fields, f.2.marking.isNone = false)
    (o : AnalysisOptions) : (g.detectBackEdges o).1 = g.annotatedOnly := by
  have hmarking : ∀ r ∈ g.annotatedOnly.references, r.field.marking.isNone = false := by
    intro r hr
    rw [mem_references, field?_annotatedOnly] at hr
    obtain ⟨f, hf, hfield⟩ := Option.map_eq_some_iff.1 hr.1
    rw [← hfield]
    exact h (r.id, f) (mem_fields.2 hf)
  have hnamed : g.annotatedOnly.namedBackEdges o = [] := by
    rw [namedBackEdges, List.map_eq_nil_iff, List.filter_eq_nil_iff]
    intro r hr
    simp [hmarking r hr]
  have hstructural : g.annotatedOnly.structuralBackEdges = [] := by
    rw [structuralBackEdges, List.map_eq_nil_iff, List.filter_eq_nil_iff]
    intro r hr
    have hnone : r.field.marking.isNone = false := by
      refine Digraph.of_mem_backEdges (P := fun r : Reference => r.field.marking.isNone = false)
        (fun u edge hedge => ?_) hr
      exact hmarking edge.1 (mem_referenceGraph_out.1 hedge).1
    simp [hnone]
  rw [detectBackEdges, hnamed]
  simp [weaken, hstructural]

/-! ## Circles -/

/-- References each of which leads to the type that declares the next, and the last to the type that
declares the first. -/
structure IsCircle (g : TypeGraph) (c : List Reference) : Prop where
  mem : ∀ r ∈ c, r ∈ g.references
  closed : (c ++ c.take 1).IsChain fun r s => r.target = s.id.owner

/-- A circle on which no reference leads to a greater rank, and only those of a type to itself stay at
the same rank, does not leave the type. -/
theorem IsCircle.owner_eq {g : TypeGraph} {c : List Reference} (hc : g.IsCircle c) (rank : TypeId → Nat)
    (hrank : ∀ r ∈ c, r.target < g.size → r.isSelf = false → rank r.target < rank r.id.owner)
    {r s : Reference} (hr : r ∈ c) (hs : s ∈ c) : r.id.owner = s.id.owner := by
  -- what comes later on the way around is the same type or of smaller rank
  let Below (r s : Reference) : Prop :=
    s.id.owner = r.id.owner ∨ rank s.id.owner < rank r.id.owner
  have htrans : ∀ {r s t}, Below r s → Below s t → Below r t := by
    rintro r s t (h | h) (h' | h')
    · exact .inl (h'.trans h)
    · exact .inr (h ▸ h')
    · exact .inr (h' ▸ h)
    · exact .inr (h'.trans h)
  have hantisymm : ∀ {r s}, Below r s → Below s r → s.id.owner = r.id.owner := by
    rintro r s (h | h) (h' | h')
    · exact h
    · exact h
    · exact h'.symm
    · exact absurd (h.trans h') (Nat.lt_irrefl _)
  have hstep : (c ++ c.take 1).IsChain Below := by
    refine hc.closed.imp_of_mem_imp fun r s hr hs h => ?_
    have hmem : ∀ x ∈ c ++ c.take 1, x ∈ c := fun x hx =>
      (List.mem_append.1 hx).elim id fun hx => List.mem_of_mem_take hx
    cases hself : r.isSelf with
    | true =>
      have htarget : r.target = r.id.owner := by simpa [Reference.isSelf] using hself
      exact .inl (h.symm.trans htarget)
    | false =>
      have howner := owner_lt_of_field? (mem_references.1 (hc.mem s (hmem s hs))).1
      refine .inr ?_
      rw [← h]
      exact hrank r (hmem r hr) (h ▸ howner) hself
  have : Trans Below Below Below := ⟨htrans⟩
  have hpair := hstep.pairwise
  cases c with
  | nil => exact absurd hr (by simp)
  | cons a rest =>
    rw [List.take_succ_cons, List.take_zero, List.cons_append] at hpair
    obtain ⟨hfirst, hrest⟩ := List.pairwise_cons.1 hpair
    have hsame : ∀ x ∈ a :: rest, x.id.owner = a.id.owner := by
      intro x hx
      rcases List.mem_cons.1 hx with rfl | hx
      · rfl
      · refine hantisymm (hfirst x (List.mem_append_left _ hx)) ?_
        exact (List.pairwise_append.1 hrest).2.2 x hx a List.mem_cons_self
    rw [hsame r hr, hsame s hs]

/-- Along strong references to other types a rank decreases. -/
theorem rank_le_of_reaches {g : TypeGraph} {follow : Reference → Bool} {rank : TypeId → Nat}
    (hrank : ∀ r ∈ g.references, follow r = true → r.target < g.size → rank r.target < rank r.id.owner)
    {u v : TypeId} (h : (g.referenceGraph follow).Reaches u v) : u = v ∨ rank v < rank u := by
  refine h.eq_or_lt fun hedge => ?_
  obtain ⟨hlt, r, hr⟩ := hedge
  obtain ⟨hmem, rfl, rfl, hfollow⟩ := mem_referenceGraph_out.1 hr
  exact hrank r hmem hfollow hlt

/-! ## Shapes -/

/-- The references that a search for cycles follows. -/
theorem linksWithin_edge_iff {g : TypeGraph} {types : List TypeId} {follow : Reference → Bool} {u v : TypeId} :
    (g.linksWithin types follow).graph.Edge u v ↔ u ≠ v ∧ v < g.size ∧ v ∈ types ∧
      ∃ r ∈ g.references, follow r = true ∧ r.id.owner = u ∧ r.target = v := by
  rw [Links.edge_iff]
  simp only [linksWithin, Option.filter_eq_some_iff, Bool.and_eq_true, bne_iff_ne, Std.HashSet.contains_ofList,
    List.contains_iff_mem]
  constructor
  · rintro ⟨hlt, ⟨id, f⟩, hmem, htype, ⟨hne, hv⟩, hfollow⟩
    obtain ⟨howner, hf⟩ := mem_fieldsOf.1 hmem
    exact ⟨hne.symm, hlt, hv, ⟨id, f, v⟩, mem_references.2 ⟨hf, htype⟩, hfollow, howner, rfl⟩
  · rintro ⟨hne, hlt, hv, r, hr, hfollow, howner, rfl⟩
    obtain ⟨hf, htype⟩ := mem_references.1 hr
    exact ⟨hlt, (r.id, r.field), mem_fieldsOf.2 ⟨howner, hf⟩, htype, ⟨hne.symm, hv⟩, hfollow⟩

theorem mem_cyclicComponents {g : TypeGraph} {types : List TypeId} {follow : Reference → Bool} {c : List TypeId} :
    c ∈ g.cyclicComponents types follow ↔ c ∈ (g.linksWithin types follow).components types ∧ 2 ≤ c.length := by
  rw [cyclicComponents, Links.componentsWhere_eq, List.mem_filter, decide_eq_true_eq, Nat.succ_le_iff]

/-- Types that have a rank which decreases along the accepted references form no cycle. -/
theorem cyclicComponents_eq_nil {g : TypeGraph} {types : List TypeId} {follow : Reference → Bool}
    (rank : TypeId → Nat) (hrank : ∀ r ∈ g.references, r.isSelf = false → follow r = true →
      r.target < g.size → rank r.target < rank r.id.owner) : g.cyclicComponents types follow = [] := by
  refine List.eq_nil_iff_forall_not_mem.2 fun c hmem => ?_
  obtain ⟨hc, hlength⟩ := mem_cyclicComponents.1 hmem
  have hless : ∀ {u v}, (g.linksWithin types follow).graph.Reaches u v → u = v ∨ rank v < rank u := fun h => by
    refine h.eq_or_lt fun hedge => ?_
    obtain ⟨hne, hlt, -, r, hr, hfollow, rfl, rfl⟩ := linksWithin_edge_iff.1 hedge
    exact hrank r hr (beq_false_of_ne hne.symm) hfollow hlt
  have hnodup := Links.component_nodup hc
  match c, hlength, hc, hnodup with
  | u :: v :: rest, _, hc, hnodup =>
    have hne : u ≠ v := by
      intro e
      exact (List.nodup_cons.1 hnodup).1 (by simp [e])
    obtain ⟨huv, hvu⟩ := (Links.mem_component_iff hc List.mem_cons_self).1
      (List.mem_cons_of_mem _ List.mem_cons_self : v ∈ u :: v :: rest)
    rcases hless huv with e | h
    · exact hne e
    · rcases hless hvu with e | h'
      · exact hne e.symm
      · exact absurd (h.trans h') (Nat.lt_irrefl _)

theorem reachable_eq_ok {g : TypeGraph} {t : TypeId} (ht : t < g.size) :
    g.reachable t = .ok (g.reachableFrom t) := by
  have hnode : g.nodes[t]? = some g.nodes[t] := Array.getElem?_eq_getElem ht
  simp only [reachable, node, hnode]
  rfl

/-- If strong references alone form no cycle, a shape is at worst a broken cycle. -/
theorem classify_of_no_cycle {g : TypeGraph}
    (h : ∀ types, g.cyclicComponents types (fun r => !r.field.isWeak) = []) {t : TypeId}
    (ht : t < g.size) : ∃ fact, g.classify t = .ok fact ∧
      (fact.unknown = true ∨ fact.shape ≠ .cyclic ∨ fact.shape = .cyclic ∧ fact.broken = true) := by
  refine ⟨g.shapeOf (g.reachableFrom t), ?_, ?_⟩
  · rw [classify, reachable_eq_ok ht]
    rfl
  · unfold shapeOf
    rw [h]
    split
    · exact .inl rfl
    · split
      · exact .inr (.inr ⟨rfl, rfl⟩)
      · split
        · exact .inr (.inl (by simp [ShapeFact.acyclic]))
        · exact .inr (.inl (by simp [ShapeFact.acyclic]))

/-! ## The result -/

/-- After detection with the third rule every circle of strong references through two or more types
has a reference that an annotation keeps strong. So without such annotations no shape is an unbroken
cycle, and the strong references between different types form no cycle. -/
theorem breaks_circles (g : TypeGraph) (o : AnalysisOptions) (ho : o.structural = true) :
    (∀ c, (g.detectBackEdges o).1.IsCircle c → (∀ r ∈ c, r.field.isWeak = false) →
      (∃ r ∈ c, ∃ s ∈ c, r.id.owner ≠ s.id.owner) → ∃ r ∈ c, r.field.marking = some .strong) ∧
    ((∀ f ∈ g.fields, f.2.marking ≠ some .strong) →
      (∀ t < g.size, ∃ fact, (g.detectBackEdges o).1.classify t = .ok fact ∧
        (fact.unknown = true ∨ fact.shape ≠ .cyclic ∨ fact.shape = .cyclic ∧ fact.broken = true)) ∧
      ∀ u v, (g.detectBackEdges o).1.strongGraph.Edge u v →
        ¬ (g.detectBackEdges o).1.strongGraph.Reaches v u) := by
  obtain ⟨rank, hrank⟩ := g.exists_rank_detectBackEdges ho
  have hsize := g.size_detectBackEdges ho
  constructor
  · intro c hc hstrong hseveral
    by_contra hnone
    obtain ⟨r, hr, s, hs, hne⟩ := hseveral
    refine hne (hc.owner_eq rank (fun x hx hlt hself => ?_) hr hs)
    rw [hsize] at hlt
    exact hrank x (hc.mem x hx) (hstrong x hx) hself hlt fun hm => hnone ⟨x, hx, hm⟩
  · intro hunmarked
    have hfalls : ∀ r ∈ (g.detectBackEdges o).1.references, r.isSelf = false → r.field.isWeak = false →
        r.target < (g.detectBackEdges o).1.size → rank r.target < rank r.id.owner := by
      intro r hr hself hstrong hlt
      rw [hsize] at hlt
      refine hrank r hr hstrong hself hlt fun hm => ?_
      obtain ⟨f, hf, hmarking⟩ := exists_field_of_detectBackEdges ho hr
      exact hunmarked _ hf (hmarking.trans hm)
    constructor
    · intro t ht
      refine classify_of_no_cycle (fun types => ?_) (hsize ▸ ht)
      refine cyclicComponents_eq_nil rank fun r hr hself hfollow hlt => ?_
      exact hfalls r hr hself (by simpa using hfollow) hlt
    · intro u v hedge hvu
      have hless : ∀ {u v}, (g.detectBackEdges o).1.strongGraph.Reaches u v → u = v ∨ rank v < rank u :=
        rank_le_of_reaches fun r hr hfollow hlt => by
          simp only [Bool.and_eq_true, Bool.not_eq_true'] at hfollow
          exact hfalls r hr hfollow.2 hfollow.1 hlt
      obtain ⟨hlt, r, hr⟩ := hedge
      obtain ⟨hmem, rfl, rfl, hfollow⟩ := mem_referenceGraph_out.1 hr
      simp only [Bool.and_eq_true, Bool.not_eq_true'] at hfollow
      have hdown := hfalls r hmem hfollow.2 hfollow.1 hlt
      rcases hless hvu with e | hup
      · rw [e] at hdown
        exact Nat.lt_irrefl _ hdown
      · exact absurd (hdown.trans hup) (Nat.lt_irrefl _)

/-- Two types that refer to each other. -/
def couple : TypeGraph where
  nodes := #[{ name := "A", fields := #[.declare "b" (.type 1) none] },
    { name := "B", fields := #[.declare "a" (.type 0) none] }]

/-- Neither of the two types leads to an unbroken cycle once detection has run, although each refers
to the other. -/
theorem breaks_circles_couple :
    ({} : AnalysisOptions).structural = true ∧ couple.IsCircle couple.references ∧
    (∀ f ∈ couple.fields, f.2.marking ≠ some .strong) ∧
    ∀ t < 2, ∃ fact, (couple.detectBackEdges {}).1.classify t = .ok fact ∧
      (fact.unknown = true ∨ fact.shape ≠ .cyclic ∨ fact.shape = .cyclic ∧ fact.broken = true) := by
  have hunmarked : ∀ f ∈ couple.fields, f.2.marking ≠ some .strong := by decide
  refine ⟨rfl, ⟨fun r hr => hr, ?_⟩, hunmarked, ((breaks_circles couple {} rfl).2 hunmarked).1⟩
  show List.IsChain _ [_, _, _]
  decide

end Reclamation.TypeGraph
