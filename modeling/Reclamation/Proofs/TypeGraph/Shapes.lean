import Mathlib
import Reclamation.TypeGraph.Shape
import Reclamation.Proofs.TypeGraph.CyclicComponents

/-!
# What a shape says

A shape is found by four tests on the types that a type leads to. Here each test is said of paths and single
references: some type is unknown (`MeetsUnknown`), some form a cycle (`MeetsCycle`), some form a cycle of
strong references (`MeetsStrongCycle`), some may be shared (`MeetsShared`). The first test that is passed
decides (`classify_by_paths`).

What a type leads to includes what these types lead to, so each test that one of them passes is passed by the
type itself. So a fact takes in the facts of all types behind it, and is their join (`fact_absorbs_nested`).
-/

set_option autoImplicit false

namespace Reclamation

/-! ## Joining facts -/

theorem Shape.join_comm (a b : Shape) : a.join b = b.join a := by
  cases a <;> cases b <;> rfl

theorem Shape.join_assoc (a b c : Shape) : (a.join b).join c = a.join (b.join c) := by
  cases a <;> cases b <;> cases c <;> rfl

namespace ShapeFact

theorem join_comm (a b : ShapeFact) : a.join b = b.join a := by
  simp only [join, Shape.join_comm b.shape, Bool.and_assoc, Bool.and_comm b.harmless, Bool.or_comm b.unknown]

/-- An unbroken cycle is left in a join if it is left in one of the parts. -/
theorem harmless_join (a b : ShapeFact) : (a.join b).harmless = (a.harmless && b.harmless) := by
  obtain ⟨shape, broken, _⟩ := a
  obtain ⟨shape', broken', _⟩ := b
  cases shape <;> cases shape' <;> cases broken <;> cases broken' <;> rfl

theorem join_assoc (a b c : ShapeFact) : (a.join b).join c = a.join (b.join c) := by
  show ShapeFact.mk _ _ _ = ShapeFact.mk _ _ _
  rw [ShapeFact.mk.injEq]
  refine ⟨Shape.join_assoc .., ?_, Bool.or_assoc ..⟩
  show (((a.shape.join b.shape).join c.shape == .cyclic) && (a.join b).harmless && c.harmless) =
    ((a.shape.join (b.shape.join c.shape) == .cyclic) && a.harmless && (b.join c).harmless)
  rw [Shape.join_assoc, harmless_join, harmless_join]
  simp only [Bool.and_assoc]

/-- The fact that four tests call for; the first test that is passed decides. -/
def ofTests (unknown cyclic unbroken shared : Bool) : ShapeFact :=
  if unknown then .unresolved
  else if cyclic then { shape := .cyclic, broken := !unbroken }
  else if shared then .acyclic .dag
  else .acyclic .tree

theorem ofTests_eq_unresolved_iff : ∀ {unknown cyclic unbroken shared : Bool},
    ofTests unknown cyclic unbroken shared = .unresolved ↔ unknown = true := by
  decide

theorem join_default : ∀ {unknown cyclic unbroken shared : Bool},
    (ofTests unknown cyclic unbroken shared).join {} = ofTests unknown cyclic unbroken shared := by
  decide

/-- A fact takes in another if its tests are passed where those of the other are. Without a cycle it does not
matter what would be unbroken, and sharing matters only without a cycle. -/
theorem join_ofTests : ∀ {u c s d u' c' s' d' : Bool}, (u' = true → u = true) → (c' = true → c = true) →
    (s' = true → s = true) → (c = false → d' = true → d = true) →
    (ofTests u c s d).join (ofTests u' c' s' d') = ofTests u c s d := by
  decide

end ShapeFact

namespace TypeGraph

variable {g : TypeGraph} {t u v : TypeId}

theorem shapeOf_eq_ofTests (g : TypeGraph) (types : List TypeId) : g.shapeOf types = .ofTests
    (g.hasUnresolved types)
    (g.hasWeakSelf types || !(g.cyclicComponents types fun _ => true).isEmpty)
    (!(g.cyclicComponents types fun r => !r.field.isWeak).isEmpty)
    (types.any (g.isShared types)) := by
  rw [shapeOf, ShapeFact.ofTests, Bool.not_not]

/-! ## The tests, said of paths -/

/-- The type leads to one with a field whose type could not be found. -/
def MeetsUnknown (g : TypeGraph) (t : TypeId) : Prop :=
  ∃ u, g.Leads t u ∧ ∃ id f name, (id, f) ∈ g.fields ∧ id.owner = u ∧ f.target = .unresolved name

/-- The type leads to one with a weak reference to itself, or to one of two types that lead to each other. -/
def MeetsCycle (g : TypeGraph) (t : TypeId) : Prop :=
  ∃ u, g.Leads t u ∧
    ((∃ r ∈ g.references, r.id.owner = u ∧ r.target = u ∧ r.field.isWeak = true) ∨
      ∃ v, u ≠ v ∧ g.Leads u v ∧ g.Leads v u)

/-- The type leads to one of two types that own each other. -/
def MeetsStrongCycle (g : TypeGraph) (t : TypeId) : Prop :=
  ∃ u, g.Leads t u ∧ ∃ v, u ≠ v ∧ g.Owns u v ∧ g.Owns v u

/-- `r` is a reference to `u` in one of the types that `t` leads to. -/
def Into (g : TypeGraph) (t u : TypeId) (r : Reference) : Prop :=
  r ∈ g.references ∧ g.Leads t r.id.owner ∧ r.target = u

/-- The type leads to one that may be shared: the types that it leads to have two strong references to that one
from others, or two from itself, or a weak one. -/
def MeetsShared (g : TypeGraph) (t : TypeId) : Prop :=
  ∃ u, g.Leads t u ∧
    ((∃ r s, g.Into t u r ∧ g.Into t u s ∧ r.id ≠ s.id ∧ r.field.isWeak = false ∧ s.field.isWeak = false ∧
        r.id.owner ≠ u ∧ s.id.owner ≠ u) ∨
      (∃ r s, g.Into t u r ∧ g.Into t u s ∧ r.id ≠ s.id ∧ r.field.isWeak = false ∧ s.field.isWeak = false ∧
        r.id.owner = u ∧ s.id.owner = u) ∨
      ∃ r, g.Into t u r ∧ r.field.isWeak = true)

theorem not_meetsUnknown (h : ∀ f ∈ g.fields, f.2.target.isUnresolved = false) : ¬ g.MeetsUnknown t := by
  rintro ⟨u, -, id, f, name, hf, -, hname⟩
  have hknown := h _ hf
  rw [hname] at hknown
  exact absurd hknown (by simp [FieldTarget.isUnresolved])

theorem MeetsStrongCycle.meetsCycle : g.MeetsStrongCycle t → g.MeetsCycle t
  | ⟨u, hu, v, hne, huv, hvu⟩ => ⟨u, hu, .inr ⟨v, hne, huv.leads, hvu.leads⟩⟩

section Behind

variable (h : g.Leads t u)

include h

theorem MeetsUnknown.of_leads : g.MeetsUnknown u → g.MeetsUnknown t
  | ⟨v, hv, hunknown⟩ => ⟨v, h.trans hv, hunknown⟩

theorem MeetsCycle.of_leads : g.MeetsCycle u → g.MeetsCycle t
  | ⟨v, hv, hcycle⟩ => ⟨v, h.trans hv, hcycle⟩

theorem MeetsStrongCycle.of_leads : g.MeetsStrongCycle u → g.MeetsStrongCycle t
  | ⟨v, hv, hcycle⟩ => ⟨v, h.trans hv, hcycle⟩

theorem Into.of_leads {r : Reference} : g.Into u v r → g.Into t v r
  | ⟨hr, howner, htarget⟩ => ⟨hr, h.trans howner, htarget⟩

theorem MeetsShared.of_leads : g.MeetsShared u → g.MeetsShared t := by
  rintro ⟨v, hv, ⟨r, s, hr, hs, hrest⟩ | ⟨r, s, hr, hs, hrest⟩ | ⟨r, hr, hweak⟩⟩
  · exact ⟨v, h.trans hv, .inl ⟨r, s, hr.of_leads h, hs.of_leads h, hrest⟩⟩
  · exact ⟨v, h.trans hv, .inr (.inl ⟨r, s, hr.of_leads h, hs.of_leads h, hrest⟩)⟩
  · exact ⟨v, h.trans hv, .inr (.inr ⟨r, hr.of_leads h, hweak⟩)⟩

end Behind

/-! ## Cycles -/

section Cycles

variable {types : List TypeId} {follow : Reference → Bool}

/-- Among types that include all that the accepted references lead to, the references between two different types
of them lead as far as all accepted references. -/
theorem linksWithin_reaches_iff
    (hclosed : ∀ x ∈ types, ∀ y, (g.referenceGraph follow).Edge x y → y ∈ types) (hu : u ∈ types) :
    (g.linksWithin types follow).graph.Reaches u v ↔ (g.referenceGraph follow).Reaches u v := by
  constructor
  · intro huv
    clear hu
    induction huv with
    | refl => exact .refl _
    | step hedge _ ih =>
      obtain ⟨-, hlt, -, r, hr, hfollow, howner, htarget⟩ := linksWithin_edge_iff.1 hedge
      exact .step (referenceGraph_edge_iff.2 ⟨hlt, r, hr, hfollow, howner, htarget⟩) ih
  · intro huv
    induction huv with
    | refl => exact .refl _
    | @step x y v hedge _ ih =>
      have hy := hclosed x hu y hedge
      obtain ⟨hlt, r, hr, hfollow, rfl, rfl⟩ := referenceGraph_edge_iff.1 hedge
      by_cases hself : r.id.owner = r.target
      · rw [hself]
        exact ih hy
      · exact .step (linksWithin_edge_iff.2 ⟨hself, hlt, hy, r, hr, hfollow, rfl, rfl⟩) (ih hy)

/-- There is a cyclic component exactly when two types reach each other. -/
theorem cyclicComponents_isEmpty_eq_false_iff (hlt : ∀ x ∈ types, x < g.size)
    (hclosed : ∀ x ∈ types, ∀ y, (g.referenceGraph follow).Edge x y → y ∈ types) :
    (g.cyclicComponents types follow).isEmpty = false ↔
      ∃ u ∈ types, ∃ v, u ≠ v ∧ (g.referenceGraph follow).Mutual u v := by
  have hreach : ∀ x ∈ types, ∀ y, (g.referenceGraph follow).Reaches x y → y ∈ types := by
    intro x hx y hxy
    induction hxy with
    | refl => exact hx
    | step hedge _ ih => exact ih (hclosed _ hx _ hedge)
  have hmutual : ∀ {x y}, x ∈ types →
      ((g.linksWithin types follow).graph.Mutual x y ↔ (g.referenceGraph follow).Mutual x y) := by
    intro x y hx
    refine and_congr_right_iff.2 ?_ |>.trans (and_congr_left_iff.2 fun _ => linksWithin_reaches_iff hclosed hx)
    intro hxy
    exact linksWithin_reaches_iff hclosed (hreach x hx y ((linksWithin_reaches_iff hclosed hx).1 hxy))
  rw [List.isEmpty_eq_false_iff_exists_mem]
  constructor
  · rintro ⟨c, hc⟩
    obtain ⟨x, hxc⟩ := Links.exists_mem_of_mem_components (mem_cyclicComponents.1 hc).1
    obtain ⟨hx, -, y, hne, hxy⟩ := exists_cyclicComponent_iff.1 ⟨c, hc, hxc⟩
    exact ⟨x, hx, y, hne.symm, (hmutual hx).1 hxy⟩
  · rintro ⟨x, hx, y, hne, hxy⟩
    obtain ⟨c, hc, -⟩ := exists_cyclicComponent_iff.2 ⟨hx, hlt x hx, y, hne.symm, (hmutual hx).2 hxy⟩
    exact ⟨c, hc⟩

end Cycles

/-! ## Counts -/

/-- Counting two in a list without repetition is finding two that differ. -/
theorem two_le_countP_iff {α : Type} [DecidableEq α] {l : List α} (hl : l.Nodup) (p : α → Bool) :
    2 ≤ l.countP p ↔ ∃ x ∈ l, ∃ y ∈ l, x ≠ y ∧ p x = true ∧ p y = true := by
  rw [List.countP_eq_length_filter, ← List.toFinset_card_of_nodup (hl.filter p), Nat.succ_le_iff,
    Finset.one_lt_card]
  simp only [List.mem_toFinset, List.mem_filter]
  constructor
  · rintro ⟨x, ⟨hx, hpx⟩, y, ⟨hy, hpy⟩, hne⟩
    exact ⟨x, hx, y, hy, hne, hpx, hpy⟩
  · rintro ⟨x, hx, y, hy, hne, hpx, hpy⟩
    exact ⟨x, ⟨hx, hpx⟩, y, ⟨hy, hpy⟩, hne⟩

theorem nodup_flatMap_referencesOf {types : List TypeId} (h : types.Nodup) :
    (types.flatMap g.referencesOf).Nodup := by
  refine List.nodup_flatMap.2 ⟨fun x _ => (g.nodup_referencesOf x).of_map, h.imp fun {x y} hne r hx hy => hne ?_⟩
  exact (mem_referencesOf.1 hx).1.symm.trans (mem_referencesOf.1 hy).1

/-! ## The tests of a walk -/

section Reachable

variable (ht : t < g.size)

include ht

theorem hasUnresolved_iff : g.hasUnresolved (g.reachableFrom t) = true ↔ g.MeetsUnknown t := by
  simp only [hasUnresolved, List.any_eq_true, mem_reachableFrom, ht, true_and, Prod.exists, mem_fieldsOf]
  refine exists_congr fun u => and_congr_right fun _ => exists_congr fun id => exists_congr fun f => ?_
  rw [mem_fields]
  cases f.target <;> simp [FieldTarget.isUnresolved, and_comm]

theorem edge_mem_reachableFrom {follow : Reference → Bool} (hu : u ∈ g.reachableFrom t)
    (hedge : (g.referenceGraph follow).Edge u v) : v ∈ g.reachableFrom t := by
  obtain ⟨hlt, r, hr, -, rfl, rfl⟩ := referenceGraph_edge_iff.1 hedge
  exact mem_reachableFrom.2 ⟨ht, (mem_reachableFrom.1 hu).2.trans (leads_of_mem_references hr hlt)⟩

theorem cyclicComponents_reachableFrom_iff (follow : Reference → Bool) :
    (!(g.cyclicComponents (g.reachableFrom t) follow).isEmpty) = true ↔
      ∃ u, g.Leads t u ∧ ∃ v, u ≠ v ∧ (g.referenceGraph follow).Mutual u v := by
  rw [Bool.not_eq_true', cyclicComponents_isEmpty_eq_false_iff]
  · simp only [mem_reachableFrom, ht, true_and]
  · exact fun x hx => (mem_reachableFrom.1 hx).2.lt_size ht
  · exact fun x hx y hedge => edge_mem_reachableFrom ht hx hedge

theorem hasWeakSelf_iff : g.hasWeakSelf (g.reachableFrom t) = true ↔
    ∃ u, g.Leads t u ∧ ∃ r ∈ g.references, r.id.owner = u ∧ r.target = u ∧ r.field.isWeak = true := by
  simp only [hasWeakSelf, List.any_eq_true, mem_reachableFrom, ht, true_and, Bool.and_eq_true]
  refine exists_congr fun u => and_congr_right fun _ => exists_congr fun r => ?_
  rw [mem_referencesOf, mem_references, Reference.isSelf, beq_iff_eq]
  constructor
  · rintro ⟨⟨rfl, hr⟩, hself, hweak⟩
    exact ⟨hr, rfl, hself, hweak⟩
  · rintro ⟨hr, rfl, hself, hweak⟩
    exact ⟨⟨rfl, hr⟩, hself, hweak⟩

theorem cyclic_iff : (g.hasWeakSelf (g.reachableFrom t) ||
    !(g.cyclicComponents (g.reachableFrom t) fun _ => true).isEmpty) = true ↔ g.MeetsCycle t := by
  rw [Bool.or_eq_true, hasWeakSelf_iff ht, cyclicComponents_reachableFrom_iff ht, ← exists_or]
  exact exists_congr fun u => and_or_left.symm

theorem mem_into_iff {r : Reference} :
    r ∈ ((g.reachableFrom t).flatMap g.referencesOf).filter (·.target == u) ↔ g.Into t u r := by
  simp only [List.mem_filter, List.mem_flatMap, mem_reachableFrom, ht, true_and, mem_referencesOf, beq_iff_eq,
    Into, mem_references]
  constructor
  · rintro ⟨⟨_, hx, rfl, hr⟩, htarget⟩
    exact ⟨hr, hx, htarget⟩
  · rintro ⟨hr, hx, htarget⟩
    exact ⟨⟨_, hx, rfl, hr⟩, htarget⟩

theorem two_le_countP_into_iff (p : Reference → Bool) :
    2 ≤ (((g.reachableFrom t).flatMap g.referencesOf).filter (·.target == u)).countP p ↔
      ∃ r s, g.Into t u r ∧ g.Into t u s ∧ r.id ≠ s.id ∧ p r = true ∧ p s = true := by
  have hnodup : (g.reachableFrom t).Nodup := Digraph.preorder_nodup
  rw [two_le_countP_iff ((nodup_flatMap_referencesOf hnodup).filter _)]
  simp only [mem_into_iff ht]
  constructor
  · rintro ⟨r, hr, s, hs, hne, hrest⟩
    exact ⟨r, s, hr, hs, fun hid => hne (eq_of_id hr.1 hs.1 hid), hrest⟩
  · rintro ⟨r, s, hr, hs, hne, hrest⟩
    exact ⟨r, hr, s, hs, fun e => hne (congrArg _ e), hrest⟩

/-- Without a weak reference of a type to itself, the weak references into a type come from others. -/
theorem shared_iff (hcycle : ¬ g.MeetsCycle t) :
    (g.reachableFrom t).any (g.isShared (g.reachableFrom t)) = true ↔ g.MeetsShared t := by
  have hself : ∀ {u r}, g.Into t u r → (r.isSelf = true ↔ r.id.owner = u) := by
    rintro u r ⟨-, -, rfl⟩
    rw [Reference.isSelf, beq_iff_eq]
    exact eq_comm
  simp only [List.any_eq_true, mem_reachableFrom, ht, true_and]
  refine exists_congr fun u => and_congr_right fun _ => ?_
  simp only [isShared, Bool.or_eq_true, decide_eq_true_eq, or_assoc, two_le_countP_into_iff ht, Bool.and_eq_true,
    Bool.not_eq_true']
  refine or_congr ?_ (or_congr ?_ ?_)
  · refine exists_congr fun r => exists_congr fun s => and_congr_right fun hr => and_congr_right fun hs => ?_
    rw [← Bool.not_eq_true r.isSelf, ← Bool.not_eq_true s.isSelf, hself hr, hself hs]
    tauto
  · refine exists_congr fun r => exists_congr fun s => and_congr_right fun hr => and_congr_right fun hs => ?_
    rw [hself hr, hself hs]
    tauto
  · rw [List.any_eq_true]
    refine exists_congr fun r => ?_
    rw [mem_into_iff ht, Bool.and_eq_true, Bool.not_eq_true']
    refine and_congr_right fun hr => and_iff_right_of_imp fun hweak => ?_
    rw [← Bool.not_eq_true, hself hr]
    intro howner
    exact hcycle ⟨r.id.owner, hr.2.1, .inl ⟨r, hr.1, rfl, hr.2.2.trans howner.symm, hweak⟩⟩

/-- Classifying a declared type gives the fact that its tests call for. -/
theorem classify_eq_ofTests : ∃ unknown cyclic unbroken shared,
    g.classify t = .ok (.ofTests unknown cyclic unbroken shared) ∧
    (unknown = true ↔ g.MeetsUnknown t) ∧ (cyclic = true ↔ g.MeetsCycle t) ∧
    (unbroken = true ↔ g.MeetsStrongCycle t) ∧ (cyclic = false → (shared = true ↔ g.MeetsShared t)) := by
  refine ⟨_, _, _, _, ?_, hasUnresolved_iff ht, cyclic_iff ht, cyclicComponents_reachableFrom_iff ht _,
    fun hcyclic => shared_iff ht fun hcycle => ?_⟩
  · rw [classify, reachable_eq_ok ht, ← shapeOf_eq_ofTests]
    rfl
  · rw [(cyclic_iff ht).2 hcycle] at hcyclic
    exact absurd hcyclic (by simp)

end Reachable

/-! ## Classification -/

theorem classify_eq_unresolved (ht : t < g.size) (h : g.MeetsUnknown t) : g.classify t = .ok .unresolved := by
  obtain ⟨unknown, cyclic, unbroken, shared, hfact, hunknown, -⟩ := classify_eq_ofTests ht
  rw [hfact, ShapeFact.ofTests_eq_unresolved_iff.2 (hunknown.2 h)]

theorem classify_eq_unbroken (ht : t < g.size) (hknown : ¬ g.MeetsUnknown t) (h : g.MeetsStrongCycle t) :
    g.classify t = .ok { shape := .cyclic } := by
  obtain ⟨unknown, cyclic, unbroken, shared, hfact, hunknown, hcyclic, hunbroken, -⟩ := classify_eq_ofTests ht
  obtain rfl : unknown = false := Bool.eq_false_iff.2 fun hu => hknown (hunknown.1 hu)
  obtain rfl : cyclic = true := hcyclic.2 h.meetsCycle
  obtain rfl : unbroken = true := hunbroken.2 h
  exact hfact

theorem classify_eq_tree (ht : t < g.size) (hknown : ¬ g.MeetsUnknown t) (hcycle : ¬ g.MeetsCycle t)
    (hshared : ¬ g.MeetsShared t) : g.classify t = .ok {} := by
  obtain ⟨unknown, cyclic, unbroken, shared, hfact, hunknown, hcyclic, -, hshare⟩ := classify_eq_ofTests ht
  obtain rfl : unknown = false := Bool.eq_false_iff.2 fun h => hknown (hunknown.1 h)
  obtain rfl : cyclic = false := Bool.eq_false_iff.2 fun h => hcycle (hcyclic.1 h)
  obtain rfl : shared = false := Bool.eq_false_iff.2 fun h => hshared ((hshare rfl).1 h)
  exact hfact

/-- Every declared type is classified. The fact is the cautious one exactly if the type leads to an unknown type;
otherwise the shape is cyclic exactly if it leads to a cycle, which is broken exactly if it leads to none of
strong references; otherwise the shape is a dag exactly if it leads to a type that may be shared, and a tree if
not. -/
theorem classify_by_paths (g : TypeGraph) (t : TypeId) (ht : t < g.size) :
    ∃ fact, g.classify t = .ok fact ∧ (fact = .unresolved ↔ g.MeetsUnknown t) ∧
      (¬ g.MeetsUnknown t → fact.unknown = false ∧ (fact.shape = .cyclic ↔ g.MeetsCycle t) ∧
        (g.MeetsCycle t → (fact.broken = true ↔ ¬ g.MeetsStrongCycle t)) ∧
        (¬ g.MeetsCycle t → fact.broken = false ∧ (fact.shape = .dag ↔ g.MeetsShared t) ∧
          (fact.shape = .tree ↔ ¬ g.MeetsShared t))) := by
  obtain ⟨unknown, cyclic, unbroken, shared, hfact, hunknown, hcyclic, hunbroken, hshared⟩ :=
    classify_eq_ofTests ht
  refine ⟨_, hfact, ShapeFact.ofTests_eq_unresolved_iff.trans hunknown, fun hknown => ?_⟩
  obtain rfl : unknown = false := Bool.eq_false_iff.2 fun h => hknown (hunknown.1 h)
  cases cyclic with
  | true =>
    have hmeets : g.MeetsCycle t := hcyclic.1 rfl
    refine ⟨rfl, iff_of_true rfl hmeets, fun _ => ?_, fun hnone => absurd hmeets hnone⟩
    rw [← hunbroken]
    cases unbroken <;> simp [ShapeFact.ofTests]
  | false =>
    have hnone : ¬ g.MeetsCycle t := fun h => absurd (hcyclic.2 h) (by simp)
    have hshared := hshared rfl
    cases shared with
    | true =>
      have hmeets : g.MeetsShared t := hshared.1 rfl
      exact ⟨rfl, iff_of_false nofun hnone, fun h => absurd h hnone,
        fun _ => ⟨rfl, iff_of_true rfl hmeets, iff_of_false nofun (not_not_intro hmeets)⟩⟩
    | false =>
      have hunshared : ¬ g.MeetsShared t := fun h => absurd (hshared.2 h) (by simp)
      exact ⟨rfl, iff_of_false nofun hnone, fun h => absurd h hnone,
        fun _ => ⟨rfl, iff_of_false nofun hunshared, iff_of_true rfl hunshared⟩⟩

/-- Two types that refer to each other are an unbroken cycle. -/
theorem classify_by_paths_couple : 0 < couple.size ∧ couple.classify 0 = .ok { shape := .cyclic } := by
  have hsize : 0 < couple.size := by decide
  have hknown : ¬ couple.MeetsUnknown 0 := not_meetsUnknown (by decide)
  have hstrong : couple.MeetsStrongCycle 0 := ⟨0, .refl couple 0, 1, by decide, couple_owns⟩
  obtain ⟨⟨shape, broken, unknown⟩, hfact, -, hrest⟩ := classify_by_paths couple 0 hsize
  obtain ⟨hunknown, hshape, hbroken, -⟩ := hrest hknown
  obtain rfl : unknown = false := hunknown
  obtain rfl : shape = .cyclic := hshape.2 hstrong.meetsCycle
  obtain rfl : broken = false :=
    Bool.eq_false_iff.2 fun h => (hbroken hstrong.meetsCycle).1 h hstrong
  exact ⟨hsize, hfact⟩

/-! ## Facts of nested types -/

/-- The join of the facts of some types. -/
def joinOver (g : TypeGraph) (types : List TypeId) : Except AnalysisError ShapeFact :=
  types.foldlM (fun joined u => do return joined.join (← g.classify u)) {}

/-- Facts that a fact takes in join to it, once it is one of them. -/
theorem foldlM_join_eq {fact : ShapeFact} {types : List TypeId}
    (hall : ∀ u ∈ types, ∃ nested, g.classify u = .ok nested ∧ fact.join nested = fact) :
    ∀ {joined : ShapeFact}, fact.join joined = fact → (joined = fact ∨ ∃ u ∈ types, g.classify u = .ok fact) →
      types.foldlM (fun joined u => do return joined.join (← g.classify u)) joined = .ok fact := by
  induction types with
  | nil =>
    rintro joined - (rfl | ⟨u, hu, -⟩)
    · rfl
    · exact absurd hu List.not_mem_nil
  | cons u rest ih =>
    intro joined hjoined hmet
    obtain ⟨nested, hnested, hin⟩ := hall u List.mem_cons_self
    rw [List.foldlM_cons, hnested]
    refine ih (fun v hv => hall v (List.mem_cons_of_mem u hv)) ?_ ?_
    · rw [← ShapeFact.join_assoc, hjoined, hin]
    · rcases hmet with rfl | ⟨v, hv, hfact⟩
      · exact .inl hin
      · rcases List.mem_cons.1 hv with rfl | hv
        · rw [hnested, Except.ok.injEq] at hfact
          rw [hfact, ShapeFact.join_comm]
          exact .inl hjoined
        · exact .inr ⟨v, hv, hfact⟩

/-- The fact of a type takes in the fact of every type it leads to. So it is the join of the facts of all these
types, in whatever order they are joined. -/
theorem fact_absorbs_nested (g : TypeGraph) (t : TypeId) (ht : t < g.size) :
    ∃ fact, g.classify t = .ok fact ∧
      (∀ u, g.Leads t u → ∃ nested, g.classify u = .ok nested ∧ fact.join nested = fact) ∧
      ∀ types, (∀ u, u ∈ types ↔ g.Leads t u) → g.joinOver types = .ok fact := by
  obtain ⟨unknown, cyclic, unbroken, shared, hfact, hunknown, hcyclic, hunbroken, hshared⟩ :=
    classify_eq_ofTests ht
  have habsorbs : ∀ u, g.Leads t u → ∃ nested, g.classify u = .ok nested ∧
      (ShapeFact.ofTests unknown cyclic unbroken shared).join nested = .ofTests unknown cyclic unbroken shared := by
    intro u hu
    obtain ⟨unknown', cyclic', unbroken', shared', hfact', hunknown', hcyclic', hunbroken', hshared'⟩ :=
      classify_eq_ofTests (hu.lt_size ht)
    have hless : cyclic' = true → cyclic = true := fun h => hcyclic.2 (.of_leads hu (hcyclic'.1 h))
    refine ⟨_, hfact', ShapeFact.join_ofTests (fun h => hunknown.2 (.of_leads hu (hunknown'.1 h))) hless
      (fun h => hunbroken.2 (.of_leads hu (hunbroken'.1 h))) fun hnone h => ?_⟩
    have hnone' : cyclic' = false := Bool.eq_false_iff.2 fun h => by simp [hless h] at hnone
    exact (hshared hnone).2 (.of_leads hu ((hshared' hnone').1 h))
  refine ⟨_, hfact, habsorbs, fun types htypes => ?_⟩
  exact foldlM_join_eq (fun u hu => habsorbs u ((htypes u).1 hu)) ShapeFact.join_default
    (.inr ⟨t, (htypes t).2 (.refl g t), hfact⟩)

/-- Of two types that refer to each other the first has the join of the facts of both. -/
theorem fact_absorbs_nested_couple : 0 < couple.size ∧ (∀ u, u ∈ [1, 0] ↔ couple.Leads 0 u) ∧
    couple.joinOver [1, 0] = couple.classify 0 := by
  have hsize : 0 < couple.size := by decide
  have htypes : ∀ u, u ∈ [1, 0] ↔ couple.Leads 0 u := by
    refine fun u => ⟨fun hu => ?_, fun hu => ?_⟩
    · rcases List.mem_pair.1 hu with rfl | rfl
      · exact couple_owns.1.leads
      · exact .refl couple 0
    · have hlt : u < 2 := hu.lt_size hsize
      interval_cases u <;> simp
  obtain ⟨fact, hfact, -, hjoin⟩ := fact_absorbs_nested couple 0 hsize
  exact ⟨hsize, htypes, (hjoin _ htypes).trans hfact.symm⟩

end TypeGraph

end Reclamation
