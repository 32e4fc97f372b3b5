import Mathlib
import Reclamation.Proofs.Analysis.Detours
import Reclamation.Proofs.Plan.Lowering
import Reclamation.Proofs.Plan.Sharing

/-!
# Objects that are made in place

An object that is made in a field or behind a pointer is planned by other rules than one that is made for a local
and moved there. In place no local owns the object, and it is planned with the state of the local from which its
place is found. By way of a local that local owns it, and escape analysis says how far what is put into the place
escapes.

The rules agree for a field of a value: the decision is the same. They do not for what is kept behind a
pointer. Escape analysis lets it escape globally, since there may be anything, while the other rule does not
look at the way to the place. So an object is planned as carefully as by way of a local exactly if no pointer
is followed, or the local from which it is found escapes globally itself (`TypeGraph.plan_viaLocal`). Otherwise
it may be put into the arena of the body (`TypeGraph.arena_behind_pointer`).
-/

set_option autoImplicit false

namespace Reclamation

/-! ## How the object is planned -/

section

variable {g : TypeGraph} {b : Body} {o : AnalysisOptions} {p : Plan} {s : AllocationSite} {t : LocalId}

theorem TypeGraph.lt_size_of_classify {type : TypeId} {fact : ShapeFact} (h : g.classify type = .ok fact) :
    type < g.size := by
  by_contra hnot
  have hnode : g.node type = .error (.unknownType type) := by
    rw [node, Array.getElem?_eq_none (Nat.le_of_not_lt hnot)]
  simp [classify, reachable, hnode, bind, Except.bind] at h

/-- What is planned for an allocation of the body. -/
theorem TypeGraph.plan_of_mem (hp : g.plan b o = .ok p) (hs : s ∈ p.sites) :
    s.allocation ∈ b.allocations ∧ s.allocation.plan (b.facts o) g o = .ok s := by
  obtain ⟨-, hsites, -⟩ := TypeGraph.plan_eq_ok_iff.1 hp
  obtain ⟨a, ha, hplan⟩ := exists_left_of_forall₂ hsites s hs
  rw [Allocation.allocation_of_eq_ok hplan]
  exact ⟨ha, hplan⟩

/-- A body that goes by way of a local can be planned if the body can. -/
theorem TypeGraph.exists_plan_viaLocal (hp : g.plan b o = .ok p) (hs : s ∈ p.sites) :
    ∃ p', g.plan (b.viaLocal s.loc t) o = .ok p' := by
  have hof := TypeGraph.plan_eq_ok hp
  have htypes : ∀ a ∈ b.allocations, a.type < g.size := by
    intro a ha
    obtain ⟨_, -, hplan⟩ := hof.planned a ha
    exact TypeGraph.lt_size_of_classify hplan.fact
  obtain ⟨contents, hloc⟩ := Body.mem_allocations.1 (TypeGraph.plan_of_mem hp hs).1
  refine TypeGraph.exists_plan o (Body.check_of_complete hof.complete.viaLocal) fun a ha => ?_
  obtain ⟨contents', ha⟩ := Body.mem_allocations.1 ha
  rcases (Body.has_viaLocal hloc).1 ⟨a.loc, ha⟩ with heq | heq | ⟨loc, hloc'⟩
  · have htype : a.type = s.type := by
      simp only [Instruction.statement.injEq, Statement.assign.injEq, Rvalue.alloc.injEq] at heq
      exact heq.2.2.1
    rw [htype]
    exact htypes _ (TypeGraph.plan_of_mem hp hs).1
  · simp at heq
  · exact htypes ⟨loc, a.place, a.site, a.type, a.frozen⟩ (Body.mem_allocations.2 ⟨contents', hloc'⟩)

end

namespace Body

variable {b : Body} {loc : Location} {t : LocalId} {p : Place} {site : SiteId} {type : TypeId} {frozen : Bool}
  {contents : List Operand} {o : AnalysisOptions}
  (hloc : b.instruction? loc = some (.statement (.assign p (.alloc site type frozen contents)))) (ht : b.Fresh t)
include hloc ht

/-- The local escapes globally if a pointer is followed, and else like the local from which the place is
found. -/
theorem state_viaLocal : ((b.viaLocal loc t).facts o).escape.state t =
    if p.isIndirect then .global else (b.facts o).escape.state p.base := by
  have hdetour := b.detour_viaLocal hloc ht o
  have hglobal := hdetour.mem_reached_iff (s := .global)
  have harg := hdetour.mem_reached_iff (s := .arg)
  cases hindirect : p.isIndirect with
  | true =>
    rw [if_pos rfl]
    exact if_pos (List.contains_iff_mem.2 (hglobal.2 (.inl hindirect)))
  | false =>
    simp only [hindirect, Bool.false_eq_true, false_or] at hglobal harg
    rw [if_neg Bool.false_ne_true, EscapeFacts.state, EscapeFacts.state]
    simp only [facts, escape, List.contains_eq_mem, hglobal, harg]

theorem crosses_viaLocal :
    ((b.viaLocal loc t).facts o).escape.crosses t = (b.facts o).escape.crosses p.base := by
  simp only [EscapeFacts.crosses, facts, escape, List.contains_eq_mem,
    (b.detour_viaLocal hloc ht o).mem_crossing_iff]

/-- No closure captures the local. -/
theorem not_isCaptured_viaLocal : ((b.viaLocal loc t).facts o).escape.isCaptured t = false := by
  refine List.any_eq_false.2 fun x hx => ?_
  rw [Bool.not_eq_true, ← Bool.not_eq_true, List.contains_iff_mem]
  intro hcaptured
  obtain ⟨⟨d, s⟩, hs, hclosure⟩ := List.mem_filterMap.1 hx
  cases s with
  | assign q value =>
    cases value with
    | closure captures =>
      obtain rfl := Option.some.inj hclosure
      rcases (has_viaLocal hloc).1 ⟨d, mem_statements.1 hs⟩ with heq | heq | hhas
      · simp at heq
      · simp at heq
      · have htouches : (Instruction.statement (.assign q (.closure captures))).effects.touches t = true :=
          Effects.touches_write.2 (.inl hcaptured)
        exact absurd (htouches.symm.trans (ht.untouched _ hhas)) (by simp)
    | use | alloc | ref | binary => exact absurd hclosure (by simp)
  | storeGlobal | send | spawn | storageLive | storageDead | nop => exact absurd hclosure (by simp)

/-- The local is handed to no other one. -/
theorem source_ne_of_viaLocal (hp : p.local? = none) :
    ∀ x ∈ (b.viaLocal loc t).ownership.transfers, x.source ≠ t := by
  intro x hx hsource
  obtain ⟨s, hs, his⟩ := mem_transfers.1 hx
  rcases (has_viaLocal hloc).1 ⟨x.loc, hs⟩ with heq | heq | hhas
  · rw [his.eq] at heq
    simp at heq
  · rw [his.eq] at heq
    simp only [Instruction.statement.injEq, Statement.assign.injEq] at heq
    rw [← heq.1] at hp
    exact absurd hp (by simp)
  · have htouches := ht.untouched _ hhas
    simp [Instruction.effects, his.effects, Effects.touches, hsource] at htouches

end Body

section

variable {g : TypeGraph} {b : Body} {o : AnalysisOptions} {p : Plan} {s : AllocationSite} {t : LocalId}

/-- No local owns an object that is made in a part of a value or behind a pointer. It is planned with the state of
the local from which it is found. -/
theorem Allocation.Planned.in_place {a : Allocation} {f : BodyFacts} (h : a.Planned f g o s)
    (hplace : a.place.local? = none) : s.owners = [] ∧ s.escape = f.escape.state a.place.base := by
  have howners : s.owners = [] := by rw [h.owners, Ownership.ownersOf, hplace]
  refine ⟨howners, ?_⟩
  rw [h.escape, BodyFacts.escapeOf, howners]
  rfl

/-- What is known of an object that is made for the local is what is known of it in its place, except perhaps how
far it escapes. -/
theorem BodyFacts.routeInput_viaLocal (hp : g.plan b o = .ok p) (hs : s ∈ p.sites) (hplace : s.place.local? = none)
    (ht : b.Fresh t) : ((b.viaLocal s.loc t).facts o).routeInput { s.allocation with place := .ofLocal t } [t] s.fact =
      { (b.facts o).routeInput s.allocation s.owners s.fact with
        escape := if s.place.isIndirect then .global else s.escape } := by
  obtain ⟨hmem, hplan⟩ := TypeGraph.plan_of_mem hp hs
  have hplanned := Allocation.planned_of_eq_ok hplan
  obtain ⟨contents, hloc⟩ := Body.mem_allocations.1 hmem
  have hinPlace : s.owners = [] ∧ s.escape = (b.facts o).escape.state s.place.base := hplanned.in_place hplace
  obtain ⟨howners, hescape⟩ := hinPlace
  have hjoin : ∀ u : EscapeState, EscapeState.none.join u = u := by
    intro u
    cases u <;> rfl
  have hcopies : ((b.viaLocal s.loc t).facts o).ownership.copiesOf t = [] := by
    refine List.map_eq_nil_iff.2 (List.filter_eq_nil_iff.2 fun x hx => ?_)
    simp [Body.source_ne_of_viaLocal hloc ht hplace x hx]
  have hstate : ((b.viaLocal s.loc t).facts o).escape.state t =
      if s.place.isIndirect then .global else (b.facts o).escape.state s.place.base := Body.state_viaLocal hloc ht
  have hcrosses : ((b.viaLocal s.loc t).facts o).escape.crosses t =
      (b.facts o).escape.crosses s.allocation.place.base := Body.crosses_viaLocal hloc ht
  have hcaptured : ((b.viaLocal s.loc t).facts o).escape.isCaptured t = false := Body.not_isCaptured_viaLocal hloc ht
  simp only [routeInput, escapeOf, crossesOf, howners, hescape, hstate, hcrosses, hcaptured, hcopies, hjoin,
    List.isEmpty_cons, List.isEmpty_nil, List.foldl_cons, List.foldl_nil, List.any_cons, List.any_nil,
    Bool.or_false, Bool.not_true, Bool.false_eq_true, if_false, if_true]

theorem ShapeFact.strategy_ne_arena (f : ShapeFact) (frozen : Bool) : f.strategy frozen ≠ .arena := by
  obtain ⟨shape, broken, unknown⟩ := f
  cases shape <;> cases broken <;> cases unknown <;> cases frozen <;> decide

/-- What escapes is not put into an arena. -/
theorem RouteInput.strategy_ne_arena {i : RouteInput} (h : i.escape = .global) (arenaOptIn : Bool) :
    (i.route arenaOptIn).strategy ≠ .arena := by
  have hfits : i.fitsArena = false := by simp [fitsArena, h]
  have hbase : (i.baseRoute arenaOptIn).1 ≠ .arena := by
    have hshape := i.fact.strategy_ne_arena i.frozen
    cases arenaOptIn with
    | true => simpa [baseRoute, hfits] using hshape
    | false => simpa [baseRoute] using hshape
  simp only [route, fullRoute]
  split
  · simp
  · exact hbase

/-- What is planned for an object that is made for the local. -/
theorem TypeGraph.exists_site_viaLocal (hp : g.plan b o = .ok p) (hs : s ∈ p.sites) (hplace : s.place.local? = none)
    (ht : b.Fresh t) : ∃ p' s', g.plan (b.viaLocal s.loc t) o = .ok p' ∧ s' ∈ p'.sites ∧
      s'.allocation = { s.allocation with place := .ofLocal t } ∧
      s'.escape = (if s.place.isIndirect then .global else s.escape) ∧
      s'.decision = RouteInput.route { (b.facts o).routeInput s.allocation s.owners s.fact with
        escape := if s.place.isIndirect then .global else s.escape } o.arenaOptIn := by
  obtain ⟨hmem, hplan⟩ := TypeGraph.plan_of_mem hp hs
  have hplanned := Allocation.planned_of_eq_ok hplan
  obtain ⟨contents, hloc⟩ := Body.mem_allocations.1 hmem
  obtain ⟨p', hp'⟩ := TypeGraph.exists_plan_viaLocal (t := t) hp hs
  obtain ⟨-, hsites, -⟩ := TypeGraph.plan_eq_ok_iff.1 hp'
  obtain ⟨s', hs', hplan'⟩ := exists_right_of_forall₂ hsites { s.allocation with place := .ofLocal t }
    (Body.mem_allocations.2 ⟨contents, Body.instruction?_viaLocal hloc⟩)
  have hplanned' := Allocation.planned_of_eq_ok hplan'
  have howners : s'.owners = [t] :=
    hplanned'.owners.trans (Ownership.ownersOf_eq_singleton (Body.source_ne_of_viaLocal hloc ht hplace))
  have hfact : s'.fact = s.fact := Except.ok.inj (hplanned'.fact.symm.trans hplanned.fact)
  have hinput := BodyFacts.routeInput_viaLocal hp hs hplace ht
  refine ⟨p', s', hp', hs', Allocation.allocation_of_eq_ok hplan', ?_, ?_⟩
  · rw [hplanned'.escape, howners]
    exact congrArg RouteInput.escape hinput
  · rw [hplanned'.decision, howners, hfact, hinput]

/-- An object that is made in a part of a value or behind a pointer, and the same object made for a fresh local and
moved there. If no pointer is followed the decisions are the same. Behind a pointer the object escapes globally
by way of the local and is not put into an arena. So it is planned as carefully in place exactly if no pointer is
followed or it escapes globally there too. -/
theorem TypeGraph.plan_viaLocal (hp : g.plan b o = .ok p) (hs : s ∈ p.sites) (hplace : s.place.local? = none)
    (ht : b.Fresh t) : ∃ p' s', g.plan (b.viaLocal s.loc t) o = .ok p' ∧ s' ∈ p'.sites ∧
      s'.allocation = { s.allocation with place := .ofLocal t } ∧
      (s.place.isIndirect = false → s'.escape = s.escape ∧ s'.decision = s.decision) ∧
      (s.place.isIndirect = true → s'.escape = .global ∧ s'.strategy ≠ .arena) ∧
      ((s'.escape.rank ≤ s.escape.rank ∧ (s.place.isIndirect = true → s.escape ≠ .none ∧ s.strategy ≠ .arena)) ↔
        (s.place.isIndirect = true → s.escape = .global)) := by
  have hplanned := Allocation.planned_of_eq_ok (TypeGraph.plan_of_mem hp hs).2
  obtain ⟨p', s', hp', hs', hallocation, hescape, hdecision⟩ := TypeGraph.exists_site_viaLocal hp hs hplace ht
  have hglobal : s.escape = .global → s.strategy ≠ .arena := by
    intro hglobal
    rw [AllocationSite.strategy, hplanned.decision]
    exact RouteInput.strategy_ne_arena (hplanned.escape.symm.trans hglobal) _
  refine ⟨p', s', hp', hs', hallocation, fun hdirect => ?_, fun hindirect => ?_, ?_⟩
  · rw [hdirect, if_neg Bool.false_ne_true] at hescape hdecision
    refine ⟨hescape, hdecision.trans ?_⟩
    rw [hplanned.decision, hplanned.escape]
    rfl
  · rw [hindirect, if_pos rfl] at hescape hdecision
    refine ⟨hescape, ?_⟩
    rw [AllocationSite.strategy, hdecision]
    exact RouteInput.strategy_ne_arena rfl _
  · rw [hescape]
    cases hindirect : s.place.isIndirect with
    | false => simp
    | true =>
      constructor
      · rintro ⟨hle, -⟩ -
        exact EscapeState.rank_injective (Nat.le_antisymm (by cases s.escape <;> decide) hle)
      · intro h
        have hstate := h rfl
        exact ⟨by rw [hstate]; exact Nat.le_refl _, fun _ => ⟨by simp [hstate], hglobal hstate⟩⟩

end

/-! ## An object inside another one -/

/-- An object is made behind a pointer to another one, or in a field of it. -/
def nesting (behind : Bool) : Body where
  name := "behind"
  locals := Array.replicate 2 { kind := .temp }
  paramCount := 0
  blocks := #[{
    statements := [.assign (.ofLocal 1) (.alloc 0 0 false []),
      .assign ⟨1, [if behind then .deref else .field 0]⟩ (.alloc 1 0 false []),
      .assign (.ofLocal 0) (.binary .eq (.copy (.ofLocal 1)) (.const 0))]
    terminator := some .ret }]

/-- Objects that stay may be put into an arena. -/
def withArena : AnalysisOptions :=
  { arenaOptIn := true }

section

variable (behind : Bool)

theorem nesting_plan : ∃ p s, bond.plan (nesting behind) withArena = .ok p ∧ s ∈ p.sites ∧
    s.allocation = ⟨⟨0, 1⟩, ⟨1, [if behind then .deref else .field 0]⟩, 1, 0, false⟩ := by
  have hallocations : (nesting behind).allocations =
      [⟨⟨0, 0⟩, .ofLocal 1, 0, 0, false⟩, ⟨⟨0, 1⟩, ⟨1, [if behind then .deref else .field 0]⟩, 1, 0, false⟩] := rfl
  obtain ⟨p, hp⟩ := TypeGraph.exists_plan (g := bond) (b := nesting behind) withArena rfl
    (by simp [hallocations, TypeGraph.size, bond])
  have hmem : ⟨⟨0, 1⟩, ⟨1, [if behind then .deref else .field 0]⟩, 1, 0, false⟩ ∈ p.sites.map (·.allocation) := by
    rw [TypeGraph.allocation_sites hp, hallocations]
    simp
  obtain ⟨s, hs, hallocation⟩ := List.mem_map.1 hmem
  exact ⟨p, s, hp, hs, hallocation⟩

theorem nesting_fresh : (nesting behind).Fresh 2 where
  ne_return := by decide
  notMem_params := by cases behind <;> decide
  untouched i hi := by
    have hstatements : ∀ x ∈ (nesting behind).statements, x.2.effects.touches 2 = false := by
      cases behind <;> decide
    have hterminators : ∀ x ∈ (nesting behind).terminators, x.2.effects.touches 2 = false := by
      cases behind <;> decide
    obtain ⟨loc, hi⟩ := hi
    cases i with
    | statement st => exact hstatements _ (Body.mem_statements.2 hi)
    | terminator t => exact hterminators _ (Body.mem_terminators.2 hi)

/-- The outer object stays in the body. -/
theorem nesting_stays : ((nesting behind).facts withArena).escape.state 1 = .none ∧
    ((nesting behind).facts withArena).escape.crosses 1 = false := by
  have hconstraints : (nesting behind).escapeConstraints withArena = [.atLeast 0 .global] := by
    cases behind <;> rfl
  have hnot : ∀ u, 1 ∉ EscapeConstraint.reached ((nesting behind).escapeConstraints withArena) u := by
    intro u hmem
    rw [hconstraints] at hmem
    refine absurd (EscapeConstraint.of_mem_reached (P := (· = 0)) (fun l t hc _ => ?_) (fun l other hc _ => ?_) hmem)
      (by decide)
    · exact (EscapeConstraint.atLeast.inj (List.mem_singleton.1 hc)).1
    · simp at hc
  have hcrosses : 1 ∉ EscapeConstraint.crossing ((nesting behind).escapeConstraints withArena) := by
    intro hmem
    rw [hconstraints] at hmem
    exact EscapeConstraint.of_mem_crossing (P := fun _ => False) (by simp) (by simp) hmem
  constructor
  · simp [EscapeFacts.state, Body.facts, Body.escape, hnot]
  · simp [EscapeFacts.crosses, Body.facts, Body.escape, hcrosses]

end

/-- An object in a field is planned the same way by way of a local. -/
theorem TypeGraph.plan_viaLocal_field : ∃ p s p' s', bond.plan (nesting false) withArena = .ok p ∧ s ∈ p.sites ∧
    s.place = ⟨1, [.field 0]⟩ ∧ bond.plan ((nesting false).viaLocal s.loc 2) withArena = .ok p' ∧ s' ∈ p'.sites ∧
    s'.place = .ofLocal 2 ∧ s'.escape = s.escape ∧ s'.decision = s.decision := by
  obtain ⟨p, s, hp, hs, hallocation⟩ := nesting_plan false
  have hplace : s.place = ⟨1, [.field 0]⟩ := congrArg Allocation.place hallocation
  obtain ⟨p', s', hp', hs', hallocation', hdirect, -⟩ := TypeGraph.plan_viaLocal hp hs
    (by rw [hplace]; rfl) (nesting_fresh false)
  obtain ⟨hescape, hdecision⟩ := hdirect (by rw [hplace]; rfl)
  exact ⟨p, s, p', s', hp, hs, hplace, hp', hs', congrArg Allocation.place hallocation', hescape, hdecision⟩

/-- An object behind a pointer is put into the arena of the body, while it escapes globally by way of a local. -/
theorem TypeGraph.arena_behind_pointer : ∃ p s p' s', (bond.detectBackEdges withArena).1 = bond ∧
    bond.plan (nesting true) withArena = .ok p ∧ s ∈ p.sites ∧ s.place = ⟨1, [.deref]⟩ ∧ s.escape = .none ∧
    s.strategy = .arena ∧ (nesting true).Fresh 2 ∧
    bond.plan ((nesting true).viaLocal s.loc 2) withArena = .ok p' ∧ s' ∈ p'.sites ∧ s'.loc = s.loc ∧
    s'.place = .ofLocal 2 ∧ s'.escape = .global := by
  obtain ⟨p, s, hp, hs, hallocation⟩ := nesting_plan true
  have hplace : s.place = ⟨1, [.deref]⟩ := congrArg Allocation.place hallocation
  obtain ⟨p', s', hp', hs', hallocation', hescape', -⟩ := TypeGraph.exists_site_viaLocal hp hs
    (by rw [hplace]; rfl) (nesting_fresh true)
  have hplanned := Allocation.planned_of_eq_ok (TypeGraph.plan_of_mem hp hs).2
  rw [hallocation] at hplanned
  obtain ⟨howners, hescape⟩ := hplanned.in_place rfl
  have hstays := nesting_stays true
  have hfact : s.fact = { shape := .cyclic } := Except.ok.inj (hplanned.fact.symm.trans bond_classify)
  have hstate : s.escape = .none := hescape.trans hstays.1
  have hprepared : (bond.detectBackEdges withArena).1 = bond := by
    rw [TypeGraph.detectBackEdges_of_annotated (by decide)]
    simp [TypeGraph.annotatedOnly, bond, Field.declare]
  refine ⟨p, s, p', s', hprepared, hp, hs, hplace, hstate, ?_, nesting_fresh true, hp', hs',
    congrArg Allocation.loc hallocation', congrArg Allocation.place hallocation', ?_⟩
  · have hinput : ((nesting true).facts withArena).routeInput ⟨⟨0, 1⟩, ⟨1, [.deref]⟩, 1, 0, false⟩ s.owners s.fact =
        { fact := { shape := .cyclic } } := by
      simp only [BodyFacts.routeInput, BodyFacts.escapeOf, BodyFacts.crossesOf, howners, hfact, List.isEmpty_nil,
        if_true, List.any_nil, hstays.1, hstays.2]
    rw [AllocationSite.strategy, hplanned.decision]
    exact congrArg (fun i => (RouteInput.route i true).strategy) hinput
  · rw [hescape', hplace]
    rfl

end Reclamation
