import Mathlib
import Reclamation.Proofs.Plan.FreezePoints

/-!
# Calls that are passed a local

A planned call that names a local is passed the object that the local refers to, so the local must have been
assigned by then (`Body.AssignedAt`). In a body that reads no local before it is assigned most calls see to
that by themselves. An object is made, and a handle to it, where its local is assigned; a reference is taken
where a copy has just been assigned; and a local dies where it has been read or assigned last, or on a jump
from where it was live, so that it has been assigned on the way there (`Body.ReadsAssigned.assignedAt_dies`).

Two calls are placed without regard to where their local has been assigned. The reference for whoever receives
a value is taken before each return, also before one that control reaches without having made the value. And a
value is frozen after the last assignment to a part of it, also if that is made through another owner on a way
on which the first one has no value. These two decide (`TypeGraph.assigned_iff`), and the first of them does
go wrong (`TypeGraph.acquired_unassigned`).
-/

set_option autoImplicit false

namespace Reclamation

namespace Body

variable {b : Body} {given : List LocalId} {l : LocalId} {loc : Location} {i : Instruction}

/-! ## The ways to a point -/

/-- Control comes to a point having made these steps. The call that is made in place of a statement assigns
what the statement does. -/
inductive Comes (b : Body) : ProgramPoint → List Step → Prop
  | entry : Comes b .entry []
  | before {steps : List Step} {loc : Location} : b.Path steps loc → Comes b (.before loc) steps
  | instead {steps : List Step} {loc : Location} {i : Instruction} :
      b.Path steps loc → b.instruction? loc = some i → Comes b (.instead loc) (steps ++ [.exec loc i])
  | after {steps : List Step} {loc : Location} {i : Instruction} :
      b.Path steps loc → b.instruction? loc = some i → Comes b (.after loc) (steps ++ [.exec loc i])
  | edge {steps : List Step} {loc : Location} {t : Terminator} {target : BlockId} :
      b.Path steps loc → b.instruction? loc = some (.terminator t) → target ∈ t.successors →
        Comes b (.edge loc.block target) (steps ++ [.exec loc (.terminator t), .jump loc.block target])

/-- One of the steps assigns a local. -/
def Assigns (steps : List Step) (l : LocalId) : Prop :=
  ∃ d j, .exec d j ∈ steps ∧ l ∈ j.effects.defs

/-- A local has a value at a point: it has one at the entry, or it is assigned on every way to the point. -/
def AssignedAt (b : Body) (given : List LocalId) (point : ProgramPoint) (l : LocalId) : Prop :=
  l ∈ given ∨ ∀ steps, b.Comes point steps → Assigns steps l

/-- A local that has a value at the entry has one everywhere. -/
theorem AssignedAt.of_not_given {point : ProgramPoint} (h : l ∉ given → b.AssignedAt given point l) :
    b.AssignedAt given point l := by
  by_cases hgiven : l ∈ given
  · exact .inl hgiven
  · exact h hgiven

theorem Assigns.append {steps : List Step} (h : Assigns steps l) (rest : List Step) :
    Assigns (steps ++ rest) l := by
  obtain ⟨d, j, hmem, hdef⟩ := h
  exact ⟨d, j, List.mem_append_left _ hmem, hdef⟩

theorem assigns_exec {steps : List Step} (hdef : l ∈ i.effects.defs) (rest : List Step) :
    Assigns (steps ++ .exec loc i :: rest) l :=
  ⟨loc, i, by simp, hdef⟩

/-! ## Where a local has been assigned -/

theorem assignedAt_instead (hi : b.instruction? loc = some i) (hdef : l ∈ i.effects.defs) :
    b.AssignedAt given (.instead loc) l := by
  refine .inr fun steps hsteps => ?_
  cases hsteps with
  | instead _ hj => exact assigns_exec (Option.some.inj (hi.symm.trans hj) ▸ hdef) []

theorem assignedAt_after (hi : b.instruction? loc = some i) (hdef : l ∈ i.effects.defs) :
    b.AssignedAt given (.after loc) l := by
  refine .inr fun steps hsteps => ?_
  cases hsteps with
  | after _ hj => exact assigns_exec (Option.some.inj (hi.symm.trans hj) ▸ hdef) []

theorem ReadsAssigned.assignedAt_read (h : b.ReadsAssigned l) (hi : b.instruction? loc = some i)
    (huse : l ∈ i.effects.uses) : b.AssignedAt given (.after loc) l := by
  refine .inr fun steps hsteps => ?_
  cases hsteps with
  | after hpath _ => exact Assigns.append (h _ _ _ hpath hi huse) _

/-- A local that is read only after it has been assigned has been assigned where it dies. -/
theorem ReadsAssigned.assignedAt_dies (h : b.ReadsAssigned l) (hb : b.Complete) {d : DeathPoint}
    (hd : d ∈ (Liveness.ofBody b).deathPoints l) : b.AssignedAt given d.point l := by
  cases d with
  | after loc =>
    obtain ⟨-, i, hi, htouches, -⟩ := (Liveness.after_mem_deathPoints hb).1 hd
    simp only [Effects.touches, Bool.or_eq_true, List.contains_iff_mem] at htouches
    rcases htouches with huse | hdef
    · exact h.assignedAt_read hi huse
    · exact assignedAt_after hi hdef
  | edge source target =>
    obtain ⟨-, -, hout, -⟩ := (Liveness.edge_mem_deathPoints hb).1 hd
    refine .inr fun steps hsteps => ?_
    cases hsteps with
    | @edge steps loc t _ hpath ht _ =>
      by_cases hdef : l ∈ t.effects.defs
      · exact assigns_exec hdef _
      · -- what is live after the terminator, and is not assigned by it, was live before it
        have hlive : (Liveness.ofBody b).liveAt l loc = true := by
          rw [Liveness.liveAt_exec ht, Liveness.liveAt_end ht, hout]
          simp [Effects.liveBefore, Instruction.effects, hdef]
        exact Assigns.append (h.of_liveAt hb hpath hlive) _

end Body

/-! ## Main result -/

section

variable {g : TypeGraph} {b : Body} {o : AnalysisOptions} {p : Plan} {s : AllocationSite} {given : List LocalId}
  {l : LocalId}

/-- The statement of an allocation assigns the local that owns its object first. -/
theorem Plan.Of.alloc_firstOwner (hp : p.Of g b o) (hs : s ∈ p.sites) (hl : s.firstOwner? = some l) :
    ∃ i, b.instruction? s.loc = some i ∧ l ∈ i.effects.defs := by
  obtain ⟨site, type, frozen, contents, halloc⟩ := hp.alloc hs
  have howners := hp.owners_eq hs
  have howner : l ∈ b.ownership.ownersOf s.place := howners ▸ AllocationSite.firstOwner?_mem hl
  obtain ⟨root, hroot, -⟩ := Ownership.mem_ownersOf.1 howner
  have hplace := Place.eq_ofLocal hroot
  rw [AllocationSite.firstOwner?, howners, hplace, Ownership.ownersOf_ofLocal_head] at hl
  obtain rfl := Option.some.inj hl
  refine ⟨_, halloc, ?_⟩
  rw [hplace]
  exact List.mem_singleton_self root

theorem AllocationSite.handOver_mem_calls {f : BodyFacts} (howned : s.isEmbedded = false)
    (hgone : s.decision.transfers = true) (hsym : s.strategy = .symmetric) {loc : Location} (hloc : loc ∈ f.returns) :
    s.callAt (.before loc) .symAcquire s.firstOwner? ∈ s.calls f := by
  have hmem : s.callAt (.before loc) .symAcquire s.firstOwner? ∈ s.handOverCalls f.returns := by
    rw [handOverCalls, if_pos hsym]
    exact List.mem_map.2 ⟨loc, hloc, rfl⟩
  simp [calls, howned, hgone, hmem]

/-- The references for whoever receives a value are taken where its first owner has one, and so is the value
frozen. -/
def AllocationSite.PassesAssigned (s : AllocationSite) (b : Body) (given : List LocalId) : Prop :=
  ∀ l, s.firstOwner? = some l →
    (s.decision.transfers = true → s.strategy = .symmetric →
      ∀ loc ∈ b.returnLocations, b.AssignedAt given (.before loc) l) ∧
    (s.decision.transfers = false → s.strategy = .scc →
      b.AssignedAt given (.after (s.frozenAfter b.ownership)) l)

/-- A call for an allocation is passed a local that has a value, unless it takes a reference for whoever
receives the value or freezes it. -/
theorem Plan.Of.assignedAt (hp : p.Of g b o) (hs : s ∈ p.sites) (hreads : ∀ l, l ∉ given → b.ReadsAssigned l)
    {c : PlannedCall} (hc : c ∈ s.calls (b.facts o)) (hl : c.subject = some l) :
    b.AssignedAt given c.point l ∨
      s.firstOwner? = some l ∧
        ((s.decision.transfers = true ∧ s.strategy = .symmetric ∧ c.call = .symAcquire ∧
          ∃ loc ∈ b.returnLocations, c.point = .before loc) ∨
        (s.decision.transfers = false ∧ s.strategy = .scc ∧ c.call = .sccFreeze ∧
          c.point = .after (s.frozenAfter b.ownership))) := by
  cases AllocationSite.callOf_of_mem hc with
  | make =>
    obtain ⟨i, hi, hdef⟩ := hp.alloc_firstOwner hs hl
    exact .inl (Body.assignedAt_instead hi hdef)
  | handle =>
    obtain ⟨i, hi, hdef⟩ := hp.alloc_firstOwner hs hl
    exact .inl (Body.assignedAt_after hi hdef)
  | @handOver loc _ hgone hsym hloc => exact .inr ⟨hl, .inl ⟨hgone, hsym, rfl, loc, hloc, rfl⟩⟩
  | freeze _ hstays hscc => exact .inr ⟨hl, .inr ⟨hstays, hscc, rfl, rfl⟩⟩
  | @acquire _ t _ _ _ ht =>
    obtain ⟨st, hst, his⟩ := Body.mem_transfers.1 ht
    obtain rfl : t.dest = l := Option.some.inj hl
    refine .inl (Body.assignedAt_after hst ?_)
    show t.dest ∈ st.effects.defs
    rw [his.effects]
    exact List.mem_singleton_self _
  | @release l' d _ _ _ _ hd =>
    obtain rfl : l' = l := Option.some.inj hl
    exact .inl (.of_not_given fun hgiven => (hreads l' hgiven).assignedAt_dies hp.complete hd)

/-- In a body that reads no local before it has a value each call of the plan is passed a local that has one,
except perhaps the references taken before a return for whoever receives a value, and the calls that freeze
one. All are exactly if these are. -/
theorem TypeGraph.assigned_iff (hp : g.plan b o = .ok p) (hreads : ∀ l, l ∉ given → b.ReadsAssigned l) :
    (∀ c ∈ p.calls, c.call ≠ .sccFreeze → (∀ loc ∈ b.returnLocations, c.point ≠ .before loc) →
      ∀ l, c.subject = some l → b.AssignedAt given c.point l) ∧
    ((∀ c ∈ p.calls, ∀ l, c.subject = some l → b.AssignedAt given c.point l) ↔
      ∀ s ∈ p.sites, s.PassesAssigned b given) := by
  have hof := TypeGraph.plan_eq_ok hp
  have hcases : ∀ c ∈ p.calls, ∀ l, c.subject = some l → ∃ s ∈ p.sites, c ∈ s.calls (b.facts o) := by
    intro c hc l hl
    obtain ⟨opening, closing, hcalls, hnone⟩ := hof.calls
    rw [hcalls, List.append_assoc, List.mem_append, List.mem_append] at hc
    rcases hc with hc | hc | hc
    · exact absurd hl (by simp [hnone c (List.mem_append_left _ hc)])
    · exact List.mem_flatMap.1 hc
    · exact absurd hl (by simp [hnone c (List.mem_append_right _ hc)])
  refine ⟨fun c hc hfreeze hbefore l hl => ?_, fun hall s hs l hl => ?_, fun hall c hc l hl => ?_⟩
  · obtain ⟨s, hs, hmem⟩ := hcases c hc l hl
    rcases hof.assignedAt hs hreads hmem hl with hassigned | ⟨-, ⟨-, -, -, loc, hloc, hpoint⟩ | ⟨-, -, hcall, -⟩⟩
    · exact hassigned
    · exact absurd hpoint (hbefore loc hloc)
    · exact absurd hcall hfreeze
  · have howned : s.isEmbedded = false := by
      have hne := List.ne_nil_of_mem (AllocationSite.firstOwner?_mem hl)
      simpa [AllocationSite.isEmbedded] using hne
    have hmem : ∀ c ∈ s.calls (b.facts o), c ∈ p.calls := fun c hc => (hof.calls_together hs).subset hc
    refine ⟨fun hgone hsym loc hloc => ?_, fun hstays hscc => ?_⟩
    · exact hall _ (hmem _ (AllocationSite.handOver_mem_calls howned hgone hsym hloc)) l hl
    · exact hall _ (hmem _ (AllocationSite.freeze_mem_calls howned hstays hscc)) l hl
  · obtain ⟨s, hs, hmem⟩ := hcases c hc l hl
    rcases hof.assignedAt hs hreads hmem hl with
      hassigned | ⟨hfirst, ⟨hgone, hsym, -, loc, hloc, hpoint⟩ | ⟨hstays, hscc, -, hpoint⟩⟩
    · exact hassigned
    · rw [hpoint]
      exact (hall s hs l hfirst).1 hgone hsym loc hloc
    · rw [hpoint]
      exact (hall s hs l hfirst).2 hstays hscc

end

/-! ## An object that is made on one of two ways -/

namespace Body

variable {b : Body} {l : LocalId}

/-- What stands in front of a position in its block has been executed. -/
theorem Path.block_executed {steps : List Step} {loc : Location} (h : b.Path steps loc) {k : Nat} {i : Instruction}
    (hi : b.instruction? ⟨loc.block, k⟩ = some i) (hk : k < loc.index) : .exec ⟨loc.block, k⟩ i ∈ steps := by
  induction h with
  | entry => exact absurd hk (Nat.not_lt_zero k)
  | @next steps loc s _ hs ih =>
    rw [List.mem_append, List.mem_singleton]
    rcases Nat.lt_succ_iff_lt_or_eq.1 hk with hlt | rfl
    · exact .inl (ih hi hlt)
    · exact .inr (congrArg _ (Option.some.inj (hi.symm.trans hs)))
  | jump => exact absurd hk (Nat.not_lt_zero k)

/-- A body reads a local after it has been assigned if each read stands in a block that has assigned it before,
or that is not the first one while that one assigns it. -/
theorem ReadsAssigned.of_blocks
    (hstatements : ∀ x ∈ b.statements, ∀ l ∈ x.2.effects.uses, ∃ y ∈ b.statements, l ∈ y.2.effects.defs ∧
      (y.1.block = x.1.block ∧ y.1.index < x.1.index ∨ y.1.block = entryBlock ∧ x.1.block ≠ entryBlock))
    (hterminators : ∀ x ∈ b.terminators, ∀ l ∈ x.2.effects.uses, ∃ y ∈ b.statements, l ∈ y.2.effects.defs ∧
      (y.1.block = x.1.block ∧ y.1.index < x.1.index ∨ y.1.block = entryBlock ∧ x.1.block ≠ entryBlock))
    (l : LocalId) : b.ReadsAssigned l := by
  intro steps loc i hpath hi huse
  obtain ⟨⟨⟨block, index⟩, st⟩, hmem, hdef, hwhere⟩ : ∃ y ∈ b.statements, l ∈ y.2.effects.defs ∧
      (y.1.block = loc.block ∧ y.1.index < loc.index ∨ y.1.block = entryBlock ∧ loc.block ≠ entryBlock) := by
    cases i with
    | statement st => exact hstatements _ (mem_statements.2 hi) l huse
    | terminator t => exact hterminators _ (mem_terminators.2 hi) l huse
  have hst := mem_statements.1 hmem
  rcases hwhere with ⟨hblock, hlt⟩ | ⟨hblock, hne⟩
  · obtain rfl : block = loc.block := hblock
    exact ⟨_, _, hpath.block_executed hst hlt, hdef⟩
  · obtain rfl : block = entryBlock := hblock
    exact ⟨_, _, hpath.entry_executed hst (.inl hne), hdef⟩

end Body

/-- Control goes one of two ways, and the first one returns an object. The object is made before, or on that
way only. -/
def branching (early : Bool) : Body where
  name := "sometimes"
  locals := Array.replicate 2 { kind := .temp }
  paramCount := 0
  blocks := #[
    { statements := if early then [.assign (.ofLocal 1) (.alloc 0 0 false [])] else []
      terminator := some (.switch (.const 0) [1] 2) },
    { statements := (if early then [] else [.assign (.ofLocal 1) (.alloc 0 0 false [])]) ++
        [.assign (.ofLocal 0) (.use (.copy (.ofLocal 1)))]
      terminator := some .ret },
    { statements := [.assign (.ofLocal 0) (.binary .eq (.const 0) (.const 0))]
      terminator := some .ret }]

theorem branching_reads (early : Bool) (l : LocalId) : (branching early).ReadsAssigned l := by
  refine Body.ReadsAssigned.of_blocks ?_ ?_ l
  · cases early <;> decide
  · cases early <;> decide

theorem branching_plan (early : Bool) : ∃ p, bond.plan (branching early) {} = .ok p :=
  TypeGraph.exists_plan {} (by cases early <;> rfl) (by cases early <;> decide)

section

variable {early : Bool} {p : Plan} {s : AllocationSite}

/-- Whoever calls the body receives the object. -/
theorem branching_site (hp : p.Of bond (branching early) {}) (hs : s ∈ p.sites) :
    s.strategy = .symmetric ∧ s.decision.transfers = true ∧ s.firstOwner? = some 1 := by
  obtain ⟨a, ha, hplan⟩ := hp.site s hs
  have halloc : a.type = 0 ∧ a.place = .ofLocal 1 ∧ a.frozen = false := by
    have hall : ∀ a ∈ (branching early).allocations, a.type = 0 ∧ a.place = .ofLocal 1 ∧ a.frozen = false := by
      cases early <;> decide
    exact hall a ha
  obtain ⟨htype, hplace, hfrozen⟩ := halloc
  have hfact : s.fact = { shape := .cyclic } := by
    have hclassify := hplan.fact
    rw [htype, bond_classify] at hclassify
    exact (Except.ok.inj hclassify).symm
  have howners : s.owners = (branching early).ownership.ownersOf (.ofLocal 1) := hplace ▸ hplan.owners
  refine ⟨?_, ?_, ?_⟩
  · rw [AllocationSite.strategy, hplan.decision, BodyFacts.routeInput, hfact, hfrozen]
    rfl
  · refine Bool.eq_true_of_not_eq_false fun hstays => hp.returnLocal_notMem hs hstays ?_
    have hcopy : ∃ t ∈ (branching early).ownership.transfers, t.source = 1 ∧ t.dest = returnLocal := by
      cases early <;> decide
    rw [howners]
    exact Ownership.mem_ownersOf.2 ⟨1, rfl, .single hcopy⟩
  · rw [AllocationSite.firstOwner?, howners]
    exact Ownership.ownersOf_ofLocal_head _ 1

end

/-- Where the object is made before control goes one way or the other, each call is passed a local that has been
assigned. -/
theorem TypeGraph.assigned_early : ∃ p, bond.plan (branching true) {} = .ok p ∧
    (∀ l, l ∉ ([] : List LocalId) → (branching true).ReadsAssigned l) ∧
    ∀ c ∈ p.calls, ∀ l, c.subject = some l → (branching true).AssignedAt [] c.point l := by
  obtain ⟨p, hp⟩ := branching_plan true
  have hreads : ∀ l, l ∉ ([] : List LocalId) → (branching true).ReadsAssigned l := fun l _ => branching_reads true l
  refine ⟨p, hp, hreads, (TypeGraph.assigned_iff hp hreads).2.2 fun s hs l hl => ⟨fun _ _ loc hloc => ?_, ?_⟩⟩
  · obtain ⟨-, -, hfirst⟩ := branching_site (TypeGraph.plan_eq_ok hp) hs
    obtain rfl := Option.some.inj (hfirst.symm.trans hl)
    have hlater : ∀ loc ∈ (branching true).returnLocations, loc.block ≠ entryBlock := by decide
    refine .inr fun steps hsteps => ?_
    cases hsteps with
    | before hpath =>
      have hi : (branching true).instruction? ⟨entryBlock, 0⟩ =
        some (.statement (.assign (.ofLocal 1) (.alloc 0 0 false []))) := rfl
      exact ⟨_, _, hpath.entry_executed hi (.inl (hlater loc hloc)), by decide⟩
  · intro hstays
    exact absurd (hstays.symm.trans (branching_site (TypeGraph.plan_eq_ok hp) hs).2.1) (by simp)

/-- Where the object is made on the first way only, a reference to it is taken at the end of the second one, on
which its local is never assigned. -/
theorem TypeGraph.acquired_unassigned : ∃ p c steps, (bond.detectBackEdges {}).1 = bond ∧
    bond.plan (branching false) {} = .ok p ∧ (∀ l, (branching false).ReadsAssigned l) ∧ c ∈ p.calls ∧
    c.call = .symAcquire ∧ c.subject = some 1 ∧ (branching false).Comes c.point steps ∧
    ¬ Body.Assigns steps 1 := by
  obtain ⟨p, hp⟩ := branching_plan false
  have hof := TypeGraph.plan_eq_ok hp
  obtain ⟨s, hs, -⟩ := hof.planned ⟨⟨1, 0⟩, .ofLocal 1, 0, 0, false⟩ (by decide)
  obtain ⟨hsym, hgone, hfirst⟩ := branching_site hof hs
  have howned : s.isEmbedded = false := by
    have hne := List.ne_nil_of_mem (AllocationSite.firstOwner?_mem hfirst)
    simpa [AllocationSite.isEmbedded] using hne
  have hreturn : (⟨2, 1⟩ : Location) ∈ ((branching false).facts {}).returns := by decide
  have hmem := AllocationSite.handOver_mem_calls howned hgone hsym hreturn
  have hswitch : (branching false).instruction? ⟨0, 0⟩ = some (.terminator (.switch (.const 0) [1] 2)) := rfl
  have hother : 2 ∈ (Terminator.switch (.const 0) [1] 2).successors := by decide
  have hpath : (branching false).Path _ ⟨2, 1⟩ := (Body.Path.entry.jump hswitch hother).next rfl
  refine ⟨p, _, _, bond_prepared, hp, branching_reads false, (hof.calls_together hs).subset hmem, rfl, hfirst,
    .before hpath, ?_⟩
  rintro ⟨d, j, hj, hdef⟩
  simp only [List.nil_append, List.cons_append, List.mem_cons, Body.Step.exec.injEq, reduceCtorEq,
    List.not_mem_nil, or_false, false_or] at hj
  rcases hj with ⟨-, rfl⟩ | ⟨-, rfl⟩
  · exact absurd hdef (by decide)
  · exact absurd hdef (by decide)

end Reclamation
