import Mathlib
import Reclamation.Proofs.Plan.Trees

/-!
# Where references are given up

The releases of a plan are its calls that give up the reference of a local. Each allocation whose owners
give its object up adds one release for each owner and each point where this owner dies without being moved
away (`releases_eq`), and no other call is a release.

So a local is released where it dies if some such allocation belongs to it (`mem_releases`), and it is
released once exactly if no second one does (`nodup_releases_iff`). A local that is assigned a second object
owns both allocations, and each of its deaths is then taken for the death of both objects: the first one is
freed twice where the local dies first, and what it had been is freed again where it dies next
(`released_twice`).
-/

set_option autoImplicit false

namespace Reclamation

/-- Whether a call gives up a reference of its caller. -/
def EntryPoint.isRelease : EntryPoint → Bool
  | freeTree | decRef | sccRelease | symRelease => true
  | _ => false

/-- Where and by which local a call gives a reference up, if it does. -/
def PlannedCall.release? (c : PlannedCall) : Option (ProgramPoint × LocalId) :=
  if c.call.isRelease then c.subject.map fun l => (c.point, l) else none

/-- The releases of a plan, each with its point and its local. -/
def Plan.releases (p : Plan) : List (ProgramPoint × LocalId) :=
  p.calls.filterMap PlannedCall.release?

theorem filterMap_release?_eq_nil {calls : List PlannedCall}
    (h : ∀ c ∈ calls, c.call.isRelease = false ∨ c.subject = none) :
    calls.filterMap PlannedCall.release? = [] := by
  refine List.filterMap_eq_nil_iff.2 fun c hc => ?_
  rcases h c hc with h | h
  · simp [PlannedCall.release?, h]
  · simp [PlannedCall.release?, h]

/-! ## The releases of an allocation -/

namespace AllocationSite

/-- Whether the owners of an allocation give its object up in the body. -/
def isReleased (s : AllocationSite) : Bool :=
  !s.isEmbedded && !s.decision.transfers && s.strategy != .arena

/-- Where the owners of an allocation die without being moved away. -/
def ownerDeaths (s : AllocationSite) (own : Ownership) (live : Liveness) : List (ProgramPoint × LocalId) :=
  s.owners.flatMap fun l => ((live.deathPoints l).filter (releasesAt own l)).map fun d => (d.point, l)

variable {s : AllocationSite}

theorem isRelease_of_mem_allocCalls {c : PlannedCall} (hc : c ∈ s.allocCalls) : c.call.isRelease = false := by
  rcases mem_allocCalls.1 hc with rfl | ⟨-, -, rfl⟩
  · show s.allocator.isRelease = false
    rw [allocator]
    split
    · rfl
    · cases s.strategy <;> rfl
  · rfl

theorem isRelease_of_mem_handOverCalls {returns : List Location} {c : PlannedCall}
    (hc : c ∈ s.handOverCalls returns) : c.call.isRelease = false := by
  rw [handOverCalls] at hc
  split at hc
  · obtain ⟨loc, -, rfl⟩ := List.mem_map.1 hc
    rfl
  · simp at hc

theorem isRelease_of_mem_freezeCalls {own : Ownership} {c : PlannedCall} (hc : c ∈ s.freezeCalls own) :
    c.call.isRelease = false := by
  rw [freezeCalls] at hc
  split at hc
  · rw [List.mem_singleton.1 hc]
    rfl
  · simp at hc

theorem isRelease_of_mem_acquireCalls {own : Ownership} {c : PlannedCall} (hc : c ∈ s.acquireCalls own) :
    c.call.isRelease = false := by
  obtain ⟨call, t, hcounts, -, -, -, rfl⟩ := mem_acquireCalls.1 hc
  show call.isRelease = false
  cases hs : s.strategy with
  | rc | symmetric =>
    rw [hs] at hcounts
    obtain rfl := Option.some.inj hcounts
    rfl
  | asap | scc | arena =>
    rw [hs] at hcounts
    exact absurd hcounts (by simp [Strategy.acquire?])

theorem isRelease_release {strategy : Strategy} (h : strategy ≠ .arena) : strategy.release.isRelease = true := by
  cases strategy with
  | arena => exact absurd rfl h
  | asap | rc | scc | symmetric => rfl

theorem filterMap_releaseCalls (own : Ownership) (live : Liveness) (h : s.strategy ≠ .arena) :
    (s.releaseCalls own live).filterMap PlannedCall.release? = s.ownerDeaths own live := by
  rw [releaseCalls, if_neg h, List.filterMap_flatMap, ownerDeaths]
  refine List.flatMap_congr fun l _ => ?_
  rw [List.filterMap_map, ← List.filterMap_eq_map]
  refine List.filterMap_congr fun d _ => ?_
  simp [PlannedCall.release?, callAt, isRelease_release h]

/-- The releases among the calls of an allocation. -/
theorem filterMap_calls (s : AllocationSite) (f : BodyFacts) :
    (s.calls f).filterMap PlannedCall.release? =
      if s.isReleased then s.ownerDeaths f.ownership f.liveness else [] := by
  have halloc : s.allocCalls.filterMap PlannedCall.release? = [] :=
    filterMap_release?_eq_nil fun _ hc => .inl (isRelease_of_mem_allocCalls hc)
  have hhand : (s.handOverCalls f.returns).filterMap PlannedCall.release? = [] :=
    filterMap_release?_eq_nil fun _ hc => .inl (isRelease_of_mem_handOverCalls hc)
  have hfreeze : (s.freezeCalls f.ownership).filterMap PlannedCall.release? = [] :=
    filterMap_release?_eq_nil fun _ hc => .inl (isRelease_of_mem_freezeCalls hc)
  have hacquire : (s.acquireCalls f.ownership).filterMap PlannedCall.release? = [] :=
    filterMap_release?_eq_nil fun _ hc => .inl (isRelease_of_mem_acquireCalls hc)
  rw [calls, List.filterMap_append, halloc, List.nil_append]
  by_cases hembedded : s.isEmbedded = true
  · simp [isReleased, hembedded]
  rw [Bool.not_eq_true] at hembedded
  by_cases htransfers : s.decision.transfers = true
  · simp [isReleased, hembedded, htransfers, hhand]
  rw [Bool.not_eq_true] at htransfers
  simp only [hembedded, htransfers, Bool.false_eq_true, if_false, List.filterMap_append, hfreeze, hacquire,
    List.nil_append]
  by_cases harena : s.strategy = .arena
  · simp [isReleased, harena, releaseCalls]
  · simp [isReleased, hembedded, htransfers, harena, filterMap_releaseCalls _ _ harena]

theorem mem_ownerDeaths {b : Body} {point : ProgramPoint} {l : LocalId} :
    (point, l) ∈ s.ownerDeaths b.ownership (.ofBody b) ↔
      l ∈ s.owners ∧ ∃ d : DeathPoint, d.point = point ∧ releasesOn b d l = true := by
  simp only [ownerDeaths, List.mem_flatMap, List.mem_map, List.mem_filter, releasesOn, Bool.and_eq_true,
    List.contains_iff_mem, Prod.mk.injEq]
  constructor
  · rintro ⟨l', hl', d, hd, rfl, rfl⟩
    exact ⟨hl', d, rfl, hd⟩
  · rintro ⟨hl, d, rfl, hd⟩
    exact ⟨l, hl, d, hd, rfl, rfl⟩

/-- An allocation gives up no local twice at a point. -/
theorem nodup_ownerDeaths {b : Body} (hb : b.Complete) (howners : s.owners.Nodup) :
    (s.ownerDeaths b.ownership (.ofBody b)).Nodup := by
  refine List.nodup_flatMap.2 ⟨fun l _ => ?_, howners.imp fun {l l'} hne => ?_⟩
  · refine ((Liveness.nodup_deathPoints hb l).filter _).map fun d d' h => ?_
    exact DeathPoint.point_injective (Prod.mk.inj h).1
  · intro x hx hx'
    obtain ⟨d, -, rfl⟩ := List.mem_map.1 hx
    obtain ⟨d', -, he⟩ := List.mem_map.1 hx'
    exact hne (Prod.mk.inj he).2.symm

end AllocationSite

/-! ## The releases of a plan -/

namespace Plan.Of

variable {p : Plan} {g : TypeGraph} {b : Body} {o : AnalysisOptions}

theorem releases_eq (h : p.Of g b o) : p.releases = p.sites.flatMap fun s =>
    if s.isReleased then s.ownerDeaths b.ownership (.ofBody b) else [] := by
  obtain ⟨opening, closing, hcalls, hnone⟩ := h.calls
  have hopening := filterMap_release?_eq_nil fun c hc => .inr (hnone c (List.mem_append_left closing hc))
  have hclosing := filterMap_release?_eq_nil fun c hc => .inr (hnone c (List.mem_append_right opening hc))
  rw [Plan.releases, hcalls, List.filterMap_append, List.filterMap_append, hopening, hclosing,
    List.nil_append, List.append_nil, List.filterMap_flatMap]
  exact List.flatMap_congr fun s _ => s.filterMap_calls (b.facts o)

/-- A local is released where it dies, unless it is moved away there, if it owns an object that is not
reclaimed in another way. -/
theorem mem_releases (h : p.Of g b o) {point : ProgramPoint} {l : LocalId} : (point, l) ∈ p.releases ↔
    (∃ d : DeathPoint, d.point = point ∧ AllocationSite.releasesOn b d l = true) ∧
      ∃ s ∈ p.sites, s.isReleased = true ∧ l ∈ s.owners := by
  simp only [h.releases_eq, List.mem_flatMap, List.mem_ite_nil_right, AllocationSite.mem_ownerDeaths]
  constructor
  · rintro ⟨s, hs, hreleased, hl, hd⟩
    exact ⟨hd, s, hs, hreleased, hl⟩
  · rintro ⟨hd, s, hs, hreleased, hl⟩
    exact ⟨s, hs, hreleased, hl, hd⟩

/-- If no release comes twice, a local that gives a reference up somewhere owns one object that is given up. -/
theorem eq_of_nodup_releases (h : p.Of g b o) (hnodup : p.releases.Nodup) {s t : AllocationSite}
    (hs : s ∈ p.sites) (ht : t ∈ p.sites) (hreleased : s.isReleased = true) (hreleased' : t.isReleased = true)
    {l : LocalId} (hl : l ∈ s.owners) (hl' : l ∈ t.owners) {d : DeathPoint}
    (hd : AllocationSite.releasesOn b d l = true) : s = t := by
  rw [h.releases_eq, List.nodup_flatMap] at hnodup
  by_contra hne
  have hsymm : Std.Symm (Function.onFun List.Disjoint fun s : AllocationSite =>
      if s.isReleased = true then s.ownerDeaths b.ownership (.ofBody b) else []) :=
    ⟨fun _ _ hdisjoint => hdisjoint.symm⟩
  have hdisjoint := hnodup.2.forall hs ht hne
  refine @hdisjoint (d.point, l) ?_ ?_
  · exact List.mem_ite_nil_right.2 ⟨hreleased, AllocationSite.mem_ownerDeaths.2 ⟨hl, d, rfl, hd⟩⟩
  · exact List.mem_ite_nil_right.2 ⟨hreleased', AllocationSite.mem_ownerDeaths.2 ⟨hl', d, rfl, hd⟩⟩

end Plan.Of

/-- No two releases of a plan are at one point and of one local exactly if each local that gives a reference up
somewhere owns only one object that is to be given up. -/
theorem TypeGraph.nodup_releases_iff {g : TypeGraph} {b : Body} {o : AnalysisOptions} {p : Plan}
    (hp : g.plan b o = .ok p) : p.releases.Nodup ↔
      ∀ s ∈ p.sites, ∀ t ∈ p.sites, s.isReleased = true → t.isReleased = true →
        ∀ l ∈ s.owners, l ∈ t.owners → ∀ d, AllocationSite.releasesOn b d l = true → s = t := by
  have hof := TypeGraph.plan_eq_ok hp
  constructor
  · intro hnodup s hs t ht hreleased hreleased' l hl hl' d hd
    exact hof.eq_of_nodup_releases hnodup hs ht hreleased hreleased' hl hl' hd
  · intro hone
    rw [hof.releases_eq, List.nodup_flatMap]
    refine ⟨fun s hs => ?_, (List.Nodup.of_map _ hof.distinct).pairwise_of_forall_ne fun s hs t ht hne => ?_⟩
    · split
      · exact AllocationSite.nodup_ownerDeaths hof.complete (hof.owners_eq hs ▸ b.ownership.nodup_ownersOf _)
      · exact List.nodup_nil
    · intro x hx hx'
      obtain ⟨hreleased, hx⟩ := List.mem_ite_nil_right.1 hx
      obtain ⟨hreleased', hx'⟩ := List.mem_ite_nil_right.1 hx'
      obtain ⟨hl, d, -, hd⟩ := AllocationSite.mem_ownerDeaths.1 hx
      exact hne (hone s hs t ht hreleased hreleased' x.2 hl (AllocationSite.mem_ownerDeaths.1 hx').1 d hd)

/-! ## Two objects in turn -/

/-- An object is made and read, and then a second one, which is put into a given local. -/
def inTurn (l : LocalId) : Body where
  name := "inTurn"
  locals := Array.replicate 4 { kind := .temp }
  paramCount := 0
  blocks := #[{
    statements := [.assign (.ofLocal 1) (.alloc 0 0 false []),
      .assign (.ofLocal 2) (.binary .eq (.copy (.ofLocal 1)) (.const 0)),
      .assign (.ofLocal l) (.alloc 1 0 false []),
      .assign (.ofLocal 0) (.binary .eq (.copy (.ofLocal l)) (.const 0))]
    terminator := some .ret }]

theorem inTurn_check (l : LocalId) : (inTurn l).check = .ok () := rfl

theorem inTurn_allocations (l : LocalId) : (inTurn l).allocations =
    [⟨⟨0, 0⟩, .ofLocal 1, 0, 0, false⟩, ⟨⟨0, 2⟩, .ofLocal l, 1, 0, false⟩] := rfl

theorem inTurn_plan (l : LocalId) : ∃ p, boxes.plan (inTurn l) {} = .ok p :=
  TypeGraph.exists_plan {} (inTurn_check l) (by simp [inTurn_allocations, TypeGraph.size, boxes])

/-- Each of the two objects is given up by the local into which it is put. -/
theorem inTurn_released {l : LocalId} (hl : l ≠ 0) {p : Plan} (hp : p.Of boxes (inTurn l) {})
    {s : AllocationSite} (hs : s ∈ p.sites) :
    s.isReleased = true ∧ ∀ l', l' ∈ s.owners ↔ s.place = .ofLocal l' := by
  obtain ⟨a, ha, hplan⟩ := hp.site s hs
  have hplace : ∃ l' ≠ 0, a.place = .ofLocal l' ∧ a.type = 0 := by
    simp only [inTurn_allocations, List.mem_cons, List.not_mem_nil, or_false] at ha
    rcases ha with rfl | rfl
    · exact ⟨1, by decide, rfl, rfl⟩
    · exact ⟨l, hl, rfl, rfl⟩
  obtain ⟨l', hl', hplace, htype⟩ := hplace
  have htransfers : (inTurn l).ownership.transfers = [] := rfl
  have howners : ∀ x, x ∈ s.owners ↔ x = l' := by
    intro x
    rw [hplan.owners, hplace]
    constructor
    · intro hx
      refine Ownership.of_mem_ownersOf (P := (· = l')) hx rfl fun t ht _ => ?_
      exact absurd (htransfers ▸ ht : t ∈ []) (by simp)
    · rintro rfl
      exact Ownership.mem_ownersOf.2 ⟨x, rfl, .refl⟩
  have hconstraints : (inTurn l).escapeConstraints {} = [.atLeast 0 .global] := rfl
  have hescape : ∀ x ∈ s.owners, x ∉ ((inTurn l).escape {}).global ∧ x ∉ ((inTurn l).escape {}).arg := by
    intro x hx
    rw [(howners x).1 hx]
    exact Body.notMem_escape (by simp [hconstraints]) (by simp [hconstraints]) hl'
  obtain ⟨hkept, hasap⟩ := AllocationSite.kept_of_planned hplan (htype ▸ boxes_classify)
    (List.ne_nil_of_mem ((howners l').2 rfl)) hescape rfl fun t ht => by simp [htransfers] at ht
  refine ⟨by simp [AllocationSite.isReleased, hkept.owned, hkept.stays, hasap], fun x => ?_⟩
  rw [howners, hplan.place, hplace]
  exact ⟨fun h => h ▸ rfl, fun h => (congrArg Place.base h).symm⟩

/-- The local of the second object gives it up after the last statement. -/
theorem inTurn_dies {l : LocalId} (hl : l ≠ 0) (hcomplete : (inTurn l).Complete) :
    AllocationSite.releasesOn (inTurn l) (.after ⟨0, 3⟩) l = true := by
  have hbefore : (inTurn l).Path _ ⟨0, 3⟩ := ((Body.Path.entry.next rfl).next rfl).next rfl
  have hlast : (inTurn l).instruction? ⟨0, 3⟩ =
    some (.statement (.assign (.ofLocal 0) (.binary .eq (.copy (.ofLocal l)) (.const 0)))) := rfl
  have hret : (inTurn l).instruction? ⟨0, 4⟩ = some (.terminator .ret) := rfl
  have heffects : (Instruction.statement (.assign (.ofLocal 0)
      (.binary .eq (.copy (.ofLocal l)) (.const 0)))).effects = { uses := [l], defs := [0] } := rfl
  have hdead : (Liveness.ofBody (inTurn l)).liveAt l ⟨0, 4⟩ = false := by
    rw [Liveness.liveAt_exec hret, Liveness.liveAt_ret hret]
    show Effects.liveBefore { uses := [0] } l false = false
    simp [Effects.liveBefore, hl]
  have hmoved : (inTurn l).ownership.isMovedAt l ⟨0, 3⟩ = false := rfl
  rw [AllocationSite.releasesOn_after hcomplete hbefore hlast, heffects, hmoved,
    show (⟨0, 3⟩ : Location).next = ⟨0, 4⟩ from rfl, hdead]
  simp [Effects.touches]

/-- Objects in two locals are given up where their locals die, and no release comes twice. -/
theorem TypeGraph.nodup_releases_apart : ∃ p, boxes.plan (inTurn 3) {} = .ok p ∧
    (.after ⟨0, 3⟩, 3) ∈ p.releases ∧ p.releases.Nodup := by
  obtain ⟨p, hp⟩ := inTurn_plan 3
  have hof := TypeGraph.plan_eq_ok hp
  refine ⟨p, hp, ?_, (TypeGraph.nodup_releases_iff hp).2 fun s hs t ht _ _ l hl hl' _ _ => ?_⟩
  · obtain ⟨s, hs, hplan⟩ := hof.planned ⟨⟨0, 2⟩, .ofLocal 3, 1, 0, false⟩ (by decide)
    obtain ⟨hreleased, howners⟩ := inTurn_released (by decide) hof hs
    refine hof.mem_releases.2 ⟨⟨.after ⟨0, 3⟩, rfl, inTurn_dies (by decide) hof.complete⟩, s, hs, hreleased, ?_⟩
    exact (howners 3).2 hplan.place
  · refine List.inj_on_of_nodup_map hof.distinct hs ht ?_
    have hplace := ((inTurn_released (by decide) hof hs).2 l).1 hl
    have hplace' := ((inTurn_released (by decide) hof ht).2 l).1 hl'
    have hloc : ∀ a ∈ (inTurn 3).allocations, ∀ a' ∈ (inTurn 3).allocations, a.place = a'.place →
        a.loc = a'.loc := by decide
    obtain ⟨a, ha, hplan⟩ := hof.site s hs
    obtain ⟨a', ha', hplan'⟩ := hof.site t ht
    rw [hplan.loc, hplan'.loc]
    exact hloc a ha a' ha' (by rw [← hplan.place, ← hplan'.place, hplace, hplace'])

/-- A local that is assigned a second object gives up both where it dies, and where it died before. -/
theorem TypeGraph.released_twice : ∃ p, boxes.plan (inTurn 1) {} = .ok p ∧ ¬ p.releases.Nodup := by
  obtain ⟨p, hp⟩ := inTurn_plan 1
  have hof := TypeGraph.plan_eq_ok hp
  refine ⟨p, hp, fun hnodup => ?_⟩
  obtain ⟨s, hs, hplan⟩ := hof.planned ⟨⟨0, 0⟩, .ofLocal 1, 0, 0, false⟩ (by decide)
  obtain ⟨t, ht, hplan'⟩ := hof.planned ⟨⟨0, 2⟩, .ofLocal 1, 1, 0, false⟩ (by decide)
  obtain ⟨hreleased, howners⟩ := inTurn_released (by decide) hof hs
  obtain ⟨hreleased', howners'⟩ := inTurn_released (by decide) hof ht
  have heq : s = t := hof.eq_of_nodup_releases hnodup hs ht hreleased hreleased' ((howners 1).2 hplan.place)
    ((howners' 1).2 hplan'.place) (inTurn_dies (by decide) hof.complete)
  have hloc : s.loc = t.loc := congrArg AllocationSite.loc heq
  rw [hplan.loc, hplan'.loc] at hloc
  exact absurd hloc (by decide)

end Reclamation
