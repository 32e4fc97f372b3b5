import Mathlib
import Reclamation.Proofs.Plan.Releases
import Reclamation.Proofs.Plan.Temporaries

/-!
# What is decided by the owners

The owners of an object that is made for a local are the locals to which it can be handed on, statement by statement,
by copies and moves between whole locals. The list of them is found by a search that looks at each local once, so it
ends also where locals are handed on in a circle.

What is decided about the object, and which calls are made for it, goes by these locals alone (`GoesBy`): how far it
escapes, whether it is shared, captured or sent to another thread, and where it is given up. No owner is handed on to
a local that the decision has not seen (`GoesBy.closed`).

What is written into a part of another value has no owner (`LeftTo`), and goes by the local from which the part is
found.
-/

set_option autoImplicit false

namespace Reclamation

namespace Body

variable {b : Body} {l l' : LocalId}

/-- A statement moves or copies one whole local to another one. -/
def HandsOn (b : Body) (source dest : LocalId) : Prop :=
  source ≠ dest ∧ ∃ loc op, (op = .copy (.ofLocal source) ∨ op = .move (.ofLocal source)) ∧
    b.instruction? loc = some (.statement (.assign (.ofLocal dest) (.use op)))

/-- A statement copies a whole local to another one, so that both hold what it refers to. -/
def IsShared (b : Body) (source : LocalId) : Prop :=
  ∃ dest loc, source ≠ dest ∧
    b.instruction? loc = some (.statement (.assign (.ofLocal dest) (.use (.copy (.ofLocal source)))))

theorem passes_iff_handsOn : Ownership.Passes b.ownership.transfers l l' ↔ b.HandsOn l l' := by
  constructor
  · rintro ⟨t, ht, rfl, rfl⟩
    obtain ⟨s, hs, his⟩ := mem_transfers.1 ht
    rw [his.eq] at hs
    refine ⟨his.ne, t.loc, _, ?_, hs⟩
    cases t.isMove with
    | false => exact .inl rfl
    | true => exact .inr rfl
  · rintro ⟨hne, loc, op, hop | hop, hs⟩
    · subst hop
      exact ⟨⟨loc, l, l', false⟩, mem_transfers.2 ⟨_, hs, hne, rfl⟩, rfl, rfl⟩
    · subst hop
      exact ⟨⟨loc, l, l', true⟩, mem_transfers.2 ⟨_, hs, hne, rfl⟩, rfl, rfl⟩

theorem passes_eq_handsOn (b : Body) : Ownership.Passes b.ownership.transfers = b.HandsOn := by
  funext l l'
  exact propext passes_iff_handsOn

theorem mem_ownersOf_ofLocal {root : LocalId} :
    l ∈ b.ownership.ownersOf (.ofLocal root) ↔ Relation.ReflTransGen b.HandsOn root l := by
  rw [Ownership.mem_ownersOf, b.passes_eq_handsOn]
  simp

theorem copiesOf_ne_nil_iff : b.ownership.copiesOf l ≠ [] ↔ b.IsShared l := by
  rw [← List.length_pos_iff_ne_nil, List.length_pos_iff_exists_mem]
  simp only [Ownership.copiesOf, List.mem_map, List.mem_filter, Bool.and_eq_true, beq_iff_eq, Bool.not_eq_true']
  constructor
  · rintro ⟨-, t, ⟨ht, rfl, hcopy⟩, -⟩
    obtain ⟨s, hs, his⟩ := mem_transfers.1 ht
    rw [his.eq, hcopy] at hs
    exact ⟨t.dest, t.loc, his.ne, hs⟩
  · rintro ⟨dest, loc, hne, hs⟩
    exact ⟨(loc, dest), ⟨loc, l, dest, false⟩, ⟨mem_transfers.2 ⟨_, hs, hne, rfl⟩, rfl, rfl⟩, rfl⟩

end Body

namespace AllocationSite

/-- What is decided of an object, and the calls that are made for it, go by a set of locals that is closed under
moves and copies. -/
structure GoesBy (s : AllocationSite) (b : Body) (o : AnalysisOptions) (own : LocalId → Prop) : Prop where
  closed : ∀ l l', own l → b.HandsOn l l' → own l'
  /-- The object escapes as far as each of the locals. -/
  upper : ∀ l, own l → ((b.escape o).state l).rank ≤ s.escape.rank
  /-- It escapes no farther than all of them do. -/
  least : ∀ e : EscapeState, (∀ l, own l → ((b.escape o).state l).rank ≤ e.rank) → s.escape.rank ≤ e.rank
  /-- The strategy and the flags follow from what holds of some of the locals. -/
  routed : ∃ i : RouteInput, s.decision = i.route o.arenaOptIn ∧
    i.fact = s.fact ∧ i.escape = s.escape ∧ i.frozen = s.frozen ∧
    (i.aliased = true ↔ ∃ l, own l ∧ b.IsShared l) ∧
    (i.captured = true ↔ ∃ l, own l ∧ (b.escape o).isCaptured l = true) ∧
    (i.crosses = true ↔ ∃ l, own l ∧ (b.escape o).crosses l = true)
  /-- The calls concern no other local. -/
  subject : ∀ c ∈ s.calls (b.facts o), ∀ l, c.subject = some l → own l
  /-- An object that is given up is given up by each of the locals, where it dies without being moved away. -/
  released : ∀ point l, (point, l) ∈ (s.calls (b.facts o)).filterMap PlannedCall.release? ↔
    s.isReleased = true ∧ own l ∧ ∃ d : DeathPoint, d.point = point ∧ releasesOn b d l = true

/-- The object goes with the one into which it is written: it escapes and crosses as the local from which that one
is found, and no call for it passes a local. -/
structure LeftTo (s : AllocationSite) (b : Body) (o : AnalysisOptions) (base : LocalId) : Prop where
  owners : s.owners = []
  escape : s.escape = (b.escape o).state base
  routed : ∃ i : RouteInput, s.decision = i.route o.arenaOptIn ∧
    i.fact = s.fact ∧ i.escape = s.escape ∧ i.frozen = s.frozen ∧ i.aliased = false ∧ i.captured = false ∧
    i.crosses = (b.escape o).crosses base
  subject : ∀ c ∈ s.calls (b.facts o), c.subject = none

variable {s : AllocationSite} {b : Body} {o : AnalysisOptions}

theorem GoesBy.congr {own own' : LocalId → Prop} (h : s.GoesBy b o own) (hown : ∀ l, own l ↔ own' l) :
    s.GoesBy b o own' := by
  have heq : own = own' := by
    funext l
    exact propext (hown l)
  exact heq ▸ h

end AllocationSite

namespace BodyFacts

variable {f : BodyFacts} {a : Allocation} {owners : List LocalId}

theorem rank_state_le (f : BodyFacts) (a : Allocation) {l : LocalId} (hl : l ∈ owners) :
    (f.escape.state l).rank ≤ (f.escapeOf a owners).rank := by
  by_cases hzero : (f.escape.state l).rank = 0
  · omega
  · exact (le_rank_escapeOf (Nat.pos_of_ne_zero hzero) (List.ne_nil_of_mem hl)).2 ⟨l, hl, Nat.le_refl _⟩

theorem rank_escapeOf_le (howners : owners ≠ []) {e : EscapeState}
    (he : ∀ l ∈ owners, (f.escape.state l).rank ≤ e.rank) : (f.escapeOf a owners).rank ≤ e.rank := by
  by_contra hlt
  have hpos : 0 < (f.escapeOf a owners).rank := by omega
  obtain ⟨l, hl, hle⟩ := (le_rank_escapeOf hpos howners).1 (Nat.le_refl _)
  exact hlt (Nat.le_trans hle (he l hl))

theorem crossesOf_iff (howners : owners ≠ []) :
    f.crossesOf a owners = true ↔ ∃ l ∈ owners, f.escape.crosses l = true := by
  have hempty : owners.isEmpty = false := by simpa using howners
  rw [crossesOf, hempty, if_neg (by simp), List.any_eq_true]

end BodyFacts

theorem Body.aliased_iff {b : Body} {owners : List LocalId} :
    (owners.any fun l => !(b.ownership.copiesOf l).isEmpty) = true ↔ ∃ l ∈ owners, b.IsShared l := by
  rw [List.any_eq_true]
  refine exists_congr fun l => and_congr_right fun _ => ?_
  rw [← Body.copiesOf_ne_nil_iff]
  simp

/-! ## The allocations of a plan -/

namespace Plan.Of

variable {p : Plan} {g : TypeGraph} {b : Body} {o : AnalysisOptions} {s : AllocationSite}

theorem owners_eq_nil_iff (hp : p.Of g b o) (hs : s ∈ p.sites) : s.owners = [] ↔ s.place.local? = none := by
  rw [hp.owners_eq hs]
  cases hplace : s.place.local? with
  | none => simp [Ownership.ownersOf, hplace]
  | some root =>
    have hmem : root ∈ b.ownership.ownersOf s.place := Ownership.mem_ownersOf.2 ⟨root, hplace, .refl⟩
    simp [List.ne_nil_of_mem hmem]

/-- What is decided of an allocation, from the allocation as the plan keeps it. -/
theorem planned_self (hp : g.plan b o = .ok p) (hs : s ∈ p.sites) : s.allocation.Planned (b.facts o) g o s :=
  Allocation.planned_of_eq_ok (TypeGraph.plan_of_mem hp hs).2

end Plan.Of

section

variable {p : Plan} {g : TypeGraph} {b : Body} {o : AnalysisOptions} {s : AllocationSite}

theorem AllocationSite.mem_releases_of_calls {point : ProgramPoint} {l : LocalId} :
    (point, l) ∈ (s.calls (b.facts o)).filterMap PlannedCall.release? ↔
      s.isReleased = true ∧ l ∈ s.owners ∧ ∃ d : DeathPoint, d.point = point ∧ releasesOn b d l = true := by
  rw [AllocationSite.filterMap_calls, List.mem_ite_nil_right]
  exact and_congr_right fun _ => AllocationSite.mem_ownerDeaths

/-- What is made for a local goes by the owners that are listed. -/
theorem AllocationSite.goesBy_owners (hp : g.plan b o = .ok p) (hs : s ∈ p.sites) (howners : s.owners ≠ []) :
    s.GoesBy b o (· ∈ s.owners) := by
  have hof := TypeGraph.plan_eq_ok hp
  have hplan := Plan.Of.planned_self hp hs
  have hpasses : ∀ t ∈ b.ownership.transfers, t.source ∈ s.owners → t.dest ∈ s.owners :=
    fun t ht hsource => hof.dest_mem hs ht hsource
  constructor
  case closed =>
    intro l l' hl hhands
    obtain ⟨t, ht, rfl, rfl⟩ := Body.passes_iff_handsOn.2 hhands
    exact hpasses t ht hl
  case upper =>
    intro l hl
    rw [hplan.escape]
    exact (b.facts o).rank_state_le s.allocation hl
  case least =>
    intro e he
    rw [hplan.escape]
    exact BodyFacts.rank_escapeOf_le howners he
  case routed =>
    refine ⟨_, hplan.decision, rfl, hplan.escape.symm, rfl, Body.aliased_iff, List.any_eq_true, ?_⟩
    exact BodyFacts.crossesOf_iff howners
  case subject =>
    intro c hc l hl
    exact mem_owners_of_mem_calls hpasses hc hl
  case released =>
    intro point l
    exact mem_releases_of_calls

/-- What is written into a part of another value is left to that one. -/
theorem AllocationSite.leftTo_base (hp : g.plan b o = .ok p) (hs : s ∈ p.sites) (howners : s.owners = []) :
    s.LeftTo b o s.place.base := by
  have hplan := Plan.Of.planned_self hp hs
  have hcalls : s.calls (b.facts o) = s.allocCalls := by
    simp [calls, isEmbedded, howners]
  constructor
  case owners => exact howners
  case escape =>
    rw [hplan.escape, howners]
    rfl
  case routed =>
    refine ⟨_, hplan.decision, rfl, hplan.escape.symm, rfl, ?_⟩
    rw [howners]
    exact ⟨rfl, rfl, rfl⟩
  case subject =>
    intro c hc
    rw [hcalls, mem_allocCalls] at hc
    rcases hc with rfl | ⟨-, howned, -⟩
    · simp [callAt, firstOwner?, howners]
    · simp [isEmbedded, howners] at howned

end

/-- The owners of what is written to a local are the locals to which it can be handed on, each once and this local
first. What is planned for an object goes by its owners, or by the value of which it becomes a part. -/
theorem Body.owners_exact (b : Body) :
    (∀ root, (b.ownership.ownersOf (.ofLocal root)).Nodup ∧
      (b.ownership.ownersOf (.ofLocal root)).head? = some root ∧
      ∀ l, l ∈ b.ownership.ownersOf (.ofLocal root) ↔ Relation.ReflTransGen b.HandsOn root l) ∧
    ∀ (g : TypeGraph) (o : AnalysisOptions) (p : Plan), g.plan b o = .ok p → ∀ s ∈ p.sites,
      s.owners = b.ownership.ownersOf s.place ∧
      s.calls (b.facts o) <:+: p.calls ∧
      match s.place.local? with
      | some root => s.GoesBy b o (Relation.ReflTransGen b.HandsOn root)
      | none => s.LeftTo b o s.place.base := by
  constructor
  · intro root
    exact ⟨b.ownership.nodup_ownersOf _, b.ownership.ownersOf_ofLocal_head root, fun l => mem_ownersOf_ofLocal⟩
  · intro g o p hp s hs
    have hof := TypeGraph.plan_eq_ok hp
    refine ⟨hof.owners_eq hs, hof.calls_together hs, ?_⟩
    cases hplace : s.place.local? with
    | none => exact AllocationSite.leftTo_base hp hs ((hof.owners_eq_nil_iff hs).2 hplace)
    | some root =>
      have howners : s.owners ≠ [] := by
        rw [Ne, hof.owners_eq_nil_iff hs, hplace]
        simp
      refine (AllocationSite.goesBy_owners hp hs howners).congr fun l => ?_
      rw [hof.owners_eq hs, Place.eq_ofLocal hplace]
      exact mem_ownersOf_ofLocal

/-- An object is copied, the copy moved on, and from there copied back to where it was made. -/
def passedRound : Body where
  name := "passedRound"
  locals := Array.replicate 4 { kind := .temp }
  paramCount := 0
  blocks := #[{
    statements := [.assign (.ofLocal 1) (.alloc 0 0 false []), .assign (.ofLocal 2) (.use (.copy (.ofLocal 1))),
      .assign (.ofLocal 3) (.use (.move (.ofLocal 2))), .assign (.ofLocal 1) (.use (.copy (.ofLocal 3)))]
    terminator := some .ret }]

theorem passedRound_transfers : passedRound.ownership.transfers =
    [⟨⟨0, 1⟩, 1, 2, false⟩, ⟨⟨0, 2⟩, 2, 3, true⟩, ⟨⟨0, 3⟩, 3, 1, false⟩] := rfl

/-- Each local of the circle comes to hold what the first one does, and no other one. -/
theorem passedRound_handsOn {l : LocalId} : Relation.ReflTransGen passedRound.HandsOn 1 l ↔ l ∈ [1, 2, 3] := by
  have hnext : ∀ {t}, t ∈ passedRound.ownership.transfers → passedRound.HandsOn t.source t.dest := by
    intro t ht
    exact Body.passes_iff_handsOn.1 ⟨t, ht, rfl, rfl⟩
  constructor
  · intro h
    induction h with
    | refl => simp
    | tail _ h _ =>
      obtain ⟨t, ht, -, rfl⟩ := Body.passes_iff_handsOn.2 h
      have hdests : ∀ t ∈ passedRound.ownership.transfers, t.dest ∈ [1, 2, 3] := by
        rw [passedRound_transfers]
        decide
      exact hdests t ht
  · intro h
    have htwo : passedRound.HandsOn 1 2 := hnext (t := ⟨⟨0, 1⟩, 1, 2, false⟩) (by rw [passedRound_transfers]; decide)
    have hthree : passedRound.HandsOn 2 3 := hnext (t := ⟨⟨0, 2⟩, 2, 3, true⟩) (by rw [passedRound_transfers]; decide)
    simp only [List.mem_cons, List.not_mem_nil, or_false] at h
    rcases h with rfl | rfl | rfl
    · exact .refl
    · exact .single htwo
    · exact (Relation.ReflTransGen.single htwo).tail hthree

/-- The object in the circle has three owners, and what is planned for it goes by these. -/
theorem Body.owners_exact_passedRound : ∃ p s, boxes.plan passedRound {} = .ok p ∧ s ∈ p.sites ∧
    s.owners.Nodup ∧ s.owners.head? = some 1 ∧ (∀ l, l ∈ s.owners ↔ l ∈ [1, 2, 3]) ∧
    s.GoesBy passedRound {} (· ∈ [1, 2, 3]) := by
  obtain ⟨p, hp⟩ := TypeGraph.exists_plan (g := boxes) (b := passedRound) {} (by decide) (by decide)
  obtain ⟨s, hs, hplan⟩ := (TypeGraph.plan_eq_ok hp).planned ⟨⟨0, 0⟩, .ofLocal 1, 0, 0, false⟩ (by decide)
  obtain ⟨howners, hplans⟩ := Body.owners_exact passedRound
  obtain ⟨hnodup, hhead, hmem⟩ := howners 1
  obtain ⟨heq, -, hgoes⟩ := hplans boxes {} p hp s hs
  rw [hplan.place] at heq hgoes
  rw [← heq] at hnodup hhead hmem
  refine ⟨p, s, hp, hs, hnodup, hhead, fun l => ?_, hgoes.congr fun l => passedRound_handsOn⟩
  rw [hmem, passedRound_handsOn]

end Reclamation
