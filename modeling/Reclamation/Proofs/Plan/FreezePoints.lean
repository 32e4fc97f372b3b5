import Mathlib
import Reclamation.Proofs.Plan.Bracketing
import Reclamation.Proofs.Plan.Sharing

/-!
# Where frozen values are still written

A value that is reclaimed with its component is frozen after the last assignment to a part of it, and what is
frozen refuses to be written. The last assignment is the last one of the body as it is written down: of the
latest block, and there of the greatest index (`Ownership.lastFieldWrite?_max`). Control need not follow that
order. It comes to a later position unless it jumps back, to a block that is not later
(`Body.Leads.exists_jumpsBack`). And an assignment that a call makes is not looked for.

So no part of a value is written any more once it is frozen, until the object is made anew, exactly if no such
call comes and no jump back leads to an assignment (`TypeGraph.settled_iff`). Where blocks are not numbered in
the order in which control passes them a value may be written after it has been frozen
(`TypeGraph.written_after_frozen`).
-/

set_option autoImplicit false

namespace Reclamation

/-! ## The order of positions -/

/-- A position comes before another one in the body as it is written down. -/
def Location.Precedes (x y : Location) : Prop :=
  x.block < y.block ∨ x.block = y.block ∧ x.index < y.index

namespace Location

variable {x y z : Location}

theorem not_precedes_self : ¬ x.Precedes x := by
  simp [Precedes]

theorem Precedes.trans (hxy : x.Precedes y) (hyz : y.Precedes z) : x.Precedes z := by
  rcases hxy with hlt | ⟨heq, hlt⟩
  · rcases hyz with hlt' | ⟨heq', -⟩
    · exact .inl (Nat.lt_trans hlt hlt')
    · exact .inl (heq' ▸ hlt)
  · rcases hyz with hlt' | ⟨heq', hlt'⟩
    · exact .inl (heq ▸ hlt')
    · exact .inr ⟨heq.trans heq', Nat.lt_trans hlt hlt'⟩

theorem precedes_next (x : Location) : x.Precedes x.next :=
  .inr ⟨rfl, Nat.lt_succ_self x.index⟩

/-- What does not come before the position after another one comes after that one. -/
theorem precedes_of_not_precedes_next (h : ¬ y.Precedes x.next) : x.Precedes y := by
  simp only [Precedes, next, not_or, not_and, Nat.not_lt] at h
  rcases Nat.lt_or_eq_of_le h.1 with hlt | heq
  · exact .inl hlt
  · exact .inr ⟨heq, h.2 heq.symm⟩

end Location

namespace Body

variable {b : Body} {avoid x y : Location}

/-- The statements are listed in the order of their positions. -/
theorem pairwise_statements (b : Body) : (b.statements.map (·.1)).Pairwise Location.Precedes := by
  have hblocks : (b.numberedBlocks.map (·.1)).Pairwise (· < ·) := by
    have hrange : b.numberedBlocks.map (·.1) = List.range' 0 b.blocks.toList.length := by
      rw [← List.zipIdx_map_snd 0 b.blocks.toList, numberedBlocks, List.map_map]
      rfl
    rw [hrange]
    exact List.pairwise_lt_range'
  rw [statements, List.pairwise_map, List.pairwise_flatMap]
  refine ⟨fun entry _ => ?_, (List.pairwise_map.1 hblocks).imp fun {u v} hlt => ?_⟩
  · have hindex : (entry.2.statements.zipIdx.map (·.2)).Pairwise (· < ·) := by
      rw [List.zipIdx_map_snd]
      exact List.pairwise_lt_range'
    exact List.pairwise_map.2 ((List.pairwise_map.1 hindex).imp fun hlt => .inr ⟨rfl, hlt⟩)
  · intro d hd d' hd'
    obtain ⟨_, -, rfl⟩ := List.mem_map.1 hd
    obtain ⟨_, -, rfl⟩ := List.mem_map.1 hd'
    exact .inl hlt

/-! ## Ways that leave an instruction out -/

/-- Control goes from one position to another by one instruction. -/
inductive Follows (b : Body) : Location → Location → Prop
  | next {loc : Location} {s : Statement} :
      b.instruction? loc = some (.statement s) → Follows b loc loc.next
  | jump {loc : Location} {t : Terminator} {target : BlockId} :
      b.instruction? loc = some (.terminator t) → target ∈ t.successors → Follows b loc ⟨target, 0⟩

/-- Control can get from one position to another without executing what stands at a third. -/
def Leads (b : Body) (avoid : Location) : Location → Location → Prop :=
  Relation.ReflTransGen fun x y => x ≠ avoid ∧ b.Follows x y

/-- Control may jump from a position to a block that is not a later one. -/
def JumpsBack (b : Body) (loc : Location) (target : BlockId) : Prop :=
  ∃ t, b.instruction? loc = some (.terminator t) ∧ target ∈ t.successors ∧ target ≤ loc.block

/-- Control that does not jump back does not come to an earlier position. -/
theorem Leads.exists_jumpsBack (h : b.Leads avoid x y) : ¬ y.Precedes x ∨
    ∃ loc target, b.Leads avoid x loc ∧ loc ≠ avoid ∧ b.JumpsBack loc target ∧ b.Leads avoid ⟨target, 0⟩ y := by
  induction h with
  | refl => exact .inl Location.not_precedes_self
  | @tail y z hxy hyz ih =>
    rcases ih with hforward | ⟨loc, target, hloc, hne, hback, hrest⟩
    · obtain ⟨hne, hstep⟩ := hyz
      cases hstep with
      | next => exact .inl fun hearlier => hforward (y.precedes_next.trans hearlier)
      | @jump t target ht htarget =>
        by_cases hle : target ≤ y.block
        · exact .inr ⟨y, target, hxy, hne, ⟨t, ht, htarget, hle⟩, .refl⟩
        · have hlater : y.Precedes ⟨target, 0⟩ := .inl (Nat.lt_of_not_le hle)
          exact .inl fun hearlier => hforward (hlater.trans hearlier)
    · exact .inr ⟨loc, target, hloc, hne, hback, hrest.tail hyz⟩

end Body

/-! ## Where parts of a value are written -/

/-- The local through which an instruction writes a part of a value, if it does. -/
def Instruction.partWrite? : Instruction → Option LocalId
  | .statement s => s.fieldWrite?
  | .terminator (.call _ _ dest _) => if dest.local?.isSome then none else some dest.base
  | .terminator _ => none

namespace Ownership

variable {b : Body} {owners : List LocalId} {loc : Location} {l : LocalId}

theorem mem_fieldWrites : (loc, l) ∈ b.ownership.fieldWrites ↔
    ∃ s, b.instruction? loc = some (.statement s) ∧ s.fieldWrite? = some l := by
  simp only [Body.ownership, List.mem_filterMap, Prod.exists, Body.mem_statements, Option.map_eq_some_iff,
    Prod.mk.injEq]
  constructor
  · rintro ⟨_, s, hs, _, hwrite, rfl, rfl⟩
    exact ⟨s, hs, hwrite⟩
  · rintro ⟨s, hs, hwrite⟩
    exact ⟨loc, s, hs, l, hwrite, rfl, rfl⟩

theorem pairwise_fieldWrites (b : Body) :
    b.ownership.fieldWrites.Pairwise fun x y => x.1.Precedes y.1 := by
  refine List.pairwise_filterMap.2 ((List.pairwise_map.1 b.pairwise_statements).imp ?_)
  intro x y hxy u hu v hv
  obtain ⟨_, -, rfl⟩ := Option.map_eq_some_iff.1 hu
  obtain ⟨_, -, rfl⟩ := Option.map_eq_some_iff.1 hv
  exact hxy

/-- No assignment to a part of a value comes after the last one. -/
theorem lastFieldWrite?_max (hwrite : (loc, l) ∈ b.ownership.fieldWrites) (hl : l ∈ owners) :
    ∃ last, b.ownership.lastFieldWrite? owners = some last ∧ ¬ last.Precedes loc := by
  rw [lastFieldWrite?]
  generalize hwrites : List.filter _ b.ownership.fieldWrites = writes
  have hmem : (loc, l) ∈ writes := hwrites ▸ List.mem_filter.2 ⟨hwrite, List.contains_iff_mem.2 hl⟩
  have hsorted := hwrites ▸ (pairwise_fieldWrites b).filter _
  obtain ⟨front, last, rfl⟩ := (List.eq_nil_or_concat writes).resolve_left (List.ne_nil_of_mem hmem)
  rw [List.concat_eq_append] at hmem hsorted ⊢
  refine ⟨last.1, by simp, fun hprecedes => ?_⟩
  rcases List.mem_append.1 hmem with hmem | hmem
  · have hbefore := (List.pairwise_append.1 hsorted).2.2 _ hmem last (List.mem_singleton_self last)
    exact Location.not_precedes_self (hbefore.trans hprecedes)
  · rw [← List.mem_singleton.1 hmem] at hprecedes
    exact Location.not_precedes_self hprecedes

end Ownership

/-! ## Where a value is frozen -/

namespace AllocationSite

variable {s : AllocationSite} {b : Body} {x y : Location}

/-- The statement after which a value is frozen. -/
def frozenAfter (s : AllocationSite) (own : Ownership) : Location :=
  (own.lastFieldWrite? s.owners).getD s.loc

/-- The instruction at a position writes a part of the value through one of its owners. -/
def WritesAt (s : AllocationSite) (b : Body) (loc : Location) : Prop :=
  ∃ i l, b.instruction? loc = some i ∧ i.partWrite? = some l ∧ l ∈ s.owners

/-- From a position on no part of the value is written, until the object is made anew. -/
def SettledFrom (s : AllocationSite) (b : Body) (loc : Location) : Prop :=
  ∀ d, b.Leads s.loc loc d → ¬ s.WritesAt b d

theorem SettledFrom.of_leads (h : s.SettledFrom b x) (hxy : b.Leads s.loc x y) : s.SettledFrom b y :=
  fun d hd => h d (hxy.trans hd)

theorem freeze_mem_calls {f : BodyFacts} (howned : s.isEmbedded = false) (hstays : s.decision.transfers = false)
    (hscc : s.strategy = .scc) :
    s.callAt (.after (s.frozenAfter f.ownership)) .sccFreeze s.firstOwner? ∈ s.calls f := by
  simp [calls, howned, hstays, freezeCalls, hscc, frozenAfter]

theorem point_of_freeze {f : BodyFacts} {c : PlannedCall} (hc : c ∈ s.calls f) (hfreeze : c.call = .sccFreeze) :
    c.point = .after (s.frozenAfter f.ownership) := by
  cases callOf_of_mem hc with
  | freeze => rfl
  | make =>
    have hmakes := makes_allocator s
    rw [show s.allocator = .sccFreeze from hfreeze] at hmakes
    exact absurd hmakes (by decide)
  | handle | handOver => exact absurd hfreeze (by simp [callAt])
  | @acquire call _ _ _ hcounts =>
    obtain rfl : call = .sccFreeze := hfreeze
    exact absurd (Strategy.acquire?_spec hcounts).2 (by decide)
  | release =>
    have hnone : ∀ strategy : Strategy, strategy.release ≠ .sccFreeze := by
      intro strategy
      cases strategy <;> decide
    exact absurd hfreeze (hnone _)

/-- A statement that writes a part of a value does not stand after the one after which the value is frozen. -/
theorem not_precedes_frozenAfter {st : Statement} (hst : b.instruction? y = some (.statement st))
    (hy : s.WritesAt b y) : ¬ (s.frozenAfter b.ownership).Precedes y := by
  obtain ⟨i, l, hi, hwrite, hl⟩ := hy
  obtain rfl := Option.some.inj (hst.symm.trans hi)
  obtain ⟨last, hlast, hmax⟩ := Ownership.lastFieldWrite?_max (Ownership.mem_fieldWrites.2 ⟨st, hst, hwrite⟩) hl
  rwa [frozenAfter, hlast]

/-- Once a value is frozen no part of it is written exactly if no call writes one and no jump back leads to where
one is written. -/
theorem settledFrom_frozenAfter_iff : s.SettledFrom b (s.frozenAfter b.ownership).next ↔
    (∀ d t, b.Leads s.loc (s.frozenAfter b.ownership).next d → b.instruction? d = some (.terminator t) →
      ¬ s.WritesAt b d) ∧
    ∀ d target, b.Leads s.loc (s.frozenAfter b.ownership).next d → d ≠ s.loc → b.JumpsBack d target →
      s.SettledFrom b ⟨target, 0⟩ := by
  constructor
  · refine fun h => ⟨fun d t hd _ => h d hd, fun d target hd hne hback => ?_⟩
    obtain ⟨t, ht, htarget, -⟩ := hback
    exact h.of_leads (hd.tail ⟨hne, .jump ht htarget⟩)
  · rintro ⟨hcalls, hback⟩ d hd hwrites
    have hsome : ∃ i, b.instruction? d = some i := by
      obtain ⟨i, -, hi, -⟩ := hwrites
      exact ⟨i, hi⟩
    obtain ⟨i, hi⟩ := hsome
    cases i with
    | terminator t => exact hcalls d t hd hi hwrites
    | statement st =>
      -- the write stands no later than the freeze, so control has jumped back to get to it
      rcases hd.exists_jumpsBack with hforward | ⟨e, target, he, hne, hjump, hrest⟩
      · exact not_precedes_frozenAfter hi hwrites (Location.precedes_of_not_precedes_next hforward)
      · exact hback e target he hne hjump d hrest hwrites

end AllocationSite

/-! ## Main result -/

/-- A value that stays in the body and is reclaimed with its component is frozen after one statement. From there
on no part of it is written through an owner, until the object is made anew, exactly if no call that comes writes
one, and no jump back leads to where one is written. -/
theorem TypeGraph.settled_iff {g : TypeGraph} {b : Body} {o : AnalysisOptions} {p : Plan}
    (hp : g.plan b o = .ok p) {s : AllocationSite} (hs : s ∈ p.sites) :
    (s.isEmbedded = false → s.decision.transfers = false → s.strategy = .scc →
      ∃ c ∈ p.calls, c.site = some s.id ∧ c.call = .sccFreeze ∧ c ∈ s.calls (b.facts o)) ∧
    ∀ c ∈ s.calls (b.facts o), c.call = .sccFreeze → ∃ loc, c.point = .after loc ∧
      (s.SettledFrom b loc.next ↔
        (∀ d t, b.Leads s.loc loc.next d → b.instruction? d = some (.terminator t) → ¬ s.WritesAt b d) ∧
        ∀ d target, b.Leads s.loc loc.next d → d ≠ s.loc → b.JumpsBack d target →
          s.SettledFrom b ⟨target, 0⟩) := by
  refine ⟨fun howned hstays hscc => ?_, fun c hc hfreeze => ?_⟩
  · have hmem := AllocationSite.freeze_mem_calls (f := b.facts o) howned hstays hscc
    exact ⟨_, ((TypeGraph.plan_eq_ok hp).calls_together hs).subset hmem, rfl, rfl, hmem⟩
  · exact ⟨_, AllocationSite.point_of_freeze hc hfreeze, AllocationSite.settledFrom_frozenAfter_iff⟩

/-! ## A value whose parts are written in two blocks -/

/-- An object is made and a field of it is written in each of two blocks. Control passes them in the order of
their numbers or the other way around. -/
def building (forward : Bool) : Body where
  name := "building"
  locals := Array.replicate 2 { kind := .temp }
  paramCount := 0
  blocks := #[
    { statements := [.assign (.ofLocal 1) (.alloc 0 0 true []), .assign (.ofLocal 0) (.use (.const 0))]
      terminator := some (.goto (if forward then 1 else 2)) },
    { statements := [.assign ⟨1, [.field 0]⟩ (.use (.const 0))]
      terminator := some (if forward then .goto 2 else .ret) },
    { statements := [.assign ⟨1, [.field 0]⟩ (.use (.const 0))]
      terminator := some (if forward then .ret else .goto 1) }]

theorem building_allocations (forward : Bool) :
    (building forward).allocations = [⟨⟨0, 0⟩, .ofLocal 1, 0, 0, true⟩] := by
  cases forward <;> rfl

theorem building_plan (forward : Bool) : ∃ p, bond.plan (building forward) {} = .ok p :=
  TypeGraph.exists_plan {} (by cases forward <;> rfl) (by simp [building_allocations, TypeGraph.size, bond])

section

variable {forward : Bool} {p : Plan} {s : AllocationSite}

/-- The object is owned by its local and reclaimed with its component. -/
theorem building_site (hp : p.Of bond (building forward) {}) (hs : s ∈ p.sites) :
    s.strategy = .scc ∧ s.decision.transfers = false ∧ s.loc = ⟨0, 0⟩ ∧ s.owners = [1] := by
  obtain ⟨a, ha, hplan⟩ := hp.site s hs
  rw [building_allocations, List.mem_singleton] at ha
  subst ha
  have htransfers : (building forward).ownership.transfers = [] := by cases forward <;> rfl
  have howners : s.owners = [1] :=
    hplan.owners.trans (Ownership.ownersOf_eq_singleton fun t ht => absurd (htransfers ▸ ht : t ∈ []) (by simp))
  have hconstraints : (building forward).escapeConstraints {} = [.atLeast 0 .global] := by cases forward <;> rfl
  have hescape : ∀ l ∈ s.owners, l ∉ ((building forward).escape {}).global ∧
      l ∉ ((building forward).escape {}).arg := by
    intro l hl
    rw [howners, List.mem_singleton] at hl
    subst hl
    exact Body.notMem_escape (by simp [hconstraints]) (by simp [hconstraints]) (by decide)
  have hclosures : (building forward).closures = [] := by cases forward <;> rfl
  obtain ⟨hscc, hstays⟩ :=
    AllocationSite.component_of_planned hplan bond_classify rfl (by simp [howners]) hescape hclosures
  exact ⟨hscc, hstays, hplan.loc, howners⟩

/-- In both orders the object is frozen in the last block. -/
theorem building_frozenAfter (hp : p.Of bond (building forward) {}) (hs : s ∈ p.sites) :
    s.frozenAfter (building forward).ownership = ⟨2, 0⟩ := by
  rw [AllocationSite.frozenAfter, (building_site hp hs).2.2.2]
  cases forward <;> rfl

end

/-- An object of which a field is written in two blocks, one after the other, is frozen for good. -/
theorem TypeGraph.settled_forward : ∃ p s c, bond.plan (building true) {} = .ok p ∧ s ∈ p.sites ∧
    c ∈ s.calls ((building true).facts {}) ∧ c.call = .sccFreeze ∧ c.point = .after ⟨2, 0⟩ ∧
    s.WritesAt (building true) ⟨1, 0⟩ ∧ s.SettledFrom (building true) ⟨2, 1⟩ := by
  obtain ⟨p, hp⟩ := building_plan true
  have hof := TypeGraph.plan_eq_ok hp
  obtain ⟨s, hs, -⟩ := hof.planned ⟨⟨0, 0⟩, .ofLocal 1, 0, 0, true⟩ (by simp [building_allocations])
  obtain ⟨hscc, hstays, -, howners⟩ := building_site hof hs
  obtain ⟨hfrozen, hsettled⟩ := TypeGraph.settled_iff hp hs
  obtain ⟨c, -, -, hcall, hc⟩ := hfrozen (by simp [AllocationSite.isEmbedded, howners]) hstays hscc
  obtain ⟨loc, hpoint, hiff⟩ := hsettled c hc hcall
  have hwhere : loc = ⟨2, 0⟩ := by
    rw [AllocationSite.point_of_freeze hc hcall] at hpoint
    exact (ProgramPoint.after.inj hpoint).symm.trans (building_frozenAfter hof hs)
  subst hwhere
  have hjumps : ∀ x ∈ (building true).terminators, (Instruction.terminator x.2).partWrite? = none ∧
      ∀ target ∈ x.2.successors, x.1.block < target := by decide
  refine ⟨p, s, c, hp, hs, hc, hcall, hpoint, ⟨_, 1, rfl, rfl, by simp [howners]⟩, hiff.2 ⟨?_, ?_⟩⟩
  · rintro d t - ht ⟨i, l, hi, hwrite, -⟩
    obtain rfl := Option.some.inj (ht.symm.trans hi)
    rw [(hjumps _ (Body.mem_terminators.2 ht)).1] at hwrite
    exact absurd hwrite (by simp)
  · rintro d target - - ⟨t, ht, htarget, hle⟩
    exact absurd hle (Nat.not_le_of_lt ((hjumps _ (Body.mem_terminators.2 ht)).2 target htarget))

/-- Where control passes the later block first, the object is frozen there and a field of it is written in the
other one. -/
theorem TypeGraph.written_after_frozen : ∃ p s c, (bond.detectBackEdges {}).1 = bond ∧
    bond.plan (building false) {} = .ok p ∧ s ∈ p.sites ∧ s.strategy = .scc ∧ s.decision.transfers = false ∧
    c ∈ p.calls ∧ c ∈ s.calls ((building false).facts {}) ∧ c.call = .sccFreeze ∧ c.point = .after ⟨2, 0⟩ ∧
    (building false).Leads s.loc ⟨2, 1⟩ ⟨1, 0⟩ ∧ s.WritesAt (building false) ⟨1, 0⟩ := by
  obtain ⟨p, hp⟩ := building_plan false
  have hof := TypeGraph.plan_eq_ok hp
  obtain ⟨s, hs, -⟩ := hof.planned ⟨⟨0, 0⟩, .ofLocal 1, 0, 0, true⟩ (by simp [building_allocations])
  obtain ⟨hscc, hstays, hloc, howners⟩ := building_site hof hs
  have hmem := AllocationSite.freeze_mem_calls (f := (building false).facts {})
    (by simp [AllocationSite.isEmbedded, howners]) hstays hscc
  have hpoint := AllocationSite.point_of_freeze hmem rfl
  refine ⟨p, s, _, bond_prepared, hp, hs, hscc, hstays, (hof.calls_together hs).subset hmem, hmem, rfl,
    hpoint.trans (congrArg _ (building_frozenAfter hof hs)), ?_, ⟨_, 1, rfl, rfl, by simp [howners]⟩⟩
  refine .single ⟨by simp [hloc], .jump (t := .goto 1) rfl (by simp [Terminator.successors])⟩

end Reclamation
