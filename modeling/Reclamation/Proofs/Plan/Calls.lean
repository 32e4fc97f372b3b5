import Mathlib
import Reclamation.Proofs.Analysis.Liveness
import Reclamation.Proofs.Plan.Execution
import Reclamation.Proofs.Plan.Ownership

/-!
# The calls of a plan, point by point

A plan has one entry for each allocation of its body (`TypeGraph.plan_eq_ok`), and its calls are those of
the entries in turn, between what opens and what closes an arena or a scope. For an allocation whose owners
give its object up, the calls at a point are read off here: the making of the object in place of its
statement, a reference taken after a copy of an owner, and the references given up by the owners that
die there (`callsAt_releaseCalls`).
-/

set_option autoImplicit false

namespace Reclamation

/-! ## Plans -/

section

variable {α β γ ε : Type} {f : α → Except ε β} {l : List α} {ys : List β}

/-- Mapping goes through if each element does, and gives their results in order. -/
theorem mapM_eq_ok_iff : l.mapM f = .ok ys ↔ List.Forall₂ (fun x y => f x = .ok y) l ys := by
  induction l generalizing ys with
  | nil => cases ys <;> simp [pure, Except.pure]
  | cons x l ih =>
    rw [List.mapM_cons]
    cases hx : f x with
    | error e => cases ys <;> simp [bind, Except.bind, hx]
    | ok y =>
      cases hl : l.mapM f with
      | error e => cases ys <;> simp [bind, Except.bind, ← ih, hl, hx]
      | ok zs => cases ys <;> simp [bind, Except.bind, pure, Except.pure, ← ih, hl, hx]

theorem exists_mapM_eq_ok (h : ∀ x ∈ l, ∃ y, f x = .ok y) : ∃ ys, l.mapM f = .ok ys := by
  induction l with
  | nil => exact ⟨[], rfl⟩
  | cons x l ih =>
    obtain ⟨y, hy⟩ := h x List.mem_cons_self
    obtain ⟨ys, hys⟩ := ih fun z hz => h z (List.mem_cons_of_mem x hz)
    exact ⟨y :: ys, mapM_eq_ok_iff.2 (.cons hy (mapM_eq_ok_iff.1 hys))⟩

variable {R : α → β → Prop}

theorem exists_left_of_forall₂ (h : List.Forall₂ R l ys) : ∀ y ∈ ys, ∃ x ∈ l, R x y := by
  induction h with
  | nil => simp
  | @cons x y l ys hxy _ ih =>
    intro z hz
    rcases List.mem_cons.1 hz with rfl | hz
    · exact ⟨x, List.mem_cons_self, hxy⟩
    · obtain ⟨x', hx', hz⟩ := ih z hz
      exact ⟨x', List.mem_cons_of_mem x hx', hz⟩

theorem exists_right_of_forall₂ (h : List.Forall₂ R l ys) : ∀ x ∈ l, ∃ y ∈ ys, R x y :=
  exists_left_of_forall₂ h.flip

theorem map_of_forall₂ {h : β → γ} {k : α → γ} (hR : ∀ x y, R x y → h y = k x) (hl : List.Forall₂ R l ys) :
    ys.map h = l.map k := by
  induction hl with
  | nil => rfl
  | cons hxy _ ih => rw [List.map_cons, List.map_cons, hR _ _ hxy, ih]

end

theorem Statement.loc_of_allocation? {s : Statement} {loc : Location} {a : Allocation}
    (h : s.allocation? loc = some a) : a.loc = loc := by
  unfold Statement.allocation? at h
  split at h
  · exact Option.some.inj h ▸ rfl
  · exact absurd h (by simp)

namespace Body

variable {b : Body}

theorem sublist_allocations_location (l : List (Location × Statement)) :
    ((l.filterMap fun (loc, s) => s.allocation? loc).map (·.loc)).Sublist (l.map (·.1)) := by
  induction l with
  | nil => exact List.Sublist.refl _
  | cons x l ih =>
    obtain ⟨loc, s⟩ := x
    simp only [List.filterMap_cons]
    cases h : s.allocation? loc with
    | none => exact ih.cons _
    | some a =>
      rw [List.map_cons, List.map_cons, Statement.loc_of_allocation? h]
      exact ih.cons_cons _

/-- A position makes at most one allocation. -/
theorem nodup_allocations_location (b : Body) : (b.allocations.map (·.loc)).Nodup :=
  (nodup_statements_location b).sublist (sublist_allocations_location _)

theorem mem_allocations {a : Allocation} : a ∈ b.allocations ↔ ∃ contents,
    b.instruction? a.loc =
      some (.statement (.assign a.place (.alloc a.site a.type a.frozen contents))) := by
  simp only [allocations, List.mem_filterMap, Prod.exists, mem_statements]
  constructor
  · rintro ⟨loc, s, hs, ha⟩
    unfold Statement.allocation? at ha
    split at ha
    · obtain rfl := Option.some.inj ha
      exact ⟨_, hs⟩
    · exact absurd ha (by simp)
  · rintro ⟨contents, hs⟩
    exact ⟨a.loc, _, hs, rfl⟩

end Body

/-- What the plan of an allocation takes from the analyses. -/
structure Allocation.Planned (a : Allocation) (f : BodyFacts) (g : TypeGraph) (o : AnalysisOptions)
    (s : AllocationSite) : Prop where
  loc : s.loc = a.loc
  place : s.place = a.place
  owners : s.owners = f.ownership.ownersOf a.place
  fact : g.classify a.type = .ok s.fact
  escape : s.escape = f.escapeOf a s.owners
  decision : s.decision = (f.routeInput a s.owners s.fact).route o.arenaOptIn

theorem Allocation.planned_of_eq_ok {a : Allocation} {f : BodyFacts} {g : TypeGraph} {o : AnalysisOptions}
    {s : AllocationSite} (h : a.plan f g o = .ok s) : a.Planned f g o s := by
  rw [Allocation.plan] at h
  cases hfact : g.classify a.type with
  | error e => simp [hfact, bind, Except.bind] at h
  | ok fact =>
    cases hsize : g.estimatedSize a.type with
    | error e => simp [hfact, hsize, bind, Except.bind] at h
    | ok size =>
      simp only [hfact, hsize, bind, Except.bind, pure, Except.pure, Except.ok.injEq] at h
      subst h
      exact ⟨rfl, rfl, rfl, hfact, rfl, rfl⟩

/-- An allocation of a declared type can be planned. -/
theorem Allocation.exists_plan {a : Allocation} (f : BodyFacts) {g : TypeGraph} (o : AnalysisOptions)
    (ha : a.type < g.size) : ∃ s, a.plan f g o = .ok s := by
  have hnode : g.node a.type = .ok g.nodes[a.type] := by
    rw [TypeGraph.node, Array.getElem?_eq_getElem ha]
  have hfact : g.classify a.type = .ok (g.shapeOf (g.reachableFrom a.type)) := by
    rw [TypeGraph.classify, TypeGraph.reachable, hnode]
    rfl
  rw [Allocation.plan, hfact, TypeGraph.estimatedSize, hnode]
  exact ⟨_, rfl⟩

/-- The parts of a plan. -/
structure Plan.Of (p : Plan) (g : TypeGraph) (b : Body) (o : AnalysisOptions) : Prop where
  complete : b.Complete
  site : ∀ s ∈ p.sites, ∃ a ∈ b.allocations, a.Planned (b.facts o) g o s
  planned : ∀ a ∈ b.allocations, ∃ s ∈ p.sites, a.Planned (b.facts o) g o s
  distinct : (p.sites.map (·.loc)).Nodup
  calls : ∃ opening closing, p.calls = opening ++ p.sites.flatMap (·.calls (b.facts o)) ++ closing ∧
    ∀ c ∈ opening ++ closing, c.subject = none

section

variable {sites : List AllocationSite} {s : Strategy} {opening closing : EntryPoint} {returns : List Location}
  {c : PlannedCall}

theorem any_strategy_iff : (sites.any (·.strategy == s)) = true ↔ ∃ t ∈ sites, t.strategy = s := by
  simp

theorem mem_bracket_fst : c ∈ (bracket sites s opening closing returns).1 ↔
    (∃ t ∈ sites, t.strategy = s) ∧ c = { point := .entry, call := opening } := by
  rw [← any_strategy_iff, bracket]
  split
  · next h => simp [h]
  · next h => simp [h]

theorem mem_bracket_snd : c ∈ (bracket sites s opening closing returns).2 ↔
    (∃ t ∈ sites, t.strategy = s) ∧ ∃ loc ∈ returns, c = { point := .before loc, call := closing } := by
  rw [← any_strategy_iff, bracket]
  split
  · next h => simp [h, eq_comm]
  · next h => simp [h]

theorem subject_bracket (h : c ∈ (bracket sites s opening closing returns).1 ∨
    c ∈ (bracket sites s opening closing returns).2) : c.subject = none := by
  rw [mem_bracket_fst, mem_bracket_snd] at h
  rcases h with ⟨-, rfl⟩ | ⟨-, loc, -, rfl⟩
  · rfl
  · rfl

end

/-- The entry points that open or close an arena or a scope. -/
def EntryPoint.brackets : List EntryPoint :=
  [.arenaCreate, .arenaDestroy, .symEnterScope, .symExitScope]

/-- The calls of a plan: those made for its allocations in turn, between what opens and what closes an arena
and a scope. -/
def bracketedCalls (sites : List AllocationSite) (f : BodyFacts) : List PlannedCall :=
  (bracket sites .arena .arenaCreate .arenaDestroy f.returns).1 ++
    (bracket sites .symmetric .symEnterScope .symExitScope f.returns).1 ++
    sites.flatMap (·.calls f) ++
    (bracket sites .arena .arenaCreate .arenaDestroy f.returns).2 ++
    (bracket sites .symmetric .symEnterScope .symExitScope f.returns).2

theorem TypeGraph.plan_eq_ok_iff {g : TypeGraph} {b : Body} {o : AnalysisOptions} {p : Plan} :
    g.plan b o = .ok p ↔ b.check = .ok () ∧
      List.Forall₂ (fun a s => a.plan (b.facts o) g o = .ok s) b.allocations p.sites ∧
      p = { body := b.name, sites := p.sites, calls := bracketedCalls p.sites (b.facts o) } := by
  rw [← mapM_eq_ok_iff, TypeGraph.plan]
  cases b.check with
  | error e => simp [bind, Except.bind]
  | ok u =>
    cases hsites : b.allocations.mapM fun a => a.plan (b.facts o) g o with
    | error e => simp [hsites, bind, Except.bind]
    | ok sites =>
      simp only [hsites, bind, Except.bind, pure, Except.pure, Except.ok.injEq, true_and]
      constructor
      · rintro rfl
        exact ⟨rfl, rfl⟩
      · rintro ⟨rfl, hp⟩
        exact hp.symm

theorem TypeGraph.plan_eq_ok {g : TypeGraph} {b : Body} {o : AnalysisOptions} {p : Plan}
    (h : g.plan b o = .ok p) : p.Of g b o := by
  obtain ⟨hcheck, hsites, hp⟩ := TypeGraph.plan_eq_ok_iff.1 h
  refine ⟨Body.complete_of_check hcheck, fun s hs => ?_, fun a ha => ?_, ?_, ?_⟩
  · obtain ⟨a, ha, hs⟩ := exists_left_of_forall₂ hsites s hs
    exact ⟨a, ha, a.planned_of_eq_ok hs⟩
  · obtain ⟨s, hs, hplan⟩ := exists_right_of_forall₂ hsites a ha
    exact ⟨s, hs, a.planned_of_eq_ok hplan⟩
  · rw [map_of_forall₂ (fun a s hplan => (a.planned_of_eq_ok hplan).loc) hsites]
    exact b.nodup_allocations_location
  · refine ⟨_ ++ _, _ ++ _, (congrArg Plan.calls hp).trans (List.append_assoc ..), fun c hc => ?_⟩
    simp only [List.mem_append] at hc
    rcases hc with (hc | hc) | hc | hc
    · exact subject_bracket (.inl hc)
    · exact subject_bracket (.inl hc)
    · exact subject_bracket (.inr hc)
    · exact subject_bracket (.inr hc)

/-- A complete body that allocates objects of declared types has a plan. -/
theorem TypeGraph.exists_plan {g : TypeGraph} {b : Body} (o : AnalysisOptions) (hb : b.check = .ok ())
    (htypes : ∀ a ∈ b.allocations, a.type < g.size) : ∃ p, g.plan b o = .ok p := by
  have hall : ∀ a ∈ b.allocations, ∃ s, a.plan (b.facts o) g o = .ok s := fun a ha =>
    Allocation.exists_plan (b.facts o) o (htypes a ha)
  obtain ⟨sites, hsites⟩ := exists_mapM_eq_ok hall
  rw [TypeGraph.plan, hb]
  simp only [hsites, bind, Except.bind, pure, Except.pure]
  exact ⟨_, rfl⟩

/-- The calls made for an allocation stand together in the plan. -/
theorem Plan.Of.calls_together {p : Plan} {g : TypeGraph} {b : Body} {o : AnalysisOptions} (h : p.Of g b o) {s : AllocationSite}
    (hs : s ∈ p.sites) : s.calls (b.facts o) <:+: p.calls := by
  obtain ⟨opening, closing, hcalls, -⟩ := h.calls
  obtain ⟨before, after, hsites⟩ := List.append_of_mem hs
  refine ⟨opening ++ before.flatMap (·.calls (b.facts o)), after.flatMap (·.calls (b.facts o)) ++ closing, ?_⟩
  rw [hcalls, hsites, List.flatMap_append, List.flatMap_cons]
  simp only [List.append_assoc]

section

variable {p : Plan} {g : TypeGraph} {b : Body} {o : AnalysisOptions} {s : AllocationSite}

theorem Plan.Of.owners_eq (hp : p.Of g b o) (hs : s ∈ p.sites) : s.owners = b.ownership.ownersOf s.place := by
  obtain ⟨a, -, hplan⟩ := hp.site s hs
  rw [hplan.place]
  exact hplan.owners

theorem Plan.Of.alloc (hp : p.Of g b o) (hs : s ∈ p.sites) : ∃ site type frozen contents,
    b.instruction? s.loc = some (.statement (.assign s.place (.alloc site type frozen contents))) := by
  obtain ⟨a, ha, hplan⟩ := hp.site s hs
  obtain ⟨contents, halloc⟩ := Body.mem_allocations.1 ha
  refine ⟨a.site, a.type, a.frozen, contents, ?_⟩
  rw [hplan.loc, hplan.place]
  exact halloc

theorem Plan.Of.dest_mem (hp : p.Of g b o) (hs : s ∈ p.sites) {t : Transfer} (ht : t ∈ b.ownership.transfers)
    (hsource : t.source ∈ s.owners) : t.dest ∈ s.owners := by
  rw [hp.owners_eq hs, Ownership.mem_ownersOf] at hsource ⊢
  obtain ⟨root, hroot, hreach⟩ := hsource
  exact ⟨root, hroot, hreach.tail ⟨t, ht, rfl, rfl⟩⟩

end

/-! ## The calls at a point -/

@[simp] theorem callsAt_append (xs ys : List PlannedCall) (point : ProgramPoint) :
    callsAt (xs ++ ys) point = callsAt xs point ++ callsAt ys point :=
  List.filter_append ..

theorem callsAt_flatMap {α : Type} (l : List α) (f : α → List PlannedCall) (point : ProgramPoint) :
    callsAt (l.flatMap f) point = l.flatMap fun x => callsAt (f x) point :=
  List.filter_flatMap ..

theorem flatMap_eq_map_filter {α β : Type} (l : List α) (p : α → Bool) (f : α → β) :
    (l.flatMap fun x => if p x then [f x] else []) = (l.filter p).map f := by
  induction l with
  | nil => rfl
  | cons x l ih =>
    rw [List.flatMap_cons, ih, List.filter_cons]
    split <;> rfl

theorem filter_eq_ite_of_nodup {α : Type} [DecidableEq α] {l : List α} (hl : l.Nodup) {p : α → Bool} {x : α}
    (hx : ∀ y ∈ l, p y = true → y = x) : l.filter p = if x ∈ l ∧ p x then [x] else [] := by
  induction l with
  | nil => simp
  | cons y l ih =>
    obtain ⟨hy, hl⟩ := List.nodup_cons.1 hl
    rw [List.filter_cons, ih hl fun z hz => hx z (List.mem_cons_of_mem y hz)]
    by_cases hp : p y = true
    · obtain rfl := hx y List.mem_cons_self hp
      simp [hp, hy]
    · have hne : p x = true → x ≠ y := by
        rintro hpx rfl
        exact hp hpx
      by_cases hpx : p x = true
      · simp [hp, hpx, hne hpx]
      · simp [hp, hpx]

theorem DeathPoint.point_injective {d d' : DeathPoint} (h : d.point = d'.point) : d = d' := by
  cases d <;> cases d' <;> simp_all [DeathPoint.point]

theorem Strategy.acquire?_spec {strategy : Strategy} {f : EntryPoint} (h : strategy.acquire? = some f) :
    f.makes = false ∧ f.change = 1 := by
  cases strategy with
  | rc | symmetric =>
    obtain rfl := Option.some.inj h
    exact ⟨rfl, rfl⟩
  | asap | scc | arena => exact absurd h (by simp [Strategy.acquire?])

namespace AllocationSite

variable {s : AllocationSite} {b : Body}

/-- The calls before the releases at a point: making the object and a handle to it, and a reference for a
copy of an owner. -/
def openingCalls (s : AllocationSite) (own : Ownership) : List PlannedCall :=
  s.allocCalls ++ s.acquireCalls own

/-- What is asked of an allocation so that its owners give its object up, each where it dies. -/
structure Kept (s : AllocationSite) : Prop where
  owned : s.isEmbedded = false
  stays : s.decision.transfers = false
  strategy : s.strategy = .asap ∨ s.strategy = .rc ∨ s.strategy = .symmetric

theorem Kept.calls_eq (h : s.Kept) (f : BodyFacts) :
    s.calls f = s.openingCalls f.ownership ++ s.releaseCalls f.ownership f.liveness := by
  have hfreeze : s.freezeCalls f.ownership = [] := by
    rw [freezeCalls, if_neg]
    rcases h.strategy with h | h | h <;> simp [h]
  simp [calls, h.owned, h.stays, hfreeze, openingCalls]

/-- Whether an owner gives its reference up at a point. -/
def releasesOn (b : Body) (d : DeathPoint) (l : LocalId) : Bool :=
  ((Liveness.ofBody b).deathPoints l).contains d && releasesAt b.ownership l d

/-- At a point the owners that die there give their references up, in turn. -/
theorem callsAt_releaseCalls (hb : b.Complete) (hs : s.strategy ≠ .arena) (d : DeathPoint) :
    callsAt (s.releaseCalls b.ownership (.ofBody b)) d.point =
      (s.owners.filter (releasesOn b d)).map fun l => s.callAt d.point s.strategy.release (some l) := by
  rw [releaseCalls, if_neg hs, callsAt_flatMap, ← flatMap_eq_map_filter]
  refine List.flatMap_congr fun l _ => ?_
  have hunique : ∀ d' ∈ ((Liveness.ofBody b).deathPoints l).filter (releasesAt b.ownership l),
      ((s.callAt d'.point s.strategy.release (some l)).point == d.point) = true → d' = d := by
    intro d' _ h
    exact DeathPoint.point_injective (beq_iff_eq.1 h)
  rw [callsAt, List.filter_map, Function.comp_def,
    filter_eq_ite_of_nodup ((Liveness.nodup_deathPoints hb l).filter _) hunique]
  simp only [List.mem_filter, callAt, beq_self_eq_true, and_true, releasesOn, Bool.and_eq_true,
    List.contains_iff_mem]
  split <;> rfl

theorem acquireCalls_of_acquire {own : Ownership} {f : EntryPoint} (hf : s.strategy.acquire? = some f) :
    s.acquireCalls own = s.owners.flatMap fun l =>
      (own.copiesOf l).map fun (loc, dest) => s.callAt (.after loc) f (some dest) := by
  rw [acquireCalls, hf]

/-- At a position one copy at most takes a reference. -/
theorem callsAt_copiesOf {t : Transfer} (ht : t ∈ b.ownership.transfers) (hcopy : t.isMove = false) (f : EntryPoint)
    (l : LocalId) :
    callsAt ((b.ownership.copiesOf l).map fun (loc, dest) => s.callAt (.after loc) f (some dest)) (.after t.loc) =
      if l = t.source then [s.callAt (.after t.loc) f (some t.dest)] else [] := by
  rw [callsAt, Ownership.copiesOf, List.map_map, List.filter_map,
    filter_eq_ite_of_nodup (x := t) (b.nodup_transfers.filter _)]
  · simp only [List.mem_filter, ht, hcopy, true_and, Bool.not_false, Bool.and_true, beq_iff_eq,
      Function.comp_apply, callAt, beq_self_eq_true, and_true, eq_comm (a := t.source)]
    split <;> rfl
  · intro t' ht' hloc
    have hloc' : t'.loc = t.loc := by
      simpa [callAt] using hloc
    exact Body.transfer_unique (List.mem_filter.1 ht').1 ht hloc'

theorem callsAt_acquireCalls_of_copy {t : Transfer} {f : EntryPoint} (ht : t ∈ b.ownership.transfers)
    (hcopy : t.isMove = false) (howner : t.source ∈ s.owners) (hnodup : s.owners.Nodup)
    (hf : s.strategy.acquire? = some f) :
    callsAt (s.acquireCalls b.ownership) (.after t.loc) = [s.callAt (.after t.loc) f (some t.dest)] := by
  rw [acquireCalls_of_acquire hf, callsAt_flatMap, List.flatMap_congr fun l _ => callsAt_copiesOf ht hcopy f l]
  have hfilter := flatMap_eq_map_filter s.owners (fun l => l == t.source)
    fun _ => s.callAt (.after t.loc) f (some t.dest)
  simp only [beq_iff_eq] at hfilter
  rw [hfilter, filter_eq_ite_of_nodup (x := t.source) hnodup (by simp)]
  simp [howner]

theorem mem_acquireCalls {own : Ownership} {c : PlannedCall} : c ∈ s.acquireCalls own ↔
    ∃ call t, s.strategy.acquire? = some call ∧ t ∈ own.transfers ∧ t.isMove = false ∧ t.source ∈ s.owners ∧
      c = s.callAt (.after t.loc) call (some t.dest) := by
  rw [acquireCalls]
  cases s.strategy.acquire? with
  | none => simp
  | some call =>
    simp only [List.mem_flatMap, List.mem_map, Ownership.copiesOf, List.mem_filter, Bool.and_eq_true,
      beq_iff_eq, Bool.not_eq_true', Prod.exists, Prod.mk.injEq, Option.some.injEq]
    constructor
    · rintro ⟨_, hl, _, _, ⟨t, ⟨ht, rfl, hcopy⟩, rfl, rfl⟩, rfl⟩
      exact ⟨call, t, rfl, ht, hcopy, hl, rfl⟩
    · rintro ⟨_, t, rfl, ht, hcopy, hsource, rfl⟩
      exact ⟨t.source, hsource, t.loc, t.dest, ⟨t, ⟨ht, rfl, hcopy⟩, rfl, rfl⟩, rfl⟩

theorem callsAt_acquireCalls_of_none {point : ProgramPoint}
    (h : ∀ t ∈ b.ownership.transfers, t.isMove = false → t.source ∈ s.owners → .after t.loc ≠ point) :
    callsAt (s.acquireCalls b.ownership) point = [] := by
  rw [callsAt, List.filter_eq_nil_iff]
  intro c hc
  obtain ⟨call, t, -, ht, hcopy, hsource, rfl⟩ := mem_acquireCalls.1 hc
  simpa [callAt] using h t ht hcopy hsource

theorem mem_allocCalls {c : PlannedCall} : c ∈ s.allocCalls ↔
    c = s.callAt (.instead s.loc) s.allocator s.firstOwner? ∨ s.decision.needsHandle = true ∧
      s.isEmbedded = false ∧ c = s.callAt (.after s.loc) .makeHandle s.firstOwner? := by
  rw [allocCalls, List.mem_cons]
  cases s.decision.needsHandle <;> cases s.isEmbedded <;> simp

theorem point_allocCalls {c : PlannedCall} (h : c ∈ s.allocCalls) :
    c.point = .instead s.loc ∨ c.point = .after s.loc := by
  rcases mem_allocCalls.1 h with rfl | ⟨-, -, rfl⟩
  · exact .inl rfl
  · exact .inr rfl

theorem callsAt_allocCalls_of_ne {point : ProgramPoint} (hinstead : point ≠ .instead s.loc)
    (hafter : point ≠ .after s.loc) : callsAt s.allocCalls point = [] := by
  rw [callsAt, List.filter_eq_nil_iff]
  intro c hc he
  rw [beq_iff_eq] at he
  rcases point_allocCalls hc with h | h
  · exact hinstead (he.symm.trans h)
  · exact hafter (he.symm.trans h)

/-! ### All calls of an allocation -/

/-- What a call made for an allocation is, and what has been decided about an allocation that makes it. -/
inductive CallOf (s : AllocationSite) (f : BodyFacts) : PlannedCall → Prop where
  | make : CallOf s f (s.callAt (.instead s.loc) s.allocator s.firstOwner?)
  | handle (howned : s.isEmbedded = false) (hneeds : s.decision.needsHandle = true) :
      CallOf s f (s.callAt (.after s.loc) .makeHandle s.firstOwner?)
  | handOver {loc : Location} (howned : s.isEmbedded = false) (hgone : s.decision.transfers = true)
      (hsym : s.strategy = .symmetric) (hloc : loc ∈ f.returns) :
      CallOf s f (s.callAt (.before loc) .symAcquire s.firstOwner?)
  | freeze (howned : s.isEmbedded = false) (hstays : s.decision.transfers = false) (hscc : s.strategy = .scc) :
      CallOf s f (s.callAt (.after ((f.ownership.lastFieldWrite? s.owners).getD s.loc)) .sccFreeze s.firstOwner?)
  | acquire {call : EntryPoint} {t : Transfer} (howned : s.isEmbedded = false)
      (hstays : s.decision.transfers = false) (hcounts : s.strategy.acquire? = some call)
      (ht : t ∈ f.ownership.transfers) (hcopy : t.isMove = false) (hsource : t.source ∈ s.owners) :
      CallOf s f (s.callAt (.after t.loc) call (some t.dest))
  | release {l : LocalId} {d : DeathPoint} (howned : s.isEmbedded = false)
      (hstays : s.decision.transfers = false) (harena : s.strategy ≠ .arena) (hl : l ∈ s.owners)
      (hd : d ∈ f.liveness.deathPoints l) (hkeeps : releasesAt f.ownership l d = true) :
      CallOf s f (s.callAt d.point s.strategy.release (some l))

theorem mem_releaseCalls {own : Ownership} {live : Liveness} {c : PlannedCall} :
    c ∈ s.releaseCalls own live ↔ s.strategy ≠ .arena ∧ ∃ l ∈ s.owners, ∃ d ∈ live.deathPoints l,
      releasesAt own l d = true ∧ c = s.callAt d.point s.strategy.release (some l) := by
  rw [releaseCalls]
  split
  · next harena => simp [harena]
  · next harena =>
    simp only [List.mem_flatMap, List.mem_map, List.mem_filter, ne_eq, harena, not_false_eq_true, true_and]
    exact exists_congr fun l => and_congr_right fun _ => exists_congr fun d => by
      simp [and_assoc, eq_comm (a := c)]

theorem callOf_of_mem {f : BodyFacts} {c : PlannedCall} (hc : c ∈ s.calls f) : s.CallOf f c := by
  rw [calls, List.mem_append] at hc
  rcases hc with hc | hc
  · rcases mem_allocCalls.1 hc with rfl | ⟨hneeds, howned, rfl⟩
    · exact .make
    · exact .handle howned hneeds
  cases howned : s.isEmbedded with
  | true => simp [howned] at hc
  | false =>
    rw [howned, if_neg (by simp)] at hc
    cases htransfers : s.decision.transfers with
    | true =>
      rw [htransfers, if_pos rfl, handOverCalls] at hc
      split at hc
      · next hsym =>
        obtain ⟨loc, hloc, rfl⟩ := List.mem_map.1 hc
        exact .handOver howned htransfers hsym hloc
      · simp at hc
    | false =>
      rw [htransfers, if_neg (by simp), List.mem_append, List.mem_append] at hc
      rcases hc with (hc | hc) | hc
      · rw [freezeCalls] at hc
        split at hc
        · next hscc =>
          rw [List.mem_singleton.1 hc]
          exact .freeze howned htransfers hscc
        · simp at hc
      · obtain ⟨call, t, hcall, ht, hcopy, hsource, rfl⟩ := mem_acquireCalls.1 hc
        exact .acquire howned htransfers hcall ht hcopy hsource
      · obtain ⟨harena, l, hl, d, hd, hkeeps, rfl⟩ := mem_releaseCalls.1 hc
        exact .release howned htransfers harena hl hd hkeeps

/-- No call for an allocation opens or closes an arena or a scope. -/
theorem CallOf.notMem_brackets {f : BodyFacts} {c : PlannedCall} (hc : s.CallOf f c) :
    c.call ∉ EntryPoint.brackets := by
  cases hc with
  | make =>
    show s.allocator ∉ _
    rw [allocator]
    split
    · decide
    · cases s.strategy <;> decide
  | handle | handOver | freeze =>
    simp only [callAt]
    decide
  | acquire _ _ hcounts =>
    simp only [callAt]
    cases hs : s.strategy with
    | rc | symmetric =>
      obtain rfl := Option.some.inj (hs ▸ hcounts)
      decide
    | asap | scc | arena => exact absurd (hs ▸ hcounts) (by simp [Strategy.acquire?])
  | release _ _ harena =>
    simp only [callAt]
    cases hs : s.strategy with
    | arena => exact absurd hs harena
    | asap | rc | scc | symmetric => decide

theorem makes_allocator (s : AllocationSite) : s.allocator.makes = true := by
  rw [allocator]
  split
  · rfl
  · cases s.strategy <;> rfl

theorem firstOwner?_mem {l : LocalId} (h : s.firstOwner? = some l) : l ∈ s.owners :=
  List.mem_of_head? h

/-- What is freed as a tree has been planned so. -/
theorem kept_of_freeTree {f : BodyFacts} {c : PlannedCall} (hc : c ∈ s.calls f) (hfree : c.call = .freeTree) :
    s.Kept ∧ s.strategy = .asap := by
  cases callOf_of_mem hc with
  | make =>
    have hmakes := makes_allocator s
    rw [show s.allocator = .freeTree from hfree] at hmakes
    exact absurd hmakes (by decide)
  | handle | handOver | freeze => exact absurd hfree (by simp [callAt])
  | acquire _ _ hcounts =>
    have hchange := (Strategy.acquire?_spec hcounts).2
    simp only [callAt] at hfree
    rw [hfree] at hchange
    exact absurd hchange (by decide)
  | release howned hstays =>
    have hasap : s.strategy = .asap := Strategy.release_injective hfree
    exact ⟨⟨howned, hstays, .inl hasap⟩, hasap⟩

/-- Only owners are passed to the calls of an allocation. -/
theorem subject_of_mem_calls {f : BodyFacts} (howners : ∀ t ∈ f.ownership.transfers, t.source ∈ s.owners →
    t.dest ∈ s.owners) {c : PlannedCall} (hc : c ∈ s.calls f) :
    c.subject = s.firstOwner? ∨ ∃ l ∈ s.owners, c.subject = some l := by
  cases callOf_of_mem hc with
  | make | handle | handOver | freeze => exact .inl rfl
  | acquire _ _ _ ht _ hsource => exact .inr ⟨_, howners _ ht hsource, rfl⟩
  | release _ _ _ hl => exact .inr ⟨_, hl, rfl⟩

theorem mem_owners_of_mem_calls {f : BodyFacts} (howners : ∀ t ∈ f.ownership.transfers, t.source ∈ s.owners →
    t.dest ∈ s.owners) {c : PlannedCall} (hc : c ∈ s.calls f) {l : LocalId} (hl : c.subject = some l) :
    l ∈ s.owners := by
  rcases subject_of_mem_calls howners hc with hfirst | ⟨l', hl', hsubject⟩
  · exact firstOwner?_mem (hfirst.symm.trans hl)
  · exact Option.some.inj (hsubject.symm.trans hl) ▸ hl'

/-- Under this strategy no call adds to a count. -/
theorem change_of_mem_calls {f : BodyFacts} (hkept : s.Kept) (hasap : s.strategy = .asap) {c : PlannedCall}
    (hc : c ∈ s.calls f) : c.call.change ≤ 0 := by
  cases callOf_of_mem hc with
  | make =>
    show s.allocator.change ≤ 0
    rw [allocator, hasap]
    split <;> simp [EntryPoint.change]
  | handle | freeze => simp [callAt, EntryPoint.change]
  | handOver _ htransfers => exact absurd (htransfers.symm.trans hkept.stays) (by simp)
  | acquire _ _ hcounts => exact absurd (hasap ▸ hcounts) (by simp [Strategy.acquire?])
  | release =>
    rw [hasap]
    simp [callAt, Strategy.release, EntryPoint.change]

end AllocationSite

/-- The call that an owner's death comes with is one of the plan. -/
theorem Plan.Of.free_mem {p : Plan} {g : TypeGraph} {b : Body} {o : AnalysisOptions} (hp : p.Of g b o)
    {s : AllocationSite} (hs : s ∈ p.sites) (hkept : s.Kept) (hasap : s.strategy = .asap) {l : LocalId}
    (hl : l ∈ s.owners) {loc : Location} (hdies : AllocationSite.releasesOn b (.after loc) l = true) :
    s.callAt (.after loc) .freeTree (some l) ∈ callsAt p.calls (.after loc) := by
  have hmem : s.callAt (.after loc) .freeTree (some l) ∈ callsAt (s.calls (b.facts o)) (.after loc) := by
    have hrelease := AllocationSite.callsAt_releaseCalls hp.complete (s := s) (by simp [hasap]) (.after loc)
    rw [hkept.calls_eq, callsAt_append]
    refine List.mem_append_right _ ?_
    show _ ∈ callsAt (s.releaseCalls b.ownership (.ofBody b)) (DeathPoint.after loc).point
    rw [hrelease, hasap]
    exact List.mem_map.2 ⟨l, List.mem_filter.2 ⟨hl, hdies⟩, rfl⟩
  obtain ⟨hmem, hpoint⟩ := List.mem_filter.1 hmem
  exact List.mem_filter.2 ⟨(hp.calls_together hs).subset hmem, hpoint⟩

end Reclamation
