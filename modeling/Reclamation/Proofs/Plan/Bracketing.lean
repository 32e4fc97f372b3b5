import Mathlib
import Reclamation.Proofs.Analysis.Escape
import Reclamation.Proofs.Plan.Escape
import Reclamation.Proofs.Plan.Lowering

/-!
# Where arenas and scopes are open

A body with an allocation in an arena creates one arena where it is entered and destroys it where it returns,
and a body with a symmetric allocation does the same with a scope. On each path from the entry to a return,
everything that a plan does for an allocation falls between the two (`TypeGraph.plan_encloses`).

The calls of a plan are placed before instructions, in place of them, after them and on jumps, by parts that
do not know of each other. What makes them fit is that nothing is placed after a return
(`TypeGraph.point_ne_ret`). All calls after an instruction are after statements, except that an owner
may die after a terminator; and the one local that a return uses is the one that it returns. An object that
this local owns escapes, so its owners do not give it up.
-/

set_option autoImplicit false

namespace Reclamation

/-! ## The calls along a path -/

/-- The call that an action is, if it is one. -/
def Action.call? : Action → Option PlannedCall
  | .exec _ _ => none
  | .call c => some c

/-- The calls that are made along the steps of a path, in order. -/
def callsAlong (calls : List PlannedCall) (steps : List Body.Step) : List PlannedCall :=
  (actionsAlong calls steps).filterMap Action.call?

/-- The calls made at a step. -/
def Body.Step.calls (calls : List PlannedCall) (step : Step) : List PlannedCall :=
  (step.actions calls).filterMap Action.call?

theorem filterMap_call?_map (calls : List PlannedCall) : (calls.map Action.call).filterMap Action.call? = calls := by
  rw [List.filterMap_map]
  exact List.filterMap_some

theorem Body.Step.calls_exec (calls : List PlannedCall) (loc : Location) (i : Instruction) :
    Step.calls calls (.exec loc i) =
      callsAt calls (.before loc) ++ (callsAt calls (.instead loc) ++ callsAt calls (.after loc)) := by
  rw [Step.calls, actions, callsBefore, restActions, List.filterMap_append, List.filterMap_cons_none rfl,
    filterMap_call?_map, filterMap_call?_map]

theorem Body.Step.calls_jump (calls : List PlannedCall) (source target : BlockId) :
    Step.calls calls (.jump source target) = callsAt calls (.edge source target) := by
  rw [Step.calls, actions, callsBefore, restActions, List.append_nil, filterMap_call?_map]

theorem Body.Step.mem_calls {calls : List PlannedCall} {step : Step} {c : PlannedCall} :
    c ∈ step.calls calls ↔ c ∈ calls ∧
      match step with
      | exec loc _ => c.point = .before loc ∨ c.point = .instead loc ∨ c.point = .after loc
      | jump source target => c.point = .edge source target := by
  cases step with
  | exec loc i =>
    rw [calls_exec]
    simp only [callsAt, List.mem_append, List.mem_filter, beq_iff_eq]
    tauto
  | jump source target => simp [calls_jump, callsAt]

theorem callsAlong_eq (calls : List PlannedCall) (steps : List Body.Step) :
    callsAlong calls steps = callsAt calls .entry ++ steps.flatMap (Body.Step.calls calls) := by
  rw [callsAlong, actionsAlong, List.filterMap_append, filterMap_call?_map, List.filterMap_flatMap]
  rfl

theorem callsAt_eq_nil {calls : List PlannedCall} {point : ProgramPoint} (h : ∀ c ∈ calls, c.point ≠ point) :
    callsAt calls point = [] :=
  List.filter_eq_nil_iff.2 fun c hc => by simpa using h c hc

/-! ## What is opened and closed -/

/-- The entry points that open and close what a strategy needs in a body. -/
def Strategy.bracket? : Strategy → Option (EntryPoint × EntryPoint)
  | arena => some (.arenaCreate, .arenaDestroy)
  | symmetric => some (.symEnterScope, .symExitScope)
  | asap | rc | scc => none

/-- One call opens and one closes. Only calls that open or close something come before the first or after the
second, so that all calls for allocations are between them. -/
def Encloses (opening closing : EntryPoint) (calls : List PlannedCall) : Prop :=
  ∃ (before inside after : List PlannedCall) (c d : PlannedCall),
    calls = before ++ c :: inside ++ d :: after ∧ c.call = opening ∧ d.call = closing ∧
    (∀ e ∈ before ++ inside ++ after, e.call ≠ opening ∧ e.call ≠ closing) ∧
    ∀ e ∈ before ++ after, e.site = none ∧ e.call ∈ EntryPoint.brackets

/-! ## Where the calls for an allocation are placed -/

section

variable {p : Plan} {g : TypeGraph} {b : Body} {o : AnalysisOptions} {s : AllocationSite}

theorem Ownership.lastFieldWrite?_spec {owners : List LocalId} {loc : Location}
    (h : b.ownership.lastFieldWrite? owners = some loc) : ∃ st, b.instruction? loc = some (.statement st) := by
  obtain ⟨⟨loc', l⟩, hlast, rfl⟩ := Option.map_eq_some_iff.1 h
  have hmem := (List.mem_filter.1 (List.mem_of_getLast? hlast)).1
  simp only [Body.ownership, List.mem_filterMap, Prod.exists] at hmem
  obtain ⟨loc'', st, hst, hwrite⟩ := hmem
  obtain ⟨_, -, he⟩ := Option.map_eq_some_iff.1 hwrite
  obtain ⟨rfl, -⟩ := Prod.mk.inj he
  exact ⟨st, Body.mem_statements.1 hst⟩

/-- The local that is returned owns nothing that its owners give up. -/
theorem Plan.Of.returnLocal_notMem (hp : p.Of g b o) (hs : s ∈ p.sites) (hstays : s.decision.transfers = false) :
    returnLocal ∉ s.owners := by
  intro howner
  obtain ⟨a, -, hplan⟩ := hp.site s hs
  have hescape : (b.facts o).escapeOf a s.owners = .global :=
    (BodyFacts.escapeOf_eq_global_iff (List.ne_nil_of_mem howner)).2 ⟨_, howner, b.returnLocal_mem_global o⟩
  rw [hplan.decision] at hstays
  simp [RouteInput.route, RouteInput.transfers, BodyFacts.routeInput, hescape] at hstays

/-- Calls for an allocation replace statements and follow what is not a return. -/
theorem Plan.Of.point_of_callOf (hp : p.Of g b o) (hs : s ∈ p.sites) {c : PlannedCall}
    (hc : s.CallOf (b.facts o) c) {loc : Location} (hret : b.instruction? loc = some (.terminator .ret)) :
    c.point ≠ .instead loc ∧ c.point ≠ .after loc := by
  -- no statement stands where the body returns
  have hstatement : ∀ {loc' st}, b.instruction? loc' = some (.statement st) → loc' ≠ loc := by
    rintro loc' st hst rfl
    exact absurd (hst.symm.trans hret) (by simp)
  obtain ⟨site, type, frozen, contents, halloc⟩ := hp.alloc hs
  have hloc := hstatement halloc
  cases hc with
  | make => simpa [AllocationSite.callAt] using hloc
  | handle => simpa [AllocationSite.callAt] using hloc
  | handOver => simp [AllocationSite.callAt]
  | freeze =>
    have hwrite : (b.ownership.lastFieldWrite? s.owners).getD s.loc ≠ loc := by
      cases h : b.ownership.lastFieldWrite? s.owners with
      | none => exact hloc
      | some loc' =>
        obtain ⟨st, hst⟩ := Ownership.lastFieldWrite?_spec h
        exact hstatement hst
    simpa [AllocationSite.callAt, Body.facts] using hwrite
  | @acquire call t _ _ _ ht =>
    obtain ⟨st, hst, -⟩ := Body.mem_transfers.1 ht
    simpa [AllocationSite.callAt] using hstatement hst
  | @release l d _ hstays _ hl hd =>
    cases d with
    | edge => simp [AllocationSite.callAt, DeathPoint.point]
    | after loc' =>
      have hdies : loc' ≠ loc := by
        rintro rfl
        obtain ⟨-, i, hi, htouches, -⟩ := (Liveness.after_mem_deathPoints hp.complete).1 hd
        obtain rfl := Option.some.inj (hret.symm.trans hi)
        have hreturned : l = returnLocal := by
          simpa [Instruction.effects, Terminator.effects, Effects.touches] using htouches
        exact hp.returnLocal_notMem hs hstays (hreturned ▸ hl)
      simpa [AllocationSite.callAt, DeathPoint.point] using hdies

theorem AllocationSite.CallOf.point_ne_entry {f : BodyFacts} {c : PlannedCall} (hc : s.CallOf f c) :
    c.point ≠ .entry := by
  cases hc with
  | make | handle | handOver | freeze | acquire => simp [callAt]
  | @release l d => cases d <;> simp [callAt, DeathPoint.point]

/-! ## The plan of a body -/

/-- The calls of a plan that are made for its allocations. -/
def siteCalls (sites : List AllocationSite) (f : BodyFacts) : List PlannedCall :=
  sites.flatMap (·.calls f)

theorem callOf_of_mem_siteCalls {sites : List AllocationSite} {f : BodyFacts} {c : PlannedCall}
    (hc : c ∈ siteCalls sites f) : ∃ s ∈ sites, s.CallOf f c := by
  obtain ⟨s, hs, hc⟩ := List.mem_flatMap.1 hc
  exact ⟨s, hs, AllocationSite.callOf_of_mem hc⟩

/-- A call of a plan is made for an allocation, opens something at the entry, or closes something before a
return. -/
theorem TypeGraph.mem_calls_cases (hp : g.plan b o = .ok p) {c : PlannedCall} (hc : c ∈ p.calls) :
    c ∈ siteCalls p.sites (b.facts o) ∨ c.point = .entry ∨
      ∃ loc, b.instruction? loc = some (.terminator .ret) ∧ c.point = .before loc := by
  obtain ⟨-, -, heq⟩ := TypeGraph.plan_eq_ok_iff.1 hp
  rw [congrArg Plan.calls heq] at hc
  simp only [bracketedCalls, List.mem_append, mem_bracket_fst, mem_bracket_snd] at hc
  rcases hc with (((⟨-, rfl⟩ | ⟨-, rfl⟩) | hc) | ⟨-, loc, hloc, rfl⟩) | ⟨-, loc, hloc, rfl⟩
  · exact .inr (.inl rfl)
  · exact .inr (.inl rfl)
  · exact .inl hc
  · exact .inr (.inr ⟨loc, Body.mem_returnLocations.1 hloc, rfl⟩)
  · exact .inr (.inr ⟨loc, Body.mem_returnLocations.1 hloc, rfl⟩)

/-- Nothing is planned in place of a return or after it. -/
theorem TypeGraph.point_ne_ret (hp : g.plan b o = .ok p) {c : PlannedCall} (hc : c ∈ p.calls) {loc : Location}
    (hret : b.instruction? loc = some (.terminator .ret)) : c.point ≠ .instead loc ∧ c.point ≠ .after loc := by
  rcases TypeGraph.mem_calls_cases hp hc with hc | hc | ⟨loc', -, hc⟩
  · obtain ⟨s, hs, hc⟩ := callOf_of_mem_siteCalls hc
    exact (TypeGraph.plan_eq_ok hp).point_of_callOf hs hc hret
  · simp [hc]
  · simp [hc]

/-- Up to the return only calls for allocations are made after the entry. -/
theorem TypeGraph.mem_siteCalls_of_path (hp : g.plan b o = .ok p) {steps : List Body.Step} {loc : Location}
    (hpath : b.Path steps loc) {c : PlannedCall} (hc : c ∈ steps.flatMap (Body.Step.calls p.calls)) :
    c ∈ siteCalls p.sites (b.facts o) := by
  obtain ⟨step, hstep, hc⟩ := List.mem_flatMap.1 hc
  obtain ⟨hc, hpoint⟩ := Body.Step.mem_calls.1 hc
  rcases TypeGraph.mem_calls_cases hp hc with hc | hentry | ⟨loc', hret, hbefore⟩
  · exact hc
  · cases step <;> simp [hentry] at hpoint
  · cases step with
    | jump => simp [hbefore] at hpoint
    | exec d i =>
      -- a step before a return would execute the return
      obtain rfl : loc' = d := by simpa [hbefore] using hpoint
      have hi := hpath.instruction?_of_mem hstep
      exact absurd (Option.some.inj (hi.symm.trans hret)) (hpath.not_ret_of_mem hstep)

/-- What is opened at the entry and closed before a return for the sake of a strategy: nothing else, and both
once if an allocation has the strategy. -/
structure Opens (sites : List AllocationSite) (strategy : Strategy) (opening closing : EntryPoint)
    (xs ys : List PlannedCall) : Prop where
  first : ∀ c ∈ xs, c.site = none ∧ c.call = opening
  last : ∀ c ∈ ys, c.site = none ∧ c.call = closing
  used : ∀ s ∈ sites, s.strategy = strategy → ∃ c d, xs = [c] ∧ ys = [d]

section

variable {sites : List AllocationSite} {strategy : Strategy} {opening closing : EntryPoint}
  {returns : List Location} {loc : Location}

theorem point_bracket_fst {c : PlannedCall} (hc : c ∈ (bracket sites strategy opening closing returns).1) :
    c.point = .entry := by
  rw [(mem_bracket_fst.1 hc).2]

theorem point_bracket_snd_ne_entry {c : PlannedCall}
    (hc : c ∈ (bracket sites strategy opening closing returns).2) : c.point ≠ .entry := by
  obtain ⟨-, loc, -, rfl⟩ := mem_bracket_snd.1 hc
  simp

theorem callsAt_bracket_fst : callsAt (bracket sites strategy opening closing returns).1 .entry =
    (bracket sites strategy opening closing returns).1 :=
  List.filter_eq_self.2 fun _ hc => beq_iff_eq.2 (point_bracket_fst hc)

theorem callsAt_bracket_fst_before : callsAt (bracket sites strategy opening closing returns).1 (.before loc) = [] :=
  callsAt_eq_nil fun c hc => by simp [point_bracket_fst hc]

theorem callsAt_bracket_snd_entry : callsAt (bracket sites strategy opening closing returns).2 .entry = [] :=
  callsAt_eq_nil fun _ hc => point_bracket_snd_ne_entry hc

theorem opens_bracket (hreturns : returns.Nodup) (hloc : loc ∈ returns) :
    Opens sites strategy opening closing (bracket sites strategy opening closing returns).1
      (callsAt (bracket sites strategy opening closing returns).2 (.before loc)) where
  first c hc := by
    rw [(mem_bracket_fst.1 hc).2]
    exact ⟨rfl, rfl⟩
  last c hc := by
    obtain ⟨-, loc', -, rfl⟩ := mem_bracket_snd.1 (List.mem_filter.1 hc).1
    exact ⟨rfl, rfl⟩
  used s hs hstrategy := by
    refine ⟨{ point := .entry, call := opening }, { point := .before loc, call := closing }, ?_, ?_⟩
    · rw [bracket, if_pos (any_strategy_iff.2 ⟨s, hs, hstrategy⟩)]
    · rw [bracket, if_pos (any_strategy_iff.2 ⟨s, hs, hstrategy⟩), callsAt, List.filter_map,
        filter_eq_ite_of_nodup (x := loc) hreturns (by simp)]
      simp [hloc]

end

/-- The calls along a path to a return: what is opened at the entry, the calls for allocations, and what is
closed before the return. -/
theorem TypeGraph.callsAlong_plan (hp : g.plan b o = .ok p) {before : List Body.Step} {loc : Location}
    (hpath : b.Path before loc) (hret : b.instruction? loc = some (.terminator .ret)) :
    ∃ openArena openScope inside closeArena closeScope,
      callsAlong p.calls (before ++ [.exec loc (.terminator .ret)]) =
        openArena ++ openScope ++ inside ++ closeArena ++ closeScope ∧
      Opens p.sites .arena .arenaCreate .arenaDestroy openArena closeArena ∧
      Opens p.sites .symmetric .symEnterScope .symExitScope openScope closeScope ∧
      ∀ c ∈ inside, c ∈ siteCalls p.sites (b.facts o) := by
  obtain ⟨-, -, heq⟩ := TypeGraph.plan_eq_ok_iff.1 hp
  have hcalls : p.calls = bracketedCalls p.sites (b.facts o) := congrArg Plan.calls heq
  have hreturns : (b.facts o).returns.Nodup := b.nodup_returnLocations
  have hloc : loc ∈ (b.facts o).returns := Body.mem_returnLocations.2 hret
  refine ⟨_, _, before.flatMap (Body.Step.calls p.calls) ++ callsAt (siteCalls p.sites (b.facts o)) (.before loc),
    _, _, ?_, opens_bracket hreturns hloc, opens_bracket hreturns hloc, ?_⟩
  · have hentry : callsAt p.calls .entry =
        (bracket p.sites .arena .arenaCreate .arenaDestroy (b.facts o).returns).1 ++
          (bracket p.sites .symmetric .symEnterScope .symExitScope (b.facts o).returns).1 := by
      have hsites : callsAt (siteCalls p.sites (b.facts o)) .entry = [] := by
        refine callsAt_eq_nil fun c hc => ?_
        obtain ⟨s, -, hc⟩ := callOf_of_mem_siteCalls hc
        exact hc.point_ne_entry
      rw [hcalls, bracketedCalls, ← siteCalls]
      simp only [callsAt_append, callsAt_bracket_fst, callsAt_bracket_snd_entry, hsites, List.append_nil]
    have hbefore : callsAt p.calls (.before loc) = callsAt (siteCalls p.sites (b.facts o)) (.before loc) ++
        callsAt (bracket p.sites .arena .arenaCreate .arenaDestroy (b.facts o).returns).2 (.before loc) ++
        callsAt (bracket p.sites .symmetric .symEnterScope .symExitScope (b.facts o).returns).2 (.before loc) := by
      rw [hcalls, bracketedCalls, ← siteCalls]
      simp only [callsAt_append, callsAt_bracket_fst_before, List.nil_append]
    have hlast : Body.Step.calls p.calls (.exec loc (.terminator .ret)) = callsAt p.calls (.before loc) := by
      rw [Body.Step.calls_exec, callsAt_eq_nil fun c hc => (TypeGraph.point_ne_ret hp hc hret).1,
        callsAt_eq_nil fun c hc => (TypeGraph.point_ne_ret hp hc hret).2, List.append_nil, List.append_nil]
    rw [callsAlong_eq, List.flatMap_append, List.flatMap_singleton, hlast, hentry, hbefore]
    simp only [List.append_assoc]
  · intro c hc
    rcases List.mem_append.1 hc with hc | hc
    · exact TypeGraph.mem_siteCalls_of_path hp hpath hc
    · exact (List.mem_filter.1 hc).1

/-! ## Main result -/

theorem ne_of_notMem_brackets {f opening closing : EntryPoint} (hf : f ∉ EntryPoint.brackets)
    (hopening : opening ∈ EntryPoint.brackets) (hclosing : closing ∈ EntryPoint.brackets) :
    f ≠ opening ∧ f ≠ closing :=
  ⟨fun h => hf (h ▸ hopening), fun h => hf (h ▸ hclosing)⟩

/-- On each path from the entry to a return, what an allocation in an arena or in a scope needs is opened
once, before all calls for allocations, and closed once, after all of them; and nothing is planned after a
return. -/
theorem TypeGraph.plan_encloses (hp : g.plan b o = .ok p) :
    (∀ s ∈ p.sites, ∀ opening closing, s.strategy.bracket? = some (opening, closing) →
      ∀ steps, b.Returns steps → Encloses opening closing (callsAlong p.calls steps)) ∧
    ∀ c ∈ p.calls, ∀ loc, b.instruction? loc = some (.terminator .ret) → c.point ≠ .after loc := by
  refine ⟨?_, fun c hc loc hret => (TypeGraph.point_ne_ret hp hc hret).2⟩
  rintro s hs opening closing hbracket steps ⟨before, loc, hpath, hret, rfl⟩
  obtain ⟨openArena, openScope, inside, closeArena, closeScope, heq, harena, hscope, hinside⟩ :=
    TypeGraph.callsAlong_plan hp hpath hret
  have hsites : ∀ e ∈ inside, e.call ∉ EntryPoint.brackets := by
    intro e he
    obtain ⟨t, -, hcall⟩ := callOf_of_mem_siteCalls (hinside e he)
    exact hcall.notMem_brackets
  cases hstrategy : s.strategy with
  | asap | rc | scc =>
    rw [hstrategy] at hbracket
    exact absurd hbracket (by simp [Strategy.bracket?])
  | arena =>
    rw [hstrategy] at hbracket
    obtain ⟨rfl, rfl⟩ := Prod.mk.inj (Option.some.inj hbracket)
    obtain ⟨c, d, rfl, rfl⟩ := harena.used s hs hstrategy
    -- a scope is entered after the arena is made, and left after it is destroyed
    refine ⟨[], openScope ++ inside, closeScope, c, d, by simp [heq], (harena.first c (by simp)).2,
      (harena.last d (by simp)).2, ?_, ?_⟩
    · intro e he
      simp only [List.nil_append, List.mem_append] at he
      rcases he with (he | he) | he
      · simp [(hscope.first e he).2]
      · exact ne_of_notMem_brackets (hsites e he) (by decide) (by decide)
      · simp [(hscope.last e he).2]
    · intro e he
      obtain ⟨hsite, hcall⟩ := hscope.last e he
      exact ⟨hsite, hcall ▸ by decide⟩
  | symmetric =>
    rw [hstrategy] at hbracket
    obtain ⟨rfl, rfl⟩ := Prod.mk.inj (Option.some.inj hbracket)
    obtain ⟨c, d, rfl, rfl⟩ := hscope.used s hs hstrategy
    refine ⟨openArena, inside ++ closeArena, [], c, d, by simp [heq], (hscope.first c (by simp)).2,
      (hscope.last d (by simp)).2, ?_, ?_⟩
    · intro e he
      simp only [List.append_nil, List.mem_append] at he
      rcases he with he | he | he
      · simp [(harena.first e he).2]
      · exact ne_of_notMem_brackets (hsites e he) (by decide) (by decide)
      · simp [(harena.last e he).2]
    · intro e he
      obtain ⟨hsite, hcall⟩ := harena.first e (by simpa using he)
      exact ⟨hsite, hcall ▸ by decide⟩

end

/-- The scope is entered before the object that is sent is made, and left after it has been acquired for
whoever receives it. -/
theorem TypeGraph.plan_encloses_sent : ∃ p, sealed.plan sent {} = .ok p ∧ sent.Returns sent.straightSteps ∧
    Encloses .symEnterScope .symExitScope (callsAlong p.calls sent.straightSteps) := by
  obtain ⟨p, hp⟩ := TypeGraph.exists_plan (g := sealed) (b := sent) {} (by decide) (by decide)
  obtain ⟨s, hs, hplan⟩ := (TypeGraph.plan_eq_ok hp).planned ⟨⟨0, 0⟩, .ofLocal 1, 0, 0, false⟩ (by decide)
  have hreturns : sent.Returns sent.straightSteps :=
    ⟨_, ⟨0, 3⟩, ((Body.Path.entry.next rfl).next rfl).next rfl, rfl, rfl⟩
  have hbracket : s.strategy.bracket? = some (.symEnterScope, .symExitScope) := by
    rw [strategy_of_sealed hplan rfl]
    rfl
  exact ⟨p, hp, hreturns, (TypeGraph.plan_encloses hp).1 s hs _ _ hbracket _ hreturns⟩

end Reclamation
