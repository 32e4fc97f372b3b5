import Mathlib
import Reclamation.Proofs.Plan.Confinement
import Reclamation.Proofs.Plan.Escape
import Reclamation.Proofs.TypeGraph.Shapes

/-!
# Trees are freed when nothing uses them any more

A tree is freed as a whole where its only owner dies, whatever its count is. For the allocations that are
planned so, the balance of counts says that the owner has the last reference: the count of an object never
exceeds one (`Execution.Spent`), and a live owner accounts for one. So whoever uses an owner finds the object
not freed (`Tracked.spared`), and this carries over from the calls of one allocation to the whole plan
(`spared_of_filter`).

That holds of references which the owners hand on by moves to whole locals. A move into a field does not count
as one, and what was moved there is freed with the local it was moved from (`freed_in_use`). Where owners hand
on their references as planned, no field refers to what has been freed, and neither an instruction nor
a planned call uses it (`freed_unused`).
-/

set_option autoImplicit false

namespace Reclamation

open Liveness (ofBody)

/-! ## One reference to each object -/

namespace Execution

variable {e : Execution} {origin : Location}

/-- No object is counted twice, and those that are freed are not counted any more. -/
structure Spent (e : Execution) : Prop where
  le_one : ∀ x n, e.count x = some n → n ≤ 1
  freed : ∀ x, e.freed x = true → ∃ n, e.count x = some n ∧ n ≤ 0

/-- What an action uses is not a freed object of an allocation. -/
def Spared (e : Execution) (origin : Location) (a : Action) : Prop :=
  ∀ l ∈ a.uses, ∀ x, e.store.locals l = some x → e.store.origin x = some origin → e.freed x = false

theorem spent_start (σ : Store) : (Execution.start σ).Spent where
  le_one _ _ h := absurd h (by simp [start])
  freed _ h := absurd h (by simp [start])

theorem Spent.exec (h : e.Spent) (loc : Location) (i : Instruction) : (e.perform (.exec loc i)).Spent :=
  ⟨h.le_one, h.freed⟩

/-- A call that comes when it may is passed an object that has not been freed. -/
theorem Spent.not_freed (h : e.Spent) {c : PlannedCall} (hready : e.Ready origin (.call c)) {x : Nat}
    (hx : e.object c = some x) (horigin : e.store.origin x = some origin) : e.freed x = false := by
  by_contra hfreed
  rw [Bool.not_eq_false] at hfreed
  obtain ⟨n, hn, hle⟩ := h.freed x hfreed
  have hcount := hready x hx horigin
  split at hcount
  · exact absurd (hn.symm.trans hcount) (by simp)
  · obtain ⟨m, hm, hone⟩ := hcount
    obtain rfl := Option.some.inj (hn.symm.trans hm)
    omega

theorem Spent.call (h : e.Spent) {c : PlannedCall} (hready : e.Ready origin (.call c))
    (horigin : ∀ x, e.object c = some x → e.store.origin x = some origin) (hchange : c.call.change ≤ 0) :
    (e.perform (.call c)).Spent := by
  cases hobject : e.object c with
  | none =>
    rw [perform, hobject]
    exact h
  | some x =>
    have hcount := count_call hobject
    have hbefore := h.not_freed hready hobject (horigin x hobject)
    replace hready := hready x hobject (horigin x hobject)
    refine ⟨fun y n hn => ?_, fun y hy => ?_⟩
    · rw [hcount, Function.update_apply] at hn
      split at hn
      · rw [EntryPoint.recount] at hn
        split at hn
        · obtain rfl := Option.some.inj hn
          exact Int.le_refl 1
        · obtain ⟨m, hm, rfl⟩ := Option.map_eq_some_iff.1 hn
          have hle := h.le_one x m hm
          omega
      · exact h.le_one y n hn
    · rw [hcount, Function.update_apply]
      rcases (freed_call c y).1 hy with hfreed | ⟨hfree, hy⟩
      · have hne : y ≠ x := by
          rintro rfl
          exact absurd (hbefore.symm.trans hfreed) (by simp)
        rw [if_neg hne]
        exact h.freed y hfreed
      · obtain rfl := Option.some.inj (hobject.symm.trans hy)
        rw [hfree] at hready ⊢
        rw [if_neg (by decide)] at hready
        obtain ⟨n, hn, -⟩ := hready
        have hle := h.le_one x n hn
        refine ⟨n + -1, ?_, by omega⟩
        rw [if_pos rfl, hn]
        rfl

/-- Calls that come when they may find no freed object. -/
theorem Spent.calls {calls : List PlannedCall} (h : e.Spent)
    (hguarded : e.Guarded origin (calls.map .call))
    (horigin : ∀ c ∈ calls, ∀ x, e.object c = some x → e.store.origin x = some origin)
    (hchange : ∀ c ∈ calls, c.call.change ≤ 0) :
    e.Throughout (fun e' => e'.Spared origin) (calls.map .call) ∧
      (e.performAll (calls.map .call)).Spent := by
  induction calls generalizing e with
  | nil => exact ⟨trivial, h⟩
  | cons c calls ih =>
    have hspared : e.Spared origin (.call c) := by
      intro l hl x hx hxo
      refine h.not_freed hguarded.1 ?_ hxo
      rw [object, Option.mem_toList.1 hl]
      exact hx
    have hnext := ih (h.call hguarded.1 (horigin c List.mem_cons_self) (hchange c List.mem_cons_self))
      hguarded.2 (fun d hd x hx => ?_) fun d hd => hchange d (List.mem_cons_of_mem c hd)
    · exact ⟨⟨hspared, hnext.1⟩, hnext.2⟩
    · rw [object, store_call] at hx
      rw [store_call]
      exact horigin d (List.mem_cons_of_mem c hd) x hx

end Execution

/-! ## Along a path -/

namespace AllocationSite.Tracked

variable {s : AllocationSite} {b : Body} {root : LocalId} {e : Execution} {steps : List Body.Step}
  {loc : Location}

/-- A live owner accounts for a reference. -/
theorem one_le_count (hbal : s.Balanced ((ofBody b).liveAt · loc) e) {l : LocalId} (hl : l ∈ s.owners)
    (hlive : (ofBody b).liveAt l loc = true) {x : Nat} (hx : e.store.locals l = some x)
    (horigin : e.store.origin x = some s.loc) : ∃ n, e.count x = some n ∧ 1 ≤ n := by
  have hpos : 0 < s.custody e.store ((ofBody b).liveAt · loc) x :=
    List.countP_pos_iff.2 ⟨l, hl, by simp [hlive, hx]⟩
  exact ⟨_, hbal.count x horigin, by omega⟩

/-- The calls at a point are passed objects of the allocation. -/
theorem origin_of_callsAt (h : s.Tracked b root) (o : AnalysisOptions) (hconfined : s.Confined e.store)
    {point : ProgramPoint} : ∀ c ∈ callsAt (s.calls (b.facts o)) point, ∀ x, e.object c = some x →
      e.store.origin x = some s.loc := by
  intro c hc x hx
  obtain ⟨l, hl, hx⟩ := Option.bind_eq_some_iff.1 hx
  refine hconfined.owners l ?_ x hx
  exact mem_owners_of_mem_calls (fun t ht => h.dest_mem ht) (List.mem_filter.1 hc).1 hl

/-- Neither an instruction nor the calls that come with it use a freed object. -/
theorem spared_step_exec (h : s.Tracked b root) (hasap : s.strategy = .asap) (hhanded : s.HandedOn b)
    (o : AnalysisOptions) (hpath : b.Path steps loc) {i : Instruction} (hi : b.instruction? loc = some i)
    (hbal : s.Balanced ((ofBody b).liveAt · loc) e) (hconfined : s.Confined e.store) (hspent : e.Spent) :
    let actions := Body.Step.actions (s.calls (b.facts o)) (.exec loc i)
    e.Throughout (fun e' => e'.Spared s.loc) actions ∧ (e.performAll actions).Spent ∧
      s.Confined (e.performAll actions).store := by
  have hguarded := (h.balanced_step_exec o hpath hi hbal).1
  rw [Body.Step.actions, Body.Step.callsBefore, h.callsAt_before o] at hguarded ⊢
  have hnext : s.Confined (e.perform (.exec loc i)).store := hconfined.exec h hhanded hi
  have hspared : e.Spared s.loc (.exec loc i) := by
    intro l hl x hx horigin
    have hlive : (ofBody b).liveAt l loc = true := by
      have huse : i.effects.uses.contains l = true := List.contains_iff_mem.2 hl
      rw [Liveness.liveAt_exec hi, Effects.liveBefore, huse]
      rfl
    obtain ⟨n, hn, hone⟩ := one_le_count hbal (hconfined.locals l x hx horigin) hlive hx horigin
    by_contra hfreed
    rw [Bool.not_eq_false] at hfreed
    obtain ⟨m, hm, hle⟩ := hspent.freed x hfreed
    obtain rfl := Option.some.inj (hn.symm.trans hm)
    omega
  obtain ⟨hcalls, hspent'⟩ := (hspent.exec loc i).calls hguarded.2
    (fun c hc => (List.mem_append.1 hc).elim (h.origin_of_callsAt o hnext c) (h.origin_of_callsAt o hnext c))
    (fun c hc => change_of_mem_calls h.kept hasap
      ((List.mem_append.1 hc).elim (fun hc => (List.mem_filter.1 hc).1) fun hc => (List.mem_filter.1 hc).1))
  refine ⟨⟨hspared, hcalls⟩, hspent', ?_⟩
  rw [List.map_nil, List.nil_append, Body.Step.restActions, Execution.performAll_cons, Execution.store_calls]
  exact hnext

theorem spared_step_jump (h : s.Tracked b root) (hasap : s.strategy = .asap) (o : AnalysisOptions)
    (hpath : b.Path steps loc) {t : Terminator} (ht : b.instruction? loc = some (.terminator t))
    {target : BlockId} (htarget : target ∈ t.successors)
    (hbal : s.Balanced ((ofBody b).liveAt · loc.next) e) (hconfined : s.Confined e.store)
    (hspent : e.Spent) :
    let actions := Body.Step.actions (s.calls (b.facts o)) (.jump loc.block target)
    e.Throughout (fun e' => e'.Spared s.loc) actions ∧ (e.performAll actions).Spent ∧
      s.Confined (e.performAll actions).store := by
  have hguarded := (h.balanced_step_jump o hpath ht htarget hbal).1
  rw [Body.Step.actions, Body.Step.restActions, List.append_nil] at hguarded ⊢
  obtain ⟨hcalls, hspent'⟩ := hspent.calls hguarded (h.origin_of_callsAt o hconfined)
    fun c hc => change_of_mem_calls h.kept hasap (List.mem_filter.1 hc).1
  refine ⟨hcalls, hspent', ?_⟩
  rw [Execution.store_calls]
  exact hconfined

/-- Along a path nothing uses an object of the allocation that has been freed. -/
theorem spared (h : s.Tracked b root) (hasap : s.strategy = .asap) (hhanded : s.HandedOn b)
    (o : AnalysisOptions) {σ : Store} (hσ : σ.Initial) (hconfined : s.Confined σ)
    (hpath : b.Path steps loc) :
    let actions := actionsAlong (s.calls (b.facts o)) steps
    (Execution.start σ).Throughout (fun e' => e'.Spared s.loc) actions ∧
      ((Execution.start σ).performAll actions).Spent ∧
      s.Confined ((Execution.start σ).performAll actions).store := by
  have hbalanced := fun {steps : List Body.Step} {loc : Location} (hpath : b.Path steps loc) =>
    (h.balanced o hσ hpath).2
  simp only [h.actionsAlong_eq] at hbalanced ⊢
  induction hpath with
  | entry => exact ⟨trivial, Execution.spent_start σ, hconfined⟩
  | @next steps loc st hpath hst ih =>
    obtain ⟨hspared, hspent, hconf⟩ := ih
    obtain ⟨hspared', hspent', hconf'⟩ :=
      h.spared_step_exec hasap hhanded o hpath hst (hbalanced hpath) hconf hspent
    rw [List.flatMap_append, List.flatMap_singleton, Execution.performAll_append]
    exact ⟨hspared.append hspared', hspent', hconf'⟩
  | @jump steps loc t target hpath ht htarget ih =>
    obtain ⟨hspared, hspent, hconf⟩ := ih
    obtain ⟨hspared', hspent', hconf'⟩ :=
      h.spared_step_exec hasap hhanded o hpath ht (hbalanced hpath) hconf hspent
    obtain ⟨hspared'', hspent'', hconf''⟩ := h.spared_step_jump hasap o hpath ht htarget
      (h.balanced_step_exec o hpath ht (hbalanced hpath)).2 hconf' hspent'
    have hsplit : steps ++ [Body.Step.exec loc (.terminator t), .jump loc.block target] =
        (steps ++ [.exec loc (.terminator t)]) ++ [.jump loc.block target] := by simp
    rw [hsplit, List.flatMap_append, List.flatMap_append, List.flatMap_singleton, List.flatMap_singleton,
      Execution.performAll_append, Execution.performAll_append]
    refine ⟨(hspared.append hspared').append ?_, hspent'', hconf''⟩
    rw [Execution.performAll_append]
    exact hspared''

end AllocationSite.Tracked

/-! ## From one allocation to the plan -/

/-- Whether an owner of an allocation is passed to a call. -/
def AllocationSite.concerns (s : AllocationSite) (c : PlannedCall) : Bool :=
  c.subject.any s.owners.contains

theorem AllocationSite.concerns_iff {s : AllocationSite} {c : PlannedCall} :
    s.concerns c = true ↔ ∃ l ∈ s.owners, c.subject = some l := by
  rw [concerns]
  cases c.subject with
  | none => simp
  | some l => simp

namespace AllocationSite

variable {s : AllocationSite} {b : Body} {root : LocalId} {e e' : Execution}

/-- The calls that are not made for an allocation do not free its objects. The executions agree on which of
these objects are freed, and on those that have not been made. -/
theorem spared_of_filter (h : s.Tracked b root) (hhanded : s.HandedOn b) {actions : List Action}
    (hinstr : ∀ loc i, .exec loc i ∈ actions → b.instruction? loc = some i)
    (hconfined : s.Confined e.store) (hstore : e.store = e'.store)
    (hfreed : ∀ x, e.store.origin x = some s.loc ∨ e.store.size ≤ x → e.freed x = e'.freed x)
    (hspared : e'.Throughout (fun d => d.Spared s.loc) (actions.filter (Action.passes s.concerns))) :
    e.Throughout (fun d => d.Spared s.loc) actions := by
  induction actions generalizing e e' with
  | nil => trivial
  | cons a actions ih =>
    have hrest := fun loc i hmem => hinstr loc i (List.mem_cons_of_mem a hmem)
    have hagree : e'.Spared s.loc a → e.Spared s.loc a := by
      intro hspared l hl x hx horigin
      rw [hfreed x (.inl horigin)]
      exact hspared l hl x (hstore ▸ hx) (hstore ▸ horigin)
    cases a with
    | exec loc i =>
      rw [List.filter_cons_of_pos rfl] at hspared
      have hi := hinstr loc i List.mem_cons_self
      refine ⟨hagree hspared.1, ih hrest (hconfined.exec h hhanded hi) ?_ (fun x hx => ?_) hspared.2⟩
      · exact congrArg (fun σ => σ.exec loc i) hstore
      · refine hfreed x ?_
        rcases hx with hx | hx
        · by_cases hlt : x < e.store.size
          · exact .inl ((Store.origin_exec hlt).symm.trans hx)
          · exact .inr (Nat.le_of_not_lt hlt)
        · exact .inr ((Store.size_le_exec loc i).trans hx)
    | call c =>
      have hconfined' : s.Confined (e.perform (.call c)).store := by
        rw [Execution.store_call]
        exact hconfined
      by_cases hc : s.concerns c = true
      · rw [List.filter_cons_of_pos (by exact hc)] at hspared
        have hobject : e'.object c = e.object c := by
          rw [Execution.object, Execution.object, hstore]
        refine ⟨hagree hspared.1, ih hrest hconfined' ?_ (fun x hx => ?_) hspared.2⟩
        · rw [Execution.store_call, Execution.store_call, hstore]
        · rw [Execution.store_call] at hx
          rw [Bool.eq_iff_iff, Execution.freed_call, Execution.freed_call, hobject, hfreed x hx]
      · rw [List.filter_cons_of_neg (by exact hc)] at hspared
        have hother : ∀ l, c.subject = some l → l ∉ s.owners := by
          intro l hl howner
          exact hc (concerns_iff.2 ⟨l, howner, hl⟩)
        refine ⟨fun l hl x hx horigin => ?_, ih hrest hconfined' ?_ (fun x hx => ?_) hspared⟩
        · exact absurd (hconfined.locals l x hx horigin) (hother l (Option.mem_toList.1 hl))
        · rw [Execution.store_call, hstore]
        · rw [Execution.store_call] at hx
          rw [← hfreed x hx, Bool.eq_iff_iff, Execution.freed_call]
          refine or_iff_left fun hfree => ?_
          obtain ⟨l, hl, hlx⟩ := Option.bind_eq_some_iff.1 hfree.2
          rcases hx with hx | hx
          · exact hother l hl (hconfined.locals l x hlx hx)
          · exact absurd (hconfined.sound.locals_lt l x hlx) (Nat.not_lt.2 hx)

end AllocationSite

/-! ## The whole plan -/

/-- Locals that are not parameters are assigned at most once and before they are read, and are not live after
they have been moved from. -/
structure Body.Disciplined (b : Body) : Prop where
  assigned : ∀ l, b.paramCount < l → b.AssignedAtMostOnce l
  reads : ∀ l, b.paramCount < l → b.ReadsAssigned l
  moved : ∀ t ∈ b.ownership.transfers, t.isMove = true → b.paramCount < t.source →
    (ofBody b).liveAt t.source t.loc.next = false

namespace Plan.Of

variable {p : Plan} {g : TypeGraph} {b : Body} {o : AnalysisOptions} {s : AllocationSite}

/-- The owners of a tree are neither parameters nor returned. -/
theorem paramCount_lt (hp : p.Of g b o) (hs : s ∈ p.sites) (hkept : s.Kept) (hasap : s.strategy = .asap)
    {l : LocalId} (hl : l ∈ s.owners) : b.paramCount < l := by
  obtain ⟨a, -, hplan⟩ := hp.site s hs
  have hroute : (((b.facts o).routeInput a s.owners s.fact).route o.arenaOptIn).strategy = .asap := by
    rw [← hplan.decision]
    exact hasap
  have harg : (b.facts o).escapeOf a s.owners ≠ .arg := (RouteInput.not_aliased_of_asap hroute).2
  have hstays := hkept.stays
  rw [hplan.decision] at hstays
  have hglobal : (b.facts o).escapeOf a s.owners ≠ .global := by
    intro hglobal
    have htransfers : ((b.facts o).routeInput a s.owners s.fact).transfers = true := by
      rw [RouteInput.transfers, show ((b.facts o).routeInput a s.owners s.fact).escape = .global from hglobal]
      rfl
    exact absurd (htransfers.symm.trans hstays) (by simp)
  have hnone : (b.facts o).escapeOf a s.owners = .none := by
    cases h : (b.facts o).escapeOf a s.owners with
    | none => rfl
    | arg => exact absurd h harg
    | global => exact absurd h hglobal
  obtain ⟨hnotGlobal, hnotArg⟩ := (BodyFacts.escapeOf_eq_none_iff (List.ne_nil_of_mem hl)).1 hnone l hl
  have hreturn : l ≠ returnLocal := fun he => hnotGlobal (he ▸ b.returnLocal_mem_global o)
  have hparam : l ∉ b.params := by
    intro hmem
    refine hnotArg (EscapeConstraint.mem_reached_of_atLeast (t := .arg) ?_ (Nat.le_refl _))
    rw [Body.escapeConstraints, List.mem_append, List.mem_append]
    exact .inl (.inl (List.mem_cons_of_mem _ (List.mem_map.2 ⟨l, hmem, rfl⟩)))
  have hle : ¬ l ≤ b.paramCount := by
    intro hle
    have hpos : 0 < l := Nat.pos_of_ne_zero hreturn
    have hlt : l - 1 < b.paramCount := Nat.lt_of_lt_of_le (Nat.sub_one_lt_of_lt hpos) hle
    exact hparam (List.mem_map.2 ⟨l - 1, List.mem_range.2 hlt, Nat.sub_add_cancel hpos⟩)
  exact Nat.lt_of_not_le hle

theorem orderly (hp : p.Of g b o) (hb : b.Disciplined) (hs : s ∈ p.sites) (hkept : s.Kept)
    (hasap : s.strategy = .asap) : s.Orderly b where
  assigned l hl := by
    have honce := hb.assigned l (hp.paramCount_lt hs hkept hasap hl)
    have hassigned : ∃ loc st, b.instruction? loc = some (.statement st) ∧ l ∈ st.effects.defs := by
      have hmem := hl
      rw [hp.owners_eq hs, Ownership.mem_ownersOf] at hmem
      obtain ⟨root, hroot, hreach⟩ := hmem
      rcases Relation.ReflTransGen.cases_tail hreach with rfl | ⟨l', -, t, ht, rfl, rfl⟩
      · obtain ⟨_, _, _, _, halloc⟩ := hp.alloc hs
        exact ⟨s.loc, _, halloc, by simp [Statement.effects, Effects.write, hroot]⟩
      · obtain ⟨st, hst, his⟩ := Body.mem_transfers.1 ht
        exact ⟨t.loc, st, hst, by simp [his.effects]⟩
    obtain ⟨loc, st, hst, hdef⟩ := hassigned
    exact ⟨loc, st, hst, hdef, fun loc' i hi hdef' => honce loc' loc i _ hi hst hdef' hdef⟩
  reads l hl := hb.reads l (hp.paramCount_lt hs hkept hasap hl)
  moved t ht hmove hsource := hb.moved t ht hmove (hp.paramCount_lt hs hkept hasap hsource)

/-- The calls of the plan to which an owner is passed are those made for the allocation. -/
theorem filter_concerns (hp : p.Of g b o) (hs : s ∈ p.sites) {root : LocalId} (h : s.Tracked b root) :
    p.calls.filter s.concerns = s.calls (b.facts o) := by
  obtain ⟨opening, closing, hcalls, hsubject⟩ := hp.calls
  obtain ⟨before, after, hsites⟩ := List.append_of_mem hs
  have hnone : ∀ l ⊆ opening ++ closing, l.filter s.concerns = [] := by
    intro l hl
    refine List.filter_eq_nil_iff.2 fun c hc => ?_
    simp [AllocationSite.concerns, hsubject c (hl hc)]
  have hmem : ∀ s' ∈ p.sites, ∀ c ∈ s'.calls (b.facts o), ∀ l, c.subject = some l → l ∈ s'.owners := by
    intro s' hs' c hc l hl
    exact AllocationSite.mem_owners_of_mem_calls (fun t ht => hp.dest_mem hs' ht) hc hl
  have hothers : ∀ sites : List AllocationSite, (∀ s' ∈ sites, s' ∈ p.sites ∧ s'.loc ≠ s.loc) →
      (sites.flatMap (·.calls (b.facts o))).filter s.concerns = [] := by
    intro sites hsub
    refine List.filter_eq_nil_iff.2 fun c hc hconcerns => ?_
    obtain ⟨s', hs', hc⟩ := List.mem_flatMap.1 hc
    obtain ⟨hs', hne⟩ := hsub s' hs'
    obtain ⟨l, howner, hl⟩ := AllocationSite.concerns_iff.1 hconcerns
    obtain ⟨root', hroot', -⟩ := Ownership.mem_ownersOf.1 (hp.owners_eq hs' ▸ hmem s' hs' c hc l hl)
    exact hne (h.loc_eq_of_mem (Place.eq_ofLocal hroot') (hp.owners_eq hs') (hp.alloc hs') howner
      (hmem s' hs' c hc l hl))
  have hall : (s.calls (b.facts o)).filter s.concerns = s.calls (b.facts o) := by
    refine List.filter_eq_self.2 fun c hc => AllocationSite.concerns_iff.2 ?_
    rcases AllocationSite.subject_of_mem_calls (fun t ht => hp.dest_mem hs ht) hc with hfirst | howner
    · exact ⟨root, h.root_mem, hfirst.trans h.firstOwner?⟩
    · exact howner
  have hdistinct := hp.distinct
  rw [hsites, List.map_append, List.map_cons, List.nodup_append] at hdistinct
  obtain ⟨-, hafter, hbefore⟩ := hdistinct
  rw [List.nodup_cons] at hafter
  rw [hcalls, hsites, List.flatMap_append, List.flatMap_cons]
  simp only [List.filter_append]
  rw [hnone opening (List.subset_append_left ..), hnone closing (List.subset_append_right ..), hall,
    hothers before (fun s' hs' => ?_), hothers after (fun s' hs' => ?_)]
  · simp
  · refine ⟨hsites ▸ by simp [hs'], fun he => hafter.1 ?_⟩
    exact he ▸ List.mem_map_of_mem hs'
  · refine ⟨hsites ▸ by simp [hs'], fun he => ?_⟩
    exact hbefore _ (List.mem_map_of_mem hs') _ List.mem_cons_self he

end Plan.Of

/-- An execution of a body with its plan: what is freed is of allocations planned as trees, whose objects are
confined to their owners. -/
structure Execution.Orderly (e : Execution) (p : Plan) : Prop where
  confined : ∀ s ∈ p.sites, s.Kept → s.strategy = .asap → s.Confined e.store
  freed : ∀ x, e.freed x = true →
    ∃ s ∈ p.sites, s.Kept ∧ s.strategy = .asap ∧ e.store.origin x = some s.loc

namespace Execution.Orderly

variable {p : Plan} {g : TypeGraph} {b : Body} {o : AnalysisOptions} {e : Execution}

theorem perform (h : e.Orderly p) (hp : p.Of g b o) (hb : b.Disciplined)
    (hhanded : ∀ s ∈ p.sites, s.strategy = .asap → s.HandedOn b) {a : Action}
    (hinstr : ∀ loc i, a = .exec loc i → b.instruction? loc = some i)
    (hcall : ∀ c, a = .call c → c ∈ p.calls) : (e.perform a).Orderly p := by
  cases a with
  | exec loc i =>
    have hi := hinstr loc i rfl
    refine ⟨fun s hs hkept hasap => ?_, fun x hx => ?_⟩
    · obtain ⟨root, ht⟩ := AllocationSite.tracked hp hs hkept (hp.orderly hb hs hkept hasap)
      exact (h.confined s hs hkept hasap).exec ht (hhanded s hs hasap) hi
    · obtain ⟨s, hs, hkept, hasap, horigin⟩ := h.freed x hx
      refine ⟨s, hs, hkept, hasap, ?_⟩
      exact (Store.origin_exec ((h.confined s hs hkept hasap).sound.origin_lt x _ horigin)).trans horigin
  | call c =>
    refine ⟨?_, fun x hx => ?_⟩
    · rw [store_call]
      exact h.confined
    · rw [store_call]
      rcases (freed_call c x).1 hx with hx | ⟨hfree, hobject⟩
      · exact h.freed x hx
      · obtain ⟨opening, closing, hcalls, hsubject⟩ := hp.calls
        obtain ⟨l, hl, hx⟩ := Option.bind_eq_some_iff.1 hobject
        have hmem : c ∈ p.sites.flatMap (·.calls (b.facts o)) := by
          have hc := hcall c rfl
          simp only [hcalls, List.mem_append] at hc
          rcases hc with (hc | hc) | hc
          · exact absurd (hl.symm.trans (hsubject c (by simp [hc]))) (by simp)
          · exact hc
          · exact absurd (hl.symm.trans (hsubject c (by simp [hc]))) (by simp)
        obtain ⟨s, hs, hc⟩ := List.mem_flatMap.1 hmem
        obtain ⟨hkept, hasap⟩ := AllocationSite.kept_of_freeTree hc hfree
        have howner := AllocationSite.mem_owners_of_mem_calls (fun t ht => hp.dest_mem hs ht) hc hl
        exact ⟨s, hs, hkept, hasap, (h.confined s hs hkept hasap).owners l howner x hx⟩

theorem performAll (h : e.Orderly p) (hp : p.Of g b o) (hb : b.Disciplined)
    (hhanded : ∀ s ∈ p.sites, s.strategy = .asap → s.HandedOn b) {actions : List Action}
    (hinstr : ∀ loc i, .exec loc i ∈ actions → b.instruction? loc = some i)
    (hcall : ∀ c, .call c ∈ actions → c ∈ p.calls) : (e.performAll actions).Orderly p := by
  induction actions generalizing e with
  | nil => exact h
  | cons a actions ih =>
    refine ih (h.perform hp hb hhanded ?_ ?_) ?_ ?_
    · exact fun loc i he => hinstr loc i (he ▸ List.mem_cons_self)
    · exact fun c he => hcall c (he ▸ List.mem_cons_self)
    · exact fun loc i hmem => hinstr loc i (List.mem_cons_of_mem a hmem)
    · exact fun c hmem => hcall c (List.mem_cons_of_mem a hmem)

end Execution.Orderly

/-- Along every path of a body, with the calls of its plan: when an action comes, no field refers to an object
that has been freed, and no local that the action uses does. The locals are to be assigned at most once and
before they are read, and not read after they have been moved from, and the references to trees are to be
handed on by moves and copies between locals only. -/
theorem TypeGraph.freed_unused {g : TypeGraph} {b : Body} {o : AnalysisOptions} {p : Plan}
    (hp : g.plan b o = .ok p) (hb : b.Disciplined)
    (hhanded : ∀ s ∈ p.sites, s.strategy = .asap → s.HandedOn b) {σ : Store} (hσ : σ.Entered b)
    {steps : List Body.Step} {loc : Location} {i : Instruction} (hpath : b.Path steps loc)
    (hi : b.instruction? loc = some i) {before rest : List Action} {a : Action}
    (hactions : actionsAlong p.calls (steps ++ [.exec loc i]) = before ++ a :: rest) :
    let e := (Execution.start σ).performAll before
    (∀ x y k, e.freed x = true → e.store.fields y k ≠ some x) ∧
      ∀ l ∈ a.uses, ∀ x, e.store.locals l = some x → e.freed x = false := by
  have hof := TypeGraph.plan_eq_ok hp
  have hinstr : ∀ loc' i', .exec loc' i' ∈ actionsAlong p.calls (steps ++ [.exec loc i]) →
      b.instruction? loc' = some i' := by
    intro loc' i' hmem
    rcases List.mem_append.1 (mem_of_exec_mem_actionsAlong hmem) with hmem | hmem
    · exact hpath.instruction?_of_mem hmem
    · obtain ⟨rfl, rfl⟩ := Body.Step.exec.inj (List.mem_singleton.1 hmem)
      exact hi
  have hconfined : ∀ s ∈ p.sites, s.Kept → s.strategy = .asap → s.Confined σ := fun s hs hkept hasap =>
    .start hσ.toInitial fun l hl => hσ.locals_none l (hof.paramCount_lt hs hkept hasap hl)
  have horderly : ((Execution.start σ).performAll before).Orderly p := by
    refine Execution.Orderly.performAll ⟨hconfined, fun x hx => absurd hx (by simp [Execution.start])⟩ hof hb
      hhanded (fun loc' i' hmem => hinstr loc' i' ?_) fun c hmem => ?_
    · rw [hactions]
      exact List.mem_append_left _ hmem
    · have hmem' : .call c ∈ actionsAlong p.calls (steps ++ [.exec loc i]) := by
        rw [hactions]
        exact List.mem_append_left _ hmem
      exact mem_of_call_mem_actionsAlong hmem'
  refine ⟨fun x y k hx hfield => ?_, fun l hl x hlx => ?_⟩
  · obtain ⟨s, hs, hkept, hasap, horigin⟩ := horderly.freed x hx
    exact (horderly.confined s hs hkept hasap).fields y k x hfield horigin
  · by_contra hx
    rw [Bool.not_eq_false] at hx
    obtain ⟨s, hs, hkept, hasap, horigin⟩ := horderly.freed x hx
    obtain ⟨root, ht⟩ := AllocationSite.tracked hof hs hkept (hof.orderly hb hs hkept hasap)
    have hhanded := hhanded s hs hasap
    -- what holds with the calls of the allocation alone holds with those of the plan
    have hsingle : (Execution.start σ).Throughout (fun d => d.Spared s.loc)
        (actionsAlong (s.calls (b.facts o)) (steps ++ [.exec loc i])) := by
      obtain ⟨hspared, hspent, hconf⟩ :=
        ht.spared hasap hhanded o hσ.toInitial (hconfined s hs hkept hasap) hpath
      rw [actionsAlong_append, List.flatMap_singleton]
      exact hspared.append (ht.spared_step_exec hasap hhanded o hpath hi
        (ht.balanced o hσ.toInitial hpath).2 hconf hspent).1
    rw [← hof.filter_concerns hs ht, ← filter_actionsAlong] at hsingle
    have hall := AllocationSite.spared_of_filter ht hhanded hinstr (hconfined s hs hkept hasap) rfl
      (fun _ _ => rfl) hsingle
    rw [hactions] at hall
    exact absurd (hall.right.1 l hl x hlx horigin) (by simp [hx])

/-! ## Freed while in use -/

/-- What an allocation needs in order to be freed as a tree. -/
theorem AllocationSite.kept_of_planned {a : Allocation} {g : TypeGraph} {b : Body} {s : AllocationSite}
    (h : a.Planned (b.facts {}) g {} s) (hfact : g.classify a.type = .ok {}) (howners : s.owners ≠ [])
    (hescape : ∀ l ∈ s.owners, l ∉ (b.escape {}).global ∧ l ∉ (b.escape {}).arg)
    (hclosures : b.closures = []) (hmoves : ∀ t ∈ b.ownership.transfers, t.isMove = true) :
    s.Kept ∧ s.strategy = .asap := by
  have hnone : (b.facts {}).escapeOf a s.owners = .none := (BodyFacts.escapeOf_eq_none_iff howners).2 hescape
  have hcaptured : (s.owners.any (b.facts {}).escape.isCaptured) = false :=
    BodyFacts.any_isCaptured_eq_false hclosures
  have haliased : (s.owners.any fun l => !((b.facts {}).ownership.copiesOf l).isEmpty) = false := by
    refine List.any_eq_false.2 fun l _ => ?_
    have hcopies : (b.facts {}).ownership.copiesOf l = [] := by
      refine List.map_eq_nil_iff.2 (List.filter_eq_nil_iff.2 fun t ht => ?_)
      simp [hmoves t ht]
    simp [hcopies]
  have hshape : s.fact = {} := Except.ok.inj (h.fact.symm.trans hfact)
  have hdecision := h.decision
  simp only [RouteInput.route, RouteInput.fullRoute, RouteInput.baseRoute, RouteInput.promotion?,
    RouteInput.transfers, BodyFacts.routeInput, hnone, hcaptured, haliased, hshape] at hdecision
  have hasap : s.strategy = .asap := by
    rw [strategy, hdecision]
    rfl
  refine ⟨⟨by simpa [isEmbedded] using howners, ?_, .inl hasap⟩, hasap⟩
  rw [hdecision]
  rfl

/-- What a frozen allocation needs in order to be held by its component. -/
theorem AllocationSite.component_of_planned {a : Allocation} {g : TypeGraph} {b : Body} {s : AllocationSite}
    (h : a.Planned (b.facts {}) g {} s) (hfact : g.classify a.type = .ok { shape := .cyclic })
    (hfrozen : a.frozen = true) (howners : s.owners ≠ [])
    (hescape : ∀ l ∈ s.owners, l ∉ (b.escape {}).global ∧ l ∉ (b.escape {}).arg) (hclosures : b.closures = []) :
    s.strategy = .scc ∧ s.decision.transfers = false := by
  have hnone : (b.facts {}).escapeOf a s.owners = .none := (BodyFacts.escapeOf_eq_none_iff howners).2 hescape
  have hcaptured : (s.owners.any (b.facts {}).escape.isCaptured) = false :=
    BodyFacts.any_isCaptured_eq_false hclosures
  have hshape : s.fact = { shape := .cyclic } := Except.ok.inj (h.fact.symm.trans hfact)
  have hdecision := h.decision
  simp only [BodyFacts.routeInput, hnone, hcaptured, hshape, hfrozen] at hdecision
  rw [strategy, hdecision]
  exact ⟨rfl, rfl⟩

/-- An object without fields makes a tree. -/
theorem boxes_classify : boxes.classify 0 = .ok {} := by
  have howner : ∀ r ∈ boxes.references, r.id.owner ≠ 0 := by decide
  have hzero : ∀ {u}, boxes.Leads 0 u → u = 0 := by
    intro u hu
    cases hu with
    | refl => rfl
    | step hedge _ =>
      obtain ⟨-, r, hr, -, hzero, -⟩ := TypeGraph.referenceGraph_edge_iff.1 hedge
      exact absurd hzero (howner r hr)
  have hinto : ∀ {u r}, ¬ boxes.Into 0 u r := fun hr => howner _ hr.1 (hzero hr.2.1)
  refine TypeGraph.classify_eq_tree (by decide) (TypeGraph.not_meetsUnknown (by decide)) ?_ ?_
  · rintro ⟨u, hu, ⟨r, hr, hself, -⟩ | ⟨v, hne, huv, -⟩⟩
    · exact howner r hr (hself.trans (hzero hu))
    · exact hne ((hzero hu).trans (hzero (hu.trans huv)).symm)
  · rintro ⟨u, -, ⟨r, -, hr, -⟩ | ⟨r, -, hr, -⟩ | ⟨r, hr, -⟩⟩ <;> exact hinto hr

/-- An object is moved to a second local and read through it. -/
def relay : Body where
  name := "relay"
  locals := Array.replicate 3 { kind := .temp }
  paramCount := 0
  blocks := #[{
    statements := [.assign (.ofLocal 1) (.alloc 0 0 false []),
      .assign (.ofLocal 2) (.use (.move (.ofLocal 1))),
      .assign (.ofLocal 0) (.binary .eq (.copy (.ofLocal 2)) (.const 0))]
    terminator := some .ret }]

/-- An object is moved into a field and read from there. -/
def movedIn : Body where
  name := "movedIn"
  locals := Array.replicate 5 { kind := .temp }
  paramCount := 0
  blocks := #[{
    statements := [.assign (.ofLocal 1) (.alloc 0 0 false []), .assign (.ofLocal 2) (.alloc 1 1 false []),
      .assign ⟨2, [.field 0]⟩ (.use (.move (.ofLocal 1))),
      .assign (.ofLocal 3) (.use (.copy ⟨2, [.field 0]⟩)),
      .assign (.ofLocal 4) (.binary .eq (.copy (.ofLocal 3)) (.const 0)),
      .assign (.ofLocal 0) (.binary .eq (.copy (.ofLocal 2)) (.const 0))]
    terminator := some .ret }]

/-- Nothing but the return local escapes if nothing else is said to and nothing is put into it. -/
theorem Body.notMem_escape {b : Body}
    (hseeds : ∀ l s, .atLeast l s ∈ b.escapeConstraints {} → l = 0)
    (hfollows : ∀ l, .follows l 0 ∉ b.escapeConstraints {}) {l : LocalId} (hl : l ≠ 0) :
    l ∉ (b.escape {}).global ∧ l ∉ (b.escape {}).arg := by
  have hzero : ∀ s, l ∈ EscapeConstraint.reached (b.escapeConstraints {}) s → l = 0 := by
    intro s hmem
    refine EscapeConstraint.of_mem_reached (P := (· = 0)) (fun l t hc _ => ?_) (fun l other hc hother => ?_) hmem
    · exact hseeds l t hc
    · exact absurd (hother ▸ hc) (hfollows l)
  exact ⟨fun h => hl (hzero _ h), fun h => hl (hzero _ h)⟩

/-- Where each statement assigns other locals and what is read was assigned before in the first block, all
locals are assigned at most once and before they are read. -/
theorem Body.assigned_of_lists {b : Body}
    (honce : ∀ x ∈ b.statements, ∀ y ∈ b.statements, ∀ l ∈ x.2.effects.defs, l ∈ y.2.effects.defs → x.1 = y.1)
    (hnone : ∀ x ∈ b.terminators, x.2.effects.defs = [])
    (hread : ∀ x ∈ b.statements, ∀ l ∈ x.2.effects.uses, ∃ y ∈ b.statements,
      y.1.block = entryBlock ∧ y.1.index < x.1.index ∧ l ∈ y.2.effects.defs)
    (hread' : ∀ x ∈ b.terminators, ∀ l ∈ x.2.effects.uses, ∃ y ∈ b.statements,
      y.1.block = entryBlock ∧ y.1.index < x.1.index ∧ l ∈ y.2.effects.defs) (l : LocalId) :
    b.AssignedAtMostOnce l ∧ b.ReadsAssigned l := by
  refine ⟨.of_lists (fun x hx y hy hdef hdef' => honce x hx y hy l hdef hdef') fun x hx => ?_,
    .of_lists (fun x hx huse => hread x hx l huse) fun x hx huse => hread' x hx l huse⟩
  simp [hnone x hx]

theorem relay_statements : relay.statements = [(⟨0, 0⟩, .assign (.ofLocal 1) (.alloc 0 0 false [])),
    (⟨0, 1⟩, .assign (.ofLocal 2) (.use (.move (.ofLocal 1)))),
    (⟨0, 2⟩, .assign (.ofLocal 0) (.binary .eq (.copy (.ofLocal 2)) (.const 0)))] := rfl

theorem relay_constraints : relay.escapeConstraints {} = [.atLeast 0 .global, .follows 1 2, .crossesWith 1 2] :=
  rfl

theorem relay_disciplined : relay.Disciplined where
  assigned l _ := (Body.assigned_of_lists (by decide) (by decide) (by decide) (by decide) l).1
  reads l _ := (Body.assigned_of_lists (by decide) (by decide) (by decide) (by decide) l).2
  moved t ht _ _ := by
    have honly : ∀ t ∈ relay.ownership.transfers, t.source = 1 ∧ t.loc.next = ⟨0, 2⟩ := by decide
    rw [(honly t ht).1, (honly t ht).2]
    have hread : relay.instruction? ⟨0, 2⟩ =
      some (.statement (.assign (.ofLocal 0) (.binary .eq (.copy (.ofLocal 2)) (.const 0)))) := rfl
    have hret : relay.instruction? ⟨0, 3⟩ = some (.terminator .ret) := rfl
    rw [Liveness.liveAt_exec hread]
    show Effects.liveBefore _ 1 ((ofBody relay).liveAt 1 ⟨0, 3⟩) = false
    rw [Liveness.liveAt_exec hret, Liveness.liveAt_ret hret]
    rfl

/-- An object that is read for the last time has been freed when the body returns, and nothing refers to it. -/
theorem TypeGraph.freed_unused_relay : ∃ p before rest, boxes.plan relay {} = .ok p ∧
    relay.Disciplined ∧ (∀ s ∈ p.sites, s.strategy = .asap → s.HandedOn relay) ∧
    Store.bare.Entered relay ∧
    actionsAlong p.calls relay.straightSteps = before ++ .exec ⟨0, 3⟩ (.terminator .ret) :: rest ∧
    let e := (Execution.start .bare).performAll before
    e.freed 0 = true ∧ (∀ x y k, e.freed x = true → e.store.fields y k ≠ some x) ∧
      ∀ l ∈ (Action.exec ⟨0, 3⟩ (.terminator .ret)).uses, ∀ x, e.store.locals l = some x → e.freed x = false := by
  obtain ⟨p, hp⟩ := TypeGraph.exists_plan (g := boxes) (b := relay) {} (by decide) (by decide)
  have hof := TypeGraph.plan_eq_ok hp
  have hplans : ∀ a ∈ relay.allocations, a.place = .ofLocal 1 ∧ a.type = 0 := by decide
  have htransfers : ∀ t ∈ relay.ownership.transfers, t = ⟨⟨0, 1⟩, 1, 2, true⟩ := by decide
  have htransfer : ⟨⟨0, 1⟩, 1, 2, true⟩ ∈ relay.ownership.transfers := by decide
  have howners : ∀ s ∈ p.sites, ∀ l ∈ s.owners, l = 1 ∨ l = 2 := by
    intro s hs l hl
    obtain ⟨a, ha, hplan⟩ := hof.site s hs
    rw [hplan.owners, (hplans a ha).1] at hl
    refine Ownership.of_mem_ownersOf (P := fun l => l = 1 ∨ l = 2) hl (.inl rfl) fun t ht _ => ?_
    exact .inr (htransfers t ht ▸ rfl)
  have hhanded : ∀ s ∈ p.sites, s.strategy = .asap → s.HandedOn relay := by
    intro s hs _ loc q value hi r hr hbase _
    have hmem := Body.mem_statements.2 hi
    rw [relay_statements] at hmem
    simp only [List.mem_cons, Prod.mk.injEq, Statement.assign.injEq, List.not_mem_nil, or_false] at hmem
    rcases hmem with ⟨-, -, rfl⟩ | ⟨rfl, -, rfl⟩ | ⟨-, -, rfl⟩
    · exact absurd hr (by simp [Rvalue.places])
    · obtain rfl : r = .ofLocal 1 := by simpa [Rvalue.places, Operand.place?] using hr
      exact ⟨_, htransfer, rfl, rfl⟩
    · exact absurd hr (by simp [Rvalue.places])
  -- the object is freed after the last statement, through the local to which it has been moved
  have ha : ⟨⟨0, 0⟩, .ofLocal 1, 0, 0, false⟩ ∈ relay.allocations := by decide
  obtain ⟨s, hs, hplan⟩ := hof.planned _ ha
  have howner : 2 ∈ s.owners := by
    rw [hplan.owners]
    exact Ownership.mem_ownersOf.2 ⟨1, rfl, .single ⟨_, htransfer, rfl, rfl⟩⟩
  have hescape : ∀ l ∈ s.owners, l ∉ (relay.escape {}).global ∧ l ∉ (relay.escape {}).arg := by
    intro l hl
    refine Body.notMem_escape (by simp [relay_constraints]) (by simp [relay_constraints]) ?_
    rcases howners s hs l hl with rfl | rfl
    · decide
    · decide
  obtain ⟨hkept, hasap⟩ := AllocationSite.kept_of_planned hplan boxes_classify (List.ne_nil_of_mem howner)
    hescape rfl fun t ht => by rw [htransfers t ht]
  have hbefore : relay.Path _ ⟨0, 2⟩ := (Body.Path.entry.next rfl).next rfl
  have hpath : relay.Path _ ⟨0, 3⟩ := hbefore.next rfl
  have hret : relay.instruction? ⟨0, 3⟩ = some (.terminator .ret) := rfl
  have hdies : AllocationSite.releasesOn relay (.after ⟨0, 2⟩) 2 = true := by
    rw [AllocationSite.releasesOn_after hof.complete hbefore rfl,
      show (⟨0, 2⟩ : Location).next = ⟨0, 3⟩ from rfl, Liveness.liveAt_exec hret, Liveness.liveAt_ret hret]
    decide
  have hfree := hof.free_mem hs hkept hasap howner hdies
  have hactions := actionsAlong_exec p.calls
    (relay.statements.map fun x => Body.Step.exec x.1 (.statement x.2)) ⟨0, 3⟩ (.terminator .ret)
  have h := TypeGraph.freed_unused hp relay_disciplined hhanded (Store.entered_bare relay) hpath hret hactions
  refine ⟨p, _, _, hp, relay_disciplined, hhanded, Store.entered_bare relay, hactions, ?_, h⟩
  rw [Execution.performAll_append]
  refine Execution.freed_performAll ?_ _
  exact Execution.freed_after [.exec ⟨0, 0⟩ (.statement (.assign (.ofLocal 1) (.alloc 0 0 false []))),
    .exec ⟨0, 1⟩ (.statement (.assign (.ofLocal 2) (.use (.move (.ofLocal 1)))))] []
    (i := .statement (.assign (.ofLocal 0) (.binary .eq (.copy (.ofLocal 2)) (.const 0)))) hfree rfl rfl

theorem movedIn_constraints : movedIn.escapeConstraints {} = [.atLeast 0 .global, .follows 1 2, .crossesWith 1 2,
    .follows 2 3, .crossesWith 2 3] := rfl

/-- Although locals are assigned once and before they are read, one that is read refers to an object that has
been freed: moving the first local into a field has not kept it from being freed where the local dies. -/
theorem TypeGraph.freed_in_use : ∃ p before rest, boxes.plan movedIn {} = .ok p ∧
    (∀ l, movedIn.AssignedAtMostOnce l ∧ movedIn.ReadsAssigned l) ∧ Store.bare.Entered movedIn ∧
    movedIn.Returns movedIn.straightSteps ∧
    actionsAlong p.calls movedIn.straightSteps = before ++
      .exec ⟨0, 4⟩ (.statement (.assign (.ofLocal 4) (.binary .eq (.copy (.ofLocal 3)) (.const 0)))) :: rest ∧
    let e := (Execution.start .bare).performAll before
    e.store.locals 3 = some 0 ∧ e.freed 0 = true := by
  obtain ⟨p, hp⟩ := TypeGraph.exists_plan (g := boxes) (b := movedIn) {} (by decide) (by decide)
  have hof := TypeGraph.plan_eq_ok hp
  have hnone : movedIn.ownership.transfers = [] := by decide
  have ha : ⟨⟨0, 0⟩, .ofLocal 1, 0, 0, false⟩ ∈ movedIn.allocations := by decide
  obtain ⟨s, hs, hplan⟩ := hof.planned _ ha
  have howners : ∀ l ∈ s.owners, l = 1 := by
    intro l hl
    rw [hplan.owners] at hl
    refine Ownership.of_mem_ownersOf (P := (· = 1)) hl rfl fun t ht _ => ?_
    exact absurd (hnone ▸ ht : t ∈ []) (by simp)
  have howner : 1 ∈ s.owners := by
    rw [hplan.owners]
    exact Ownership.mem_ownersOf.2 ⟨1, rfl, .refl⟩
  have hescape : ∀ l ∈ s.owners, l ∉ (movedIn.escape {}).global ∧ l ∉ (movedIn.escape {}).arg := by
    intro l hl
    refine Body.notMem_escape (by simp [movedIn_constraints]) (by simp [movedIn_constraints]) ?_
    exact howners l hl ▸ by decide
  obtain ⟨hkept, hasap⟩ := AllocationSite.kept_of_planned hplan boxes_classify (List.ne_nil_of_mem howner)
    hescape rfl fun t ht => by simp [hnone] at ht
  have hbefore : movedIn.Path _ ⟨0, 2⟩ := (Body.Path.entry.next rfl).next rfl
  have hload : movedIn.instruction? ⟨0, 3⟩ =
    some (.statement (.assign (.ofLocal 3) (.use (.copy ⟨2, [.field 0]⟩)))) := rfl
  have hread : movedIn.instruction? ⟨0, 4⟩ =
    some (.statement (.assign (.ofLocal 4) (.binary .eq (.copy (.ofLocal 3)) (.const 0)))) := rfl
  have hlast : movedIn.instruction? ⟨0, 5⟩ =
    some (.statement (.assign (.ofLocal 0) (.binary .eq (.copy (.ofLocal 2)) (.const 0)))) := rfl
  have hret : movedIn.instruction? ⟨0, 6⟩ = some (.terminator .ret) := rfl
  have hdead : (ofBody movedIn).liveAt 1 ⟨0, 3⟩ = false := by
    rw [Liveness.liveAt_exec hload]
    show Effects.liveBefore _ 1 ((ofBody movedIn).liveAt 1 ⟨0, 4⟩) = false
    rw [Liveness.liveAt_exec hread]
    show Effects.liveBefore _ 1 (Effects.liveBefore _ 1 ((ofBody movedIn).liveAt 1 ⟨0, 5⟩)) = false
    rw [Liveness.liveAt_exec hlast]
    show Effects.liveBefore _ 1 (Effects.liveBefore _ 1 (Effects.liveBefore _ 1
      ((ofBody movedIn).liveAt 1 ⟨0, 6⟩))) = false
    rw [Liveness.liveAt_exec hret, Liveness.liveAt_ret hret]
    decide
  have hdies : AllocationSite.releasesOn movedIn (.after ⟨0, 2⟩) 1 = true := by
    rw [AllocationSite.releasesOn_after hof.complete hbefore rfl,
      show (⟨0, 2⟩ : Location).next = ⟨0, 3⟩ from rfl, hdead]
    decide
  have hfree := hof.free_mem hs hkept hasap howner hdies
  let steps : List Body.Step := [.exec ⟨0, 0⟩ (.statement (.assign (.ofLocal 1) (.alloc 0 0 false []))),
    .exec ⟨0, 1⟩ (.statement (.assign (.ofLocal 2) (.alloc 1 1 false []))),
    .exec ⟨0, 2⟩ (.statement (.assign ⟨2, [.field 0]⟩ (.use (.move (.ofLocal 1))))),
    .exec ⟨0, 3⟩ (.statement (.assign (.ofLocal 3) (.use (.copy ⟨2, [.field 0]⟩))))]
  have hactions := actionsAlong_append p.calls (steps ++ [.exec ⟨0, 4⟩
    (.statement (.assign (.ofLocal 4) (.binary .eq (.copy (.ofLocal 3)) (.const 0))))])
    [.exec ⟨0, 5⟩ (.statement (.assign (.ofLocal 0) (.binary .eq (.copy (.ofLocal 2)) (.const 0)))),
      .exec ⟨0, 6⟩ (.terminator .ret)]
  rw [actionsAlong_exec p.calls steps, List.append_assoc (actionsAlong p.calls steps ++ _),
    List.cons_append] at hactions
  refine ⟨p, _, _, hp, Body.assigned_of_lists (by decide) (by decide) (by decide) (by decide),
    Store.entered_bare movedIn, ⟨_, ⟨0, 6⟩, ?_, hret, rfl⟩, hactions, ?_, ?_⟩
  · exact (((hbefore.next rfl).next hload).next hread).next hlast
  · rw [Execution.performAll_append, Execution.store_calls, Execution.store_performAll]
    rfl
  · rw [Execution.performAll_append]
    refine Execution.freed_performAll ?_ _
    exact Execution.freed_after [.exec ⟨0, 0⟩ (.statement (.assign (.ofLocal 1) (.alloc 0 0 false []))),
      .exec ⟨0, 1⟩ (.statement (.assign (.ofLocal 2) (.alloc 1 1 false [])))]
      [.exec ⟨0, 3⟩ (.statement (.assign (.ofLocal 3) (.use (.copy ⟨2, [.field 0]⟩))))]
      (i := .statement (.assign ⟨2, [.field 0]⟩ (.use (.move (.ofLocal 1))))) hfree rfl rfl

end Reclamation
