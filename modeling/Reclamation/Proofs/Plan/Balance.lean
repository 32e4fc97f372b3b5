import Mathlib
import Reclamation.Proofs.Analysis.Escape
import Reclamation.Proofs.Plan.Custody
import Reclamation.Proofs.TypeGraph.Shapes

/-!
# Counts balance along every path

The count of each object of an allocation is the number of owners that are live and refer to it
(`Tracked.balanced`). An instruction keeps this: one that assigns an owner makes one more refer to the object
and comes with a call that counts it, a move hands a reference on, and the owners that die after the
instruction give theirs up. A jump keeps it, since on it die the owners that its target does not need.

So no reference is given up twice and none is kept (`counts_balance`): the count stays at least one until the
last reference is given up, and is zero where the body returns.
-/

set_option autoImplicit false

namespace Reclamation

open Liveness (ofBody)

namespace AllocationSite

/-! ## An instruction -/

namespace Tracked

variable {s : AllocationSite} {b : Body} {root : LocalId} {e : Execution} {steps : List Body.Step}
  {loc : Location}

/-- The calls that come with an instruction before any reference is given up. -/
def openingAt (s : AllocationSite) (b : Body) (loc : Location) : List PlannedCall :=
  callsAt (s.openingCalls b.ownership) (.instead loc) ++ callsAt (s.openingCalls b.ownership) (.after loc)

theorem openingAt_alloc (h : s.Tracked b root) : openingAt s b s.loc =
    s.callAt (.instead s.loc) s.allocator (some root) ::
      if s.decision.needsHandle then [s.callAt (.after s.loc) .makeHandle (some root)] else [] := by
  obtain ⟨site, type, frozen, contents, halloc⟩ := h.alloc
  have hinstead : callsAt (s.acquireCalls b.ownership) (.instead s.loc) = [] :=
    callsAt_acquireCalls_of_none fun t _ _ _ => by simp
  have hafter : callsAt (s.acquireCalls b.ownership) (.after s.loc) = [] := by
    refine callsAt_acquireCalls_of_none fun t ht _ _ hpoint => ?_
    obtain ⟨st, hst, his⟩ := Body.mem_transfers.1 ht
    rw [ProgramPoint.after.inj hpoint, halloc, his.eq] at hst
    simp at hst
  rw [openingAt, openingCalls, callsAt_append, callsAt_append, hinstead, hafter, List.append_nil,
    List.append_nil, allocCalls, h.firstOwner?, h.kept.owned]
  cases s.decision.needsHandle <;> simp [callsAt, callAt]

theorem openingAt_of_ne (h : loc ≠ s.loc) : openingAt s b loc =
    callsAt (s.acquireCalls b.ownership) (.after loc) := by
  have hinstead : callsAt (s.acquireCalls b.ownership) (.instead loc) = [] :=
    callsAt_acquireCalls_of_none fun t _ _ _ => by simp
  rw [openingAt, openingCalls, callsAt_append, callsAt_append, hinstead,
    callsAt_allocCalls_of_ne (by simpa using h) (by simp), callsAt_allocCalls_of_ne (by simp) (by simpa using h)]
  rfl

/-- The calls that come with an allocation give the new object the count one. -/
theorem openingAt_alloc_count (h : s.Tracked b root) {x : Nat} (hroot : e.store.locals root = some x)
    (hfresh : e.count x = none) :
    e.Guarded s.loc ((openingAt s b s.loc).map .call) ∧
      (e.performAll ((openingAt s b s.loc).map .call)).count = Function.update e.count x (some 1) := by
  have hobject : e.object (s.callAt (.instead s.loc) s.allocator (some root)) = some x := hroot
  have hready : e.Ready s.loc (.call (s.callAt (.instead s.loc) s.allocator (some root))) := by
    intro y hy _
    obtain rfl := Option.some.inj (hobject.symm.trans hy)
    change if s.allocator.makes = true then _ else _
    rw [if_pos (makes_allocator s)]
    exact hfresh
  have hcount : (e.perform (.call (s.callAt (.instead s.loc) s.allocator (some root)))).count =
      Function.update e.count x (some 1) := by
    have hrecount : s.allocator.recount (e.count x) = some 1 := if_pos (makes_allocator s)
    exact (Execution.count_call hobject).trans (congrArg _ hrecount)
  rw [h.openingAt_alloc]
  cases s.decision.needsHandle with
  | false => exact ⟨⟨hready, trivial⟩, hcount⟩
  | true =>
    have hobject' : (e.perform (.call (s.callAt (.instead s.loc) s.allocator (some root)))).object
        (s.callAt (.after s.loc) .makeHandle (some root)) = some x := by
      rw [Execution.object, Execution.store_call]
      exact hroot
    refine ⟨⟨hready, fun y hy _ => ?_, trivial⟩, ?_⟩
    · obtain rfl := Option.some.inj (hobject'.symm.trans hy)
      exact ⟨1, by rw [hcount, Function.update_self], Int.le_refl 1⟩
    · refine (Execution.count_call hobject').trans ?_
      rw [hcount, Function.update_self, Function.update_idem]
      rfl

/-- Where an owner is assigned and none is moved, one more owner refers to its new object. -/
theorem custody_assign (h : s.Tracked b root) (hpath : b.Path steps loc) {i : Instruction}
    (hi : b.instruction? loc = some i) {dest : LocalId} (hdest : dest ∈ s.owners)
    (hdefs : i.effects.defs = [dest]) (hunmoved : ∀ l ∈ s.owners, b.ownership.isMovedAt l loc = false)
    (σ : Store) (x : Nat) : s.custody (σ.exec loc i) (keepsPast b loc) x =
      s.custody σ ((ofBody b).liveAt · loc) x + if (σ.exec loc i).locals dest = some x then 1 else 0 := by
  have hdead : (ofBody b).liveAt dest loc = false :=
    h.not_live_of_def hpath hi hdest (by simp [hdefs])
  have hkeeps : keepsPast b loc dest = true :=
    keepsPast_of_mem h.complete hpath hi (by simp [hdefs]) (hunmoved dest hdest)
  rw [custody, custody, countP_of_agree h.nodup_owners hdest]
  · simp [hkeeps]
    rfl
  · simp [hdead]
  · intro l hl hne
    have hdef : l ∉ i.effects.defs := by
      simpa [hdefs] using hne
    rw [keepsPast_of_notMem h.complete hpath hi hdef (hunmoved l hl), Store.locals_exec_of_notMem hdef]

/-- Where no owner is assigned or moved, each object has as many owners as before. -/
theorem custody_other (h : s.Tracked b root) (hpath : b.Path steps loc) {i : Instruction}
    (hi : b.instruction? loc = some i) (hdefs : ∀ l ∈ s.owners, l ∉ i.effects.defs)
    (hunmoved : ∀ l ∈ s.owners, b.ownership.isMovedAt l loc = false) (σ : Store) (x : Nat) :
    s.custody (σ.exec loc i) (keepsPast b loc) x = s.custody σ ((ofBody b).liveAt · loc) x := by
  refine List.countP_congr fun l hl => ?_
  rw [keepsPast_of_notMem h.complete hpath hi (hdefs l hl) (hunmoved l hl),
    Store.locals_exec_of_notMem (hdefs l hl)]

/-- A move hands the reference of its source on to its destination. -/
theorem custody_move (h : s.Tracked b root) {t : Transfer} (ht : t ∈ b.ownership.transfers)
    (hsource : t.source ∈ s.owners) (hmove : t.isMove = true) (hpath : b.Path steps t.loc) {st : Statement}
    (hst : b.instruction? t.loc = some (.statement st)) (his : t.Is st) (σ : Store) (x : Nat) :
    s.custody (σ.exec t.loc (.statement st)) (keepsPast b t.loc) x =
      s.custody σ ((ofBody b).liveAt · t.loc) x := by
  have hdefs : (Instruction.statement st).effects.defs = [t.dest] := congrArg Effects.defs his.effects
  have hdest := h.dest_mem ht hsource
  have hdead : (ofBody b).liveAt t.dest t.loc = false :=
    h.not_live_of_def hpath hst hdest (by simp [hdefs])
  have hlive : (ofBody b).liveAt t.source t.loc = true := by
    rw [Liveness.liveAt_exec hst]
    simp [Instruction.effects, his.effects, Effects.liveBefore]
  have hunmoved : ∀ l, l ≠ t.source → b.ownership.isMovedAt l t.loc = false := by
    intro l hne
    refine isMovedAt_eq_false fun t' ht' _ hsource hloc => hne ?_
    rw [← hsource, Body.transfer_unique ht' ht hloc]
  have hkeeps : keepsPast b t.loc t.dest = true :=
    keepsPast_of_mem h.complete hpath hst (by simp [hdefs]) (hunmoved t.dest his.ne.symm)
  have hgiven : keepsPast b t.loc t.source = false := h.keepsPast_of_moved ht hmove hsource hpath hst
  have hlocal : (σ.exec t.loc (.statement st)).locals t.dest = σ.locals t.source := by
    rw [his.exec]
    exact Function.update_self ..
  -- the owners that are neither the source nor the destination
  let others : LocalId → Bool := fun l =>
    (l != t.source) && ((ofBody b).liveAt l t.loc && σ.locals l == some x)
  have hbefore : s.custody σ ((ofBody b).liveAt · t.loc) x =
      s.owners.countP others + if σ.locals t.source == some x then 1 else 0 := by
    rw [custody, countP_of_agree (p := others) h.nodup_owners hsource (by simp [others])]
    · simp [hlive]
    · intro l _ hne
      simp [others, hne]
  have hafter : s.custody (σ.exec t.loc (.statement st)) (keepsPast b t.loc) x =
      s.owners.countP others + if σ.locals t.source == some x then 1 else 0 := by
    rw [custody, countP_of_agree (p := others) h.nodup_owners hdest (by simp [others, hdead])]
    · rw [hkeeps, hlocal, Bool.true_and]
    · intro l _ hne
      have hdef : l ∉ (Instruction.statement st).effects.defs := by
        simpa [hdefs] using hne
      by_cases hsrc : l = t.source
      · simp [others, hsrc, hgiven]
      · rw [keepsPast_of_notMem h.complete hpath hst hdef (hunmoved l hsrc), Store.locals_exec_of_notMem hdef]
        simp [others, hsrc]
  rw [hbefore, hafter]

/-- The allocation makes an object to which one owner refers. -/
theorem balanced_alloc (h : s.Tracked b root) (hpath : b.Path steps s.loc) {i : Instruction}
    (hi : b.instruction? s.loc = some i) (hbal : s.Balanced ((ofBody b).liveAt · s.loc) e) :
    (e.perform (.exec s.loc i)).Guarded s.loc ((openingAt s b s.loc).map .call) ∧
      s.Balanced (keepsPast b s.loc)
        ((e.perform (.exec s.loc i)).performAll ((openingAt s b s.loc).map .call)) := by
  obtain ⟨site, type, frozen, contents, halloc⟩ := h.alloc
  obtain rfl := Option.some.inj (hi.symm.trans halloc)
  have hdefs : (Instruction.statement (.assign s.place (.alloc site type frozen contents))).effects.defs =
      [root] := by
    simp [Instruction.effects, Statement.effects, Effects.write, h.place]
  have hstore : e.store.exec s.loc (.statement (.assign s.place (.alloc site type frozen contents))) =
      (e.store.make (some s.loc) (contents.map e.store.operand)).setLocal root (some e.store.size) := by
    rw [h.place]
    rfl
  have hunmoved : ∀ l ∈ s.owners, b.ownership.isMovedAt l s.loc = false := by
    intro l _
    refine isMovedAt_eq_false fun t ht _ _ hloc => ?_
    obtain ⟨st, hst, his⟩ := Body.mem_transfers.1 ht
    rw [hloc, halloc, his.eq] at hst
    simp at hst
  have hcustody := h.custody_assign hpath halloc h.root_mem hdefs hunmoved e.store
  have hsound := Execution.sound_perform hbal.sound
    (.exec s.loc (.statement (.assign s.place (.alloc site type frozen contents))))
  have hroot : (e.store.exec s.loc (.statement (.assign s.place (.alloc site type frozen contents)))).locals
      root = some e.store.size := by
    rw [hstore]
    exact Function.update_self ..
  obtain ⟨hguarded, hcount⟩ := h.openingAt_alloc_count
    (e := e.perform (.exec s.loc (.statement (.assign s.place (.alloc site type frozen contents)))))
    hroot (hbal.fresh _ (Nat.le_refl _))
  refine ⟨hguarded, ?_, fun x hx => ?_, fun x hx => ?_⟩
  · rw [Execution.store_calls]
    exact hsound
  · rw [Execution.store_calls] at hx ⊢
    rw [hcount]
    change _ = some (s.custody (e.store.exec _ _) _ x : Int)
    rw [hcustody x, hroot]
    by_cases hnew : x = e.store.size
    · -- no owner refers to an object that has not been made
      have hnone : s.custody e.store ((ofBody b).liveAt · s.loc) x = 0 := by
        refine List.countP_eq_zero.2 fun l _ hl => ?_
        simp only [Bool.and_eq_true, beq_iff_eq] at hl
        exact Nat.ne_of_lt (hbal.sound.locals_lt l x hl.2) hnew
      rw [hnone, hnew, Function.update_self, if_pos rfl]
      rfl
    · have horigin : e.store.origin x = some s.loc := by
        change (e.store.exec _ _).origin x = _ at hx
        rw [hstore] at hx
        exact (Function.update_of_ne hnew ..).symm.trans hx
      rw [Function.update_of_ne hnew, if_neg fun he => hnew (Option.some.inj he).symm]
      exact hbal.count x horigin
  · rw [Execution.store_calls] at hx
    change (e.store.exec _ _).size ≤ x at hx
    rw [hstore] at hx
    rw [hcount, Function.update_of_ne (Nat.ne_of_gt hx)]
    exact hbal.fresh x (Nat.le_of_succ_le hx)

theorem balanced_perform (hbal : s.Balanced ((ofBody b).liveAt · loc) e) (hne : loc ≠ s.loc)
    {i : Instruction} {keeps : LocalId → Bool}
    (hcustody : ∀ x, s.custody (e.store.exec loc i) keeps x = s.custody e.store ((ofBody b).liveAt · loc) x) :
    s.Balanced keeps (e.perform (.exec loc i)) where
  sound := Execution.sound_perform hbal.sound _
  count x hx := by
    change _ = some (s.custody (e.store.exec loc i) keeps x : Int)
    rw [hcustody x]
    exact hbal.count x ((Store.origin_exec_cases hx).resolve_right hne.symm)
  fresh x hx := hbal.fresh x ((Store.size_le_exec loc i).trans hx)

/-- A copy of an owner takes a reference for the object to which both refer. -/
theorem balanced_copy (h : s.Tracked b root) {t : Transfer} (ht : t ∈ b.ownership.transfers)
    (hsource : t.source ∈ s.owners) (hcopy : t.isMove = false) (hne : t.loc ≠ s.loc)
    (hpath : b.Path steps t.loc) {i : Instruction} (hi : b.instruction? t.loc = some i)
    (hbal : s.Balanced ((ofBody b).liveAt · t.loc) e) :
    (e.perform (.exec t.loc i)).Guarded s.loc ((openingAt s b t.loc).map .call) ∧
      s.Balanced (keepsPast b t.loc)
        ((e.perform (.exec t.loc i)).performAll ((openingAt s b t.loc).map .call)) := by
  obtain ⟨st, hst, his⟩ := Body.mem_transfers.1 ht
  obtain rfl := Option.some.inj (hi.symm.trans hst)
  obtain ⟨f, hf⟩ := h.counted t ht hcopy hsource
  obtain ⟨hmakes, hchange⟩ := Strategy.acquire?_spec hf
  have hdefs : (Instruction.statement st).effects.defs = [t.dest] := congrArg Effects.defs his.effects
  have hunmoved : ∀ l ∈ s.owners, b.ownership.isMovedAt l t.loc = false := by
    intro l _
    refine isMovedAt_eq_false fun t' ht' hmove _ hloc => ?_
    rw [Body.transfer_unique ht' ht hloc, hcopy] at hmove
    exact absurd hmove (by simp)
  have hcustody := h.custody_assign hpath hst (h.dest_mem ht hsource) hdefs hunmoved e.store
  have hlocal : (e.store.exec t.loc (.statement st)).locals t.dest = e.store.locals t.source := by
    rw [his.exec]
    exact Function.update_self ..
  have hlive : (ofBody b).liveAt t.source t.loc = true := by
    rw [Liveness.liveAt_exec hst]
    simp [Instruction.effects, his.effects, Effects.liveBefore]
  rw [openingAt_of_ne hne, callsAt_acquireCalls_of_copy ht hcopy hsource h.nodup_owners hf]
  have horigin : ∀ x, (e.perform (.exec t.loc (.statement st))).store.origin x = some s.loc →
      e.store.origin x = some s.loc := fun x hx => (Store.origin_exec_cases hx).resolve_right hne.symm
  have hobject : (e.perform (.exec t.loc (.statement st))).object (s.callAt (.after t.loc) f (some t.dest)) =
      e.store.locals t.source := hlocal
  refine ⟨⟨fun x hx hxo => ?_, trivial⟩, ?_, fun x hx => ?_, fun x hx => ?_⟩
  · -- the source refers to the object and is live
    rw [if_neg (by simp [callAt, hmakes])]
    refine ⟨_, hbal.count x (horigin x hxo), ?_⟩
    have hpos : 0 < s.custody e.store ((ofBody b).liveAt · t.loc) x :=
      List.countP_pos_iff.2 ⟨t.source, hsource, by simp [hlive, ← hobject, hx]⟩
    omega
  · rw [Execution.store_calls]
    exact Execution.sound_perform hbal.sound _
  · rw [Execution.store_calls] at hx ⊢
    change _ = some (s.custody (e.store.exec _ _) _ x : Int)
    rw [hcustody x, hlocal]
    change ((e.perform (.exec t.loc (.statement st))).perform (.call _)).count x = _
    have hbefore : (e.perform (.exec t.loc (.statement st))).count x =
        some (s.custody e.store ((ofBody b).liveAt · t.loc) x : Int) := hbal.count x (horigin x hx)
    by_cases hlx : e.store.locals t.source = some x
    · rw [Execution.count_call (hobject.trans hlx), Function.update_self, hbefore, EntryPoint.recount,
        if_neg (by simp [callAt, hmakes]), if_pos hlx]
      simp [callAt, hchange]
    · rw [Execution.count_call_of_ne (by rw [hobject]; exact hlx), hbefore, if_neg hlx]
      rfl
  · rw [Execution.store_calls] at hx
    have hsize : e.store.size ≤ x := (Store.size_le_exec t.loc (.statement st)).trans hx
    change ((e.perform (.exec t.loc (.statement st))).perform (.call _)).count x = _
    rw [Execution.count_call_of_ne]
    · exact hbal.fresh x hsize
    · rw [hobject]
      exact fun he => absurd (hbal.sound.locals_lt _ x he) (Nat.not_lt.2 hsize)

/-- An instruction with the calls that come with it, before references are given up. -/
theorem balanced_exec (h : s.Tracked b root) (hpath : b.Path steps loc) {i : Instruction}
    (hi : b.instruction? loc = some i) (hbal : s.Balanced ((ofBody b).liveAt · loc) e) :
    (e.perform (.exec loc i)).Guarded s.loc ((openingAt s b loc).map .call) ∧
      s.Balanced (keepsPast b loc)
        ((e.perform (.exec loc i)).performAll ((openingAt s b loc).map .call)) := by
  by_cases halloc : loc = s.loc
  · subst halloc
    exact h.balanced_alloc hpath hi hbal
  by_cases htransfer : ∃ t ∈ b.ownership.transfers, t.source ∈ s.owners ∧ t.loc = loc
  · obtain ⟨t, ht, hsource, rfl⟩ := htransfer
    cases hmove : t.isMove with
    | false => exact h.balanced_copy ht hsource hmove halloc hpath hi hbal
    | true =>
      obtain ⟨st, hst, his⟩ := Body.mem_transfers.1 ht
      obtain rfl := Option.some.inj (hi.symm.trans hst)
      have hnone : openingAt s b t.loc = [] := by
        rw [openingAt_of_ne halloc]
        refine callsAt_acquireCalls_of_none fun t' ht' hcopy _ hpoint => ?_
        rw [Body.transfer_unique ht' ht (ProgramPoint.after.inj hpoint), hmove] at hcopy
        exact absurd hcopy (by simp)
      rw [hnone]
      exact ⟨trivial, balanced_perform hbal halloc (h.custody_move ht hsource hmove hpath hst his e.store)⟩
  · have hnone : openingAt s b loc = [] := by
      rw [openingAt_of_ne halloc]
      refine callsAt_acquireCalls_of_none fun t ht _ hsource hpoint => ?_
      exact htransfer ⟨t, ht, hsource, ProgramPoint.after.inj hpoint⟩
    have hdefs : ∀ l ∈ s.owners, l ∉ i.effects.defs := by
      intro l hl hdef
      rcases h.def_cases hi hl hdef with ⟨hloc, -⟩ | ⟨t, ht, hsource, -, hloc⟩
      · exact halloc hloc
      · exact htransfer ⟨t, ht, hsource, hloc⟩
    have hunmoved : ∀ l ∈ s.owners, b.ownership.isMovedAt l loc = false := by
      intro l hl
      refine isMovedAt_eq_false fun t ht _ hsource hloc => ?_
      exact htransfer ⟨t, ht, hsource ▸ hl, hloc⟩
    rw [hnone]
    exact ⟨trivial, balanced_perform hbal halloc (h.custody_other hpath hi hdefs hunmoved e.store)⟩

/-! ## A path -/

theorem callsAt_calls (h : s.Tracked b root) (o : AnalysisOptions) (point : ProgramPoint) :
    callsAt (s.calls (b.facts o)) point =
      callsAt (s.openingCalls b.ownership) point ++
        callsAt (s.releaseCalls b.ownership (ofBody b)) point := by
  rw [h.kept.calls_eq, callsAt_append]
  rfl

theorem callsAt_release (h : s.Tracked b root) (d : DeathPoint) :
    callsAt (s.releaseCalls b.ownership (ofBody b)) d.point =
      (s.owners.filter (releasesOn b d)).map fun l => s.callAt d.point s.strategy.release (some l) := by
  refine callsAt_releaseCalls h.complete ?_ d
  rcases h.kept.strategy with hs | hs | hs <;> simp [hs]

theorem callsAt_release_of_ne (point : ProgramPoint) (hne : ∀ d : DeathPoint, d.point ≠ point) :
    callsAt (s.releaseCalls b.ownership (ofBody b)) point = [] := by
  rw [callsAt, List.filter_eq_nil_iff]
  intro c hc he
  rw [releaseCalls] at hc
  split at hc
  · simp at hc
  · obtain ⟨l, -, hc⟩ := List.mem_flatMap.1 hc
    obtain ⟨d, -, rfl⟩ := List.mem_map.1 hc
    exact hne d (beq_iff_eq.1 he)

/-- Only making the object, copies and deaths come with calls. -/
theorem callsAt_opening_of_ne {point : ProgramPoint} (hinstead : ∀ loc, point ≠ .instead loc)
    (hafter : ∀ loc, point ≠ .after loc) : callsAt (s.openingCalls b.ownership) point = [] := by
  rw [openingCalls, callsAt_append, callsAt_allocCalls_of_ne (hinstead _) (hafter _),
    callsAt_acquireCalls_of_none fun t _ _ _ hpoint => hafter _ hpoint.symm]
  rfl

/-- No call is made before an instruction or at the entry. -/
theorem callsAt_of_ne (h : s.Tracked b root) (o : AnalysisOptions) {point : ProgramPoint}
    (hinstead : ∀ loc, point ≠ .instead loc) (hdeath : ∀ d : DeathPoint, d.point ≠ point) :
    callsAt (s.calls (b.facts o)) point = [] := by
  rw [h.callsAt_calls, callsAt_opening_of_ne hinstead fun loc he => hdeath (.after loc) he.symm,
    callsAt_release_of_ne point hdeath]
  rfl

theorem callsAt_before (h : s.Tracked b root) (o : AnalysisOptions) (loc : Location) :
    callsAt (s.calls (b.facts o)) (.before loc) = [] :=
  h.callsAt_of_ne o (by simp) fun d => by cases d <;> simp [DeathPoint.point]

theorem actionsAlong_eq (h : s.Tracked b root) (o : AnalysisOptions) (steps : List Body.Step) :
    actionsAlong (s.calls (b.facts o)) steps =
      steps.flatMap (Body.Step.actions (s.calls (b.facts o))) := by
  rw [actionsAlong, h.callsAt_of_ne o (by simp) fun d => by cases d <;> simp [DeathPoint.point]]
  rfl

/-- The step of an instruction keeps the balance. -/
theorem balanced_step_exec (h : s.Tracked b root) (o : AnalysisOptions) (hpath : b.Path steps loc)
    {i : Instruction} (hi : b.instruction? loc = some i) (hbal : s.Balanced ((ofBody b).liveAt · loc) e) :
    let actions := Body.Step.actions (s.calls (b.facts o)) (.exec loc i)
    e.Guarded s.loc actions ∧ s.Balanced ((ofBody b).liveAt · loc.next) (e.performAll actions) := by
  have hrest : callsAt (s.calls (b.facts o)) (.instead loc) ++ callsAt (s.calls (b.facts o)) (.after loc) =
      openingAt s b loc ++ (s.owners.filter (releasesOn b (.after loc))).map fun l =>
        s.callAt (.after loc) s.strategy.release (some l) := by
    rw [h.callsAt_calls, h.callsAt_calls,
      callsAt_release_of_ne (.instead loc) fun d => by cases d <;> simp [DeathPoint.point]]
    have hrelease := h.callsAt_release (.after loc)
    rw [show (DeathPoint.after loc).point = .after loc from rfl] at hrelease
    rw [hrelease, List.append_nil, openingAt, List.append_assoc]
  obtain ⟨hguarded, hkept⟩ := h.balanced_exec hpath hi hbal
  obtain ⟨hguarded', hbal'⟩ := hkept.release h.kept (.after loc) ((ofBody b).liveAt · loc.next)
    (fun l _ => rfl) fun l _ => releasesOn_live h.complete hpath hi
  have hactions : Body.Step.actions (s.calls (b.facts o)) (.exec loc i) =
      .exec loc i :: ((openingAt s b loc).map .call ++
        ((s.owners.filter (releasesOn b (.after loc))).map fun l =>
          s.callAt (.after loc) s.strategy.release (some l)).map .call) := by
    rw [Body.Step.actions, Body.Step.callsBefore, h.callsAt_before o, Body.Step.restActions, hrest, List.map_append]
    rfl
  rw [hactions]
  refine ⟨⟨trivial, hguarded.append hguarded'⟩, ?_⟩
  rw [Execution.performAll_cons, Execution.performAll_append]
  exact hbal'

/-- So does a jump. -/
theorem balanced_step_jump (h : s.Tracked b root) (o : AnalysisOptions) (hpath : b.Path steps loc)
    {t : Terminator} (ht : b.instruction? loc = some (.terminator t)) {target : BlockId}
    (htarget : target ∈ t.successors) (hbal : s.Balanced ((ofBody b).liveAt · loc.next) e) :
    let actions := Body.Step.actions (s.calls (b.facts o)) (.jump loc.block target)
    e.Guarded s.loc actions ∧ s.Balanced ((ofBody b).liveAt · ⟨target, 0⟩) (e.performAll actions) := by
  have hcalls : callsAt (s.calls (b.facts o)) (.edge loc.block target) =
      (s.owners.filter (releasesOn b (.edge loc.block target))).map fun l =>
        s.callAt (.edge loc.block target) s.strategy.release (some l) := by
    rw [h.callsAt_calls, callsAt_opening_of_ne (by simp) (by simp)]
    exact h.callsAt_release (.edge loc.block target)
  have hactions : Body.Step.actions (s.calls (b.facts o)) (.jump loc.block target) =
      ((s.owners.filter (releasesOn b (.edge loc.block target))).map fun l =>
        s.callAt (.edge loc.block target) s.strategy.release (some l)).map .call := by
    rw [Body.Step.actions, Body.Step.callsBefore, hcalls, Body.Step.restActions, List.append_nil]
  rw [hactions]
  exact hbal.release h.kept (.edge loc.block target) _ (fun l _ => liveAt_of_jump h.complete hpath ht htarget)
    fun l _ => releasesOn_edge_live h.complete hpath ht htarget

/-- At every position of a path the counts are those of the live owners. -/
theorem balanced (h : s.Tracked b root) (o : AnalysisOptions) {σ : Store} (hσ : σ.Initial)
    (hpath : b.Path steps loc) :
    let actions := actionsAlong (s.calls (b.facts o)) steps
    (Execution.start σ).Guarded s.loc actions ∧
      s.Balanced ((ofBody b).liveAt · loc) ((Execution.start σ).performAll actions) := by
  simp only [h.actionsAlong_eq]
  induction hpath with
  | entry =>
    refine ⟨trivial, hσ.toSound, fun x hx => ?_, fun _ _ => rfl⟩
    rw [List.flatMap_nil, Execution.performAll_nil] at hx
    exact absurd (hσ.origin_none x ▸ hx) (by simp)
  | @next steps loc st hpath hst ih =>
    obtain ⟨hguarded, hbal⟩ := ih
    obtain ⟨hguarded', hbal'⟩ := h.balanced_step_exec o hpath hst hbal
    rw [List.flatMap_append, List.flatMap_singleton, Execution.performAll_append]
    exact ⟨hguarded.append hguarded', hbal'⟩
  | @jump steps loc t target hpath ht htarget ih =>
    obtain ⟨hguarded, hbal⟩ := ih
    obtain ⟨hguarded', hbal'⟩ := h.balanced_step_exec o hpath ht hbal
    obtain ⟨hguarded'', hbal''⟩ := h.balanced_step_jump o hpath ht htarget hbal'
    have hsplit : steps ++ [Body.Step.exec loc (.terminator t), .jump loc.block target] =
        (steps ++ [.exec loc (.terminator t)]) ++ [.jump loc.block target] := by simp
    rw [hsplit, List.flatMap_append, List.flatMap_append, List.flatMap_singleton, List.flatMap_singleton,
      Execution.performAll_append, Execution.performAll_append]
    refine ⟨(hguarded.append hguarded').append ?_, hbal''⟩
    rw [Execution.performAll_append]
    exact hguarded''

/-- The steps through a return end in the position after it, where no owner is live. -/
theorem balanced_return (h : s.Tracked b root) (o : AnalysisOptions) {σ : Store} (hσ : σ.Initial)
    (hreturn : b.Returns steps) :
    let actions := actionsAlong (s.calls (b.facts o)) steps
    (Execution.start σ).Guarded s.loc actions ∧
      s.Balanced (fun _ => false) ((Execution.start σ).performAll actions) := by
  obtain ⟨before, loc, hpath, hret, rfl⟩ := hreturn
  obtain ⟨hguarded, hbal⟩ := h.balanced o hσ hpath
  obtain ⟨hguarded', hbal'⟩ := h.balanced_step_exec o hpath hret hbal
  have hactions : actionsAlong (s.calls (b.facts o)) (before ++ [.exec loc (.terminator .ret)]) =
      actionsAlong (s.calls (b.facts o)) before ++
        Body.Step.actions (s.calls (b.facts o)) (.exec loc (.terminator .ret)) := by
    simp [actionsAlong, List.flatMap_append]
  have hdead : (fun l => (ofBody b).liveAt l loc.next) = fun _ => false := by
    funext l
    exact Liveness.liveAt_ret hret
  rw [hactions, ← hdead]
  refine ⟨hguarded.append hguarded', ?_⟩
  rw [Execution.performAll_append]
  exact hbal'

end Tracked

end AllocationSite

/-- The planned calls of an allocation take and give up references in balance. From the entry of the body to
a return the count of each of its objects stays at least one until the last reference is given up, and is
zero in the end. -/
theorem TypeGraph.counts_balance {g : TypeGraph} {b : Body} {o : AnalysisOptions} {p : Plan}
    (hp : g.plan b o = .ok p) {s : AllocationSite} (hs : s ∈ p.sites) (hkept : s.Kept)
    (horderly : s.Orderly b) {σ : Store} (hσ : σ.Initial) {steps : List Body.Step}
    (hreturn : b.Returns steps) :
    s.calls (b.facts o) <:+: p.calls ∧
    let run := (Execution.start σ).performAll
    let actions := actionsAlong (s.calls (b.facts o)) steps
    (∀ before mid c after x n, actions = before ++ mid ++ .call c :: after →
      c.call = s.strategy.release → (run (before ++ mid)).object c = some x →
      (run before).store.origin x = some s.loc → (run before).count x = some n → 1 ≤ n) ∧
    ∀ x, (run actions).store.origin x = some s.loc → (run actions).count x = some 0 := by
  have hof := TypeGraph.plan_eq_ok hp
  obtain ⟨root, h⟩ := AllocationSite.tracked hof hs hkept horderly
  obtain ⟨hguarded, hbal⟩ := h.balanced_return o hσ hreturn
  refine ⟨hof.calls_together hs, fun before mid c after x n hactions _ hc horigin hcount => ?_, fun x hx => ?_⟩
  · rw [hactions, List.append_assoc] at hguarded
    rw [Execution.performAll_append] at hc
    exact Execution.Guarded.one_le hguarded.right (Execution.sound_performAll hσ.toSound before) horigin hcount hc
  · have hcount := hbal.count x hx
    have hnone : s.custody ((Execution.start σ).performAll
        (actionsAlong (s.calls (b.facts o)) steps)).store (fun _ => false) x = 0 :=
      List.countP_eq_zero.2 fun l _ hl => by simp at hl
    rwa [hnone] at hcount

/-- A type with a reference whose target is not known. -/
def openEnded : TypeGraph where
  nodes := #[{ name := "A", fields := #[.declare "next" (.unresolved "B") none] }]

/-- A body that makes an object, copies the reference to it, and reads one reference on each of two ways to
return. -/
def forked : Body where
  name := "forked"
  locals := Array.replicate 4 { kind := .temp }
  paramCount := 0
  blocks := #[
    { statements := [.assign (.ofLocal 1) (.alloc 0 0 false []),
        .assign (.ofLocal 2) (.use (.copy (.ofLocal 1)))]
      terminator := some (.switch (.const 0) [1] 2) },
    { statements := [.assign (.ofLocal 3) (.binary .eq (.copy (.ofLocal 1)) (.const 0))]
      terminator := some .ret },
    { statements := [.assign (.ofLocal 3) (.binary .eq (.copy (.ofLocal 2)) (.const 0))]
      terminator := some .ret }]

/-- A store without objects. -/
def Store.bare : Store where
  size := 0
  origin _ := none
  locals _ := none
  fields _ _ := none

theorem Store.initial_bare : Store.bare.Initial where
  locals_lt _ _ h := absurd h (by simp [bare])
  fields_lt _ _ _ h := absurd h (by simp [bare])
  origin_lt _ _ h := absurd h (by simp [bare])
  origin_none _ := rfl

namespace AllocationSite

section Forked

variable {s : AllocationSite} {a : Allocation}

theorem mem_forked_owners (ha : a ∈ forked.allocations) (h : a.Planned (forked.facts {}) openEnded {} s)
    {l : LocalId} (hl : l ∈ s.owners) : l = 1 ∨ l = 2 := by
  have hplace : ∀ a ∈ forked.allocations, a.place = .ofLocal 1 := by decide
  have hdest : ∀ t ∈ forked.ownership.transfers, t.dest = 1 ∨ t.dest = 2 := by decide
  rw [h.owners, hplace a ha] at hl
  exact Ownership.of_mem_ownersOf (P := fun l => l = 1 ∨ l = 2) hl (.inl rfl) fun t ht _ => hdest t ht

/-- The owners stay in the body, and references are counted since the shape is not known. -/
theorem forked_kept (ha : a ∈ forked.allocations) (h : a.Planned (forked.facts {}) openEnded {} s) :
    s.Kept := by
  have hplace : ∀ a ∈ forked.allocations, a.place = .ofLocal 1 := by decide
  have htype : ∀ a ∈ forked.allocations, a.type = 0 := by decide
  have hroot : 1 ∈ s.owners := by
    rw [h.owners, Ownership.mem_ownersOf, hplace a ha]
    exact ⟨1, rfl, .refl⟩
  have howners : s.owners ≠ [] := List.ne_nil_of_mem hroot
  have hconstraints : forked.escapeConstraints {} =
      [.atLeast 0 .global, .follows 1 2, .crossesWith 1 2] := by decide
  have hescape : (forked.facts {}).escapeOf a s.owners ≠ .global := by
    rw [Ne, BodyFacts.escapeOf_eq_global_iff howners]
    rintro ⟨l, hl, hglobal⟩
    have hzero : l = 0 := by
      refine EscapeConstraint.of_mem_reached (P := (· = 0)) (fun l t hmem _ => ?_) (fun l l' hmem hl' => ?_)
        hglobal
      · rw [hconstraints] at hmem
        simp at hmem
        exact hmem.1
      · rw [hconstraints] at hmem
        simp at hmem
        exact absurd (hmem.2 ▸ hl') (by decide)
    rcases mem_forked_owners ha h hl with rfl | rfl <;> exact absurd hzero (by decide)
  have hcaptured : (s.owners.any (forked.facts {}).escape.isCaptured) = false :=
    BodyFacts.any_isCaptured_eq_false (by decide)
  have hunknown : s.fact.unknown = true := by
    have hfact : openEnded.classify 0 = .ok .unresolved :=
      TypeGraph.classify_eq_unresolved (by decide)
        ⟨0, .refl openEnded 0, ⟨0, 0⟩, .declare "next" (.unresolved "B") none, "B", by decide, rfl, rfl⟩
    rw [← htype a ha, h.fact, Except.ok.injEq] at hfact
    rw [hfact]
    rfl
  refine ⟨by simpa [isEmbedded] using howners, ?_, .inr (.inr ?_)⟩
  · rw [h.decision]
    show (((forked.facts {}).escapeOf a s.owners == .global) || s.owners.any _) = false
    simp [hescape, hcaptured]
  · rw [strategy, h.decision]
    simp [RouteInput.route, RouteInput.fullRoute, RouteInput.baseRoute, ShapeFact.strategy, hunknown,
      BodyFacts.routeInput]

theorem forked_orderly (ha : a ∈ forked.allocations) (h : a.Planned (forked.facts {}) openEnded {} s) :
    s.Orderly forked where
  assigned l hl := by
    rcases mem_forked_owners ha h hl with rfl | rfl
    · have hs : (⟨0, 0⟩, .assign (.ofLocal 1) (.alloc 0 0 false [])) ∈ forked.statements := by decide
      exact .of_lists hs (by decide) (by decide) (by decide)
    · have hs : (⟨0, 1⟩, .assign (.ofLocal 2) (.use (.copy (.ofLocal 1)))) ∈ forked.statements := by decide
      exact .of_lists hs (by decide) (by decide) (by decide)
  reads l hl := by
    rcases mem_forked_owners ha h hl with rfl | rfl
    · exact .of_entry (k := 0) rfl (by decide) (by decide) (by decide)
    · exact .of_entry (k := 1) rfl (by decide) (by decide) (by decide)
  moved t ht hmove := by
    have hcopies : ∀ t ∈ forked.ownership.transfers, t.isMove = false := by decide
    exact absurd (hcopies t ht) (by simp [hmove])

end Forked

end AllocationSite

/-- On the way on which only the copy is read, the reference of the first owner is given up on the jump. -/
theorem TypeGraph.counts_balance_forked : ∃ p s steps, openEnded.plan forked {} = .ok p ∧ s ∈ p.sites ∧
    s.Kept ∧ s.Orderly forked ∧ Store.bare.Initial ∧ forked.Returns steps ∧
    s.calls (forked.facts {}) <:+: p.calls ∧
    let run := (Execution.start .bare).performAll (actionsAlong (s.calls (forked.facts {})) steps)
    ∀ x, run.store.origin x = some s.loc → run.count x = some 0 := by
  obtain ⟨p, hp⟩ := TypeGraph.exists_plan (g := openEnded) (b := forked) {} (by decide) (by decide)
  obtain ⟨a, ha⟩ : ∃ a, a ∈ forked.allocations := ⟨⟨⟨0, 0⟩, .ofLocal 1, 0, 0, false⟩, by decide⟩
  obtain ⟨s, hs, hplan⟩ := (TypeGraph.plan_eq_ok hp).planned a ha
  have hpath : forked.Path _ ⟨2, 0⟩ :=
    ((Body.Path.entry.next (s := .assign (.ofLocal 1) (.alloc 0 0 false [])) rfl).next
      (s := .assign (.ofLocal 2) (.use (.copy (.ofLocal 1)))) rfl).jump
        (t := .switch (.const 0) [1] 2) rfl (by decide)
  have hreturn : forked.Returns _ :=
    ⟨_, _, hpath.next (s := .assign (.ofLocal 3) (.binary .eq (.copy (.ofLocal 2)) (.const 0))) rfl, rfl, rfl⟩
  have h := TypeGraph.counts_balance hp hs (AllocationSite.forked_kept ha hplan)
    (AllocationSite.forked_orderly ha hplan) Store.initial_bare hreturn
  exact ⟨p, s, _, hp, hs, AllocationSite.forked_kept ha hplan, AllocationSite.forked_orderly ha hplan,
    Store.initial_bare, hreturn, h.1, h.2.2⟩

end Reclamation
