import Mathlib
import Reclamation.Proofs.Plan.Calls

/-!
# Who keeps a reference

An object has as many references to account for as owners that are live and refer to it (`custody`). Between
an instruction and the calls that give references up, the owners that are about to die keep theirs too
(`keepsPast`). `Balanced` says that counts agree with this, and giving references up keeps it
(`Balanced.release`).

The owners are to be assigned once, to be read only after that, and not to be live after they have been
moved from (`Orderly`).
-/

set_option autoImplicit false

namespace Reclamation

open Liveness (ofBody)

/-- One instruction of the body assigns the local, and it is a statement. -/
def Body.AssignedOnce (b : Body) (l : LocalId) : Prop :=
  ∃ loc s, b.instruction? loc = some (.statement s) ∧ l ∈ s.effects.defs ∧
    ∀ loc' i, b.instruction? loc' = some i → l ∈ i.effects.defs → loc' = loc

/-- No two instructions assign the local. -/
def Body.AssignedAtMostOnce (b : Body) (l : LocalId) : Prop :=
  ∀ loc loc' i i', b.instruction? loc = some i → b.instruction? loc' = some i' →
    l ∈ i.effects.defs → l ∈ i'.effects.defs → loc = loc'

/-- A tree that is freed where its owner dies has no copied owner and is not handed to a function that may
keep it. -/
theorem RouteInput.not_aliased_of_asap {i : RouteInput} {arenaOptIn : Bool}
    (h : (i.route arenaOptIn).strategy = .asap) : i.aliased = false ∧ i.escape ≠ .arg := by
  have hfull : (i.fullRoute arenaOptIn).1 = .asap := h
  rw [RouteInput.fullRoute] at hfull
  cases hp : i.promotion? with
  | none =>
    rw [RouteInput.promotion?] at hp
    split at hp
    · exact absurd hp (by simp)
    · next harg =>
      split at hp
      · exact absurd hp (by simp)
      · next halias => exact ⟨Bool.not_eq_true _ ▸ halias, harg⟩
  | some reason =>
    simp only [hp] at hfull
    split at hfull
    · exact absurd hfull (by simp)
    · next hne =>
      simp_all

theorem Body.AssignedOnce.of_lists {b : Body} {l : LocalId} {loc : Location} {s : Statement}
    (hs : (loc, s) ∈ b.statements) (hdef : l ∈ s.effects.defs)
    (hstatements : ∀ x ∈ b.statements, l ∈ x.2.effects.defs → x.1 = loc)
    (hterminators : ∀ x ∈ b.terminators, l ∉ x.2.effects.defs) : b.AssignedOnce l := by
  refine ⟨loc, s, mem_statements.1 hs, hdef, fun loc' i hi hdef' => ?_⟩
  cases i with
  | statement s' => exact hstatements _ (mem_statements.2 hi) hdef'
  | terminator t => exact absurd hdef' (hterminators _ (mem_terminators.2 hi))

theorem Body.AssignedAtMostOnce.of_lists {b : Body} {l : LocalId}
    (hstatements : ∀ x ∈ b.statements, ∀ y ∈ b.statements, l ∈ x.2.effects.defs → l ∈ y.2.effects.defs →
      x.1 = y.1)
    (hterminators : ∀ x ∈ b.terminators, l ∉ x.2.effects.defs) : b.AssignedAtMostOnce l := by
  intro loc loc' i i' hi hi' hdef hdef'
  cases i with
  | statement s =>
    cases i' with
    | statement s' => exact hstatements _ (mem_statements.2 hi) _ (mem_statements.2 hi') hdef hdef'
    | terminator t => exact absurd hdef' (hterminators _ (mem_terminators.2 hi'))
  | terminator t => exact absurd hdef (hterminators _ (mem_terminators.2 hi))

namespace AllocationSite

/-- The owners of an allocation are assigned once and before they are read, and are not live after they have
been moved from. -/
structure Orderly (s : AllocationSite) (b : Body) : Prop where
  assigned : ∀ l ∈ s.owners, b.AssignedOnce l
  reads : ∀ l ∈ s.owners, b.ReadsAssigned l
  moved : ∀ t ∈ b.ownership.transfers, t.isMove = true → t.source ∈ s.owners →
    (ofBody b).liveAt t.source t.loc.next = false

/-- What the balance of an allocation rests on. -/
structure Tracked (s : AllocationSite) (b : Body) (root : LocalId) : Prop where
  complete : b.Complete
  kept : s.Kept
  orderly : s.Orderly b
  place : s.place = .ofLocal root
  owners : s.owners = b.ownership.ownersOf s.place
  alloc : ∃ site type frozen contents,
    b.instruction? s.loc = some (.statement (.assign s.place (.alloc site type frozen contents)))
  counted : ∀ t ∈ b.ownership.transfers, t.isMove = false → t.source ∈ s.owners →
    ∃ f, s.strategy.acquire? = some f

theorem tracked {p : Plan} {g : TypeGraph} {b : Body} {o : AnalysisOptions} (hp : p.Of g b o) {s : AllocationSite}
    (hs : s ∈ p.sites) (hkept : s.Kept) (horderly : s.Orderly b) : ∃ root, s.Tracked b root := by
  obtain ⟨a, ha, hplan⟩ := hp.site s hs
  obtain ⟨contents, hinstr⟩ := Body.mem_allocations.1 ha
  have howners : s.owners = b.ownership.ownersOf s.place := by
    rw [hplan.place]
    exact hplan.owners
  cases hroot : s.place.local? with
  | none =>
    have hempty : s.owners = [] := by
      rw [howners, Ownership.ownersOf, hroot]
    have howned := hkept.owned
    rw [isEmbedded, hempty] at howned
    exact absurd howned (by simp)
  | some root =>
    refine ⟨root, hp.complete, hkept, horderly, Place.eq_ofLocal hroot, howners, ⟨a.site, a.type, a.frozen, contents, ?_⟩, ?_⟩
    · rw [hplan.loc, hplan.place]
      exact hinstr
    · intro t ht hcopy howner
      rcases hkept.strategy with hasap | hrc | hsym
      · have hroute : (((b.facts o).routeInput a s.owners s.fact).route o.arenaOptIn).strategy = .asap := by
          rw [← hplan.decision]
          exact hasap
        have halias : (s.owners.any fun l => !(b.ownership.copiesOf l).isEmpty) = false :=
          (RouteInput.not_aliased_of_asap hroute).1
        have hmem : (t.loc, t.dest) ∈ b.ownership.copiesOf t.source :=
          List.mem_map.2 ⟨t, List.mem_filter.2 ⟨ht, by simp [hcopy]⟩, rfl⟩
        have hnone := List.any_eq_false.1 halias t.source howner
        simp only [Bool.not_eq_true, Bool.not_eq_false', List.isEmpty_iff] at hnone
        rw [hnone] at hmem
        exact absurd hmem (by simp)
      · exact ⟨.incRef, by rw [hrc]; rfl⟩
      · exact ⟨.symAcquire, by rw [hsym]; rfl⟩

namespace Tracked

variable {s : AllocationSite} {b : Body} {root : LocalId}

theorem mem_owners (h : s.Tracked b root) {l : LocalId} :
    l ∈ s.owners ↔ Relation.ReflTransGen (Ownership.Passes b.ownership.transfers) root l := by
  rw [h.owners, Ownership.mem_ownersOf, h.place]
  simp

theorem root_mem (h : s.Tracked b root) : root ∈ s.owners :=
  h.mem_owners.2 .refl

theorem nodup_owners (h : s.Tracked b root) : s.owners.Nodup := by
  rw [h.owners]
  exact Ownership.nodup_ownersOf ..

theorem firstOwner? (h : s.Tracked b root) : s.firstOwner? = some root := by
  rw [AllocationSite.firstOwner?, h.owners, h.place]
  exact Ownership.ownersOf_ofLocal_head ..

theorem dest_mem (h : s.Tracked b root) {t : Transfer} (ht : t ∈ b.ownership.transfers)
    (hsource : t.source ∈ s.owners) : t.dest ∈ s.owners :=
  h.mem_owners.2 ((h.mem_owners.1 hsource).tail ⟨t, ht, rfl, rfl⟩)

/-- An owner is assigned by the allocation or by a transfer from another owner. -/
theorem def_cases (h : s.Tracked b root) {loc : Location} {i : Instruction} {l : LocalId}
    (hi : b.instruction? loc = some i) (hl : l ∈ s.owners) (hdef : l ∈ i.effects.defs) :
    (loc = s.loc ∧ l = root) ∨
      ∃ t ∈ b.ownership.transfers, t.source ∈ s.owners ∧ t.dest = l ∧ t.loc = loc := by
  obtain ⟨d, sd, hd, hdefd, hunique⟩ := h.orderly.assigned l hl
  have hloc := hunique loc i hi hdef
  rcases Relation.ReflTransGen.cases_tail (h.mem_owners.1 hl) with rfl | ⟨l', hl', t, ht, rfl, rfl⟩
  · obtain ⟨_, _, _, _, halloc⟩ := h.alloc
    refine .inl ⟨hloc.trans (hunique s.loc _ halloc ?_).symm, rfl⟩
    simp [Instruction.effects, Statement.effects, Effects.write, h.place]
  · obtain ⟨st, hst, his⟩ := Body.mem_transfers.1 ht
    refine .inr ⟨t, ht, h.mem_owners.2 hl', rfl, ?_⟩
    refine (hunique t.loc _ hst ?_).trans hloc.symm
    simp [Instruction.effects, his.effects]

/-- An owner is not live where it is assigned. -/
theorem not_live_of_def (h : s.Tracked b root) {steps : List Body.Step} {loc : Location} {i : Instruction}
    {l : LocalId} (hpath : b.Path steps loc) (hi : b.instruction? loc = some i) (hl : l ∈ s.owners)
    (hdef : l ∈ i.effects.defs) : (ofBody b).liveAt l loc = false := by
  by_contra hlive
  rw [Bool.not_eq_false] at hlive
  obtain ⟨pre, hpre, hfirst⟩ := hpath.exists_first
  obtain ⟨d, j, hmem, hj⟩ := (h.orderly.reads l hl).of_liveAt h.complete hpre hlive
  obtain ⟨_, _, _, _, hunique⟩ := h.orderly.assigned l hl
  have hd := hunique d j (hpre.instruction?_of_mem hmem) hj
  obtain rfl := hd.trans (hunique loc i hi hdef).symm
  exact hfirst j hmem

end Tracked

/-! ## Who keeps a reference -/

/-- How many of the owners that keep a reference refer to an object. -/
def custody (s : AllocationSite) (σ : Store) (keeps : LocalId → Bool) (x : Nat) : Nat :=
  s.owners.countP fun l => keeps l && σ.locals l == some x

/-- Whether an owner keeps its reference when an instruction has been executed and the references of those
that die after it have not been given up. -/
def keepsPast (b : Body) (loc : Location) (l : LocalId) : Bool :=
  (ofBody b).liveAt l loc.next || releasesOn b (.after loc) l

section Keeping

variable {s : AllocationSite} {b : Body} {root : LocalId} {steps : List Body.Step} {loc : Location}
  {i : Instruction} {l : LocalId}

theorem releasesOn_after (hb : b.Complete) (hpath : b.Path steps loc) (hi : b.instruction? loc = some i) :
    releasesOn b (.after loc) l =
      (i.effects.touches l && !(ofBody b).liveAt l loc.next && !b.ownership.isMovedAt l loc) := by
  have hmem : ((ofBody b).deathPoints l).contains (.after loc) =
      (i.effects.touches l && !(ofBody b).liveAt l loc.next) := by
    rw [Bool.eq_iff_iff, List.contains_iff_mem, Liveness.after_mem_deathPoints hb, Bool.and_eq_true,
      Bool.not_eq_true']
    constructor
    · rintro ⟨-, j, hj, h⟩
      obtain rfl := Option.some.inj (hi.symm.trans hj)
      exact h
    · exact fun h => ⟨(Liveness.mem_reached hb).2 (hpath.reaches hb), i, hi, h⟩
  rw [releasesOn, hmem]
  rfl

theorem isMovedAt_iff : b.ownership.isMovedAt l loc = true ↔
    ∃ t ∈ b.ownership.transfers, t.isMove = true ∧ t.source = l ∧ t.loc = loc := by
  simp [Ownership.isMovedAt, and_assoc]

theorem isMovedAt_eq_false
    (h : ∀ t ∈ b.ownership.transfers, t.isMove = true → t.source = l → t.loc ≠ loc) :
    b.ownership.isMovedAt l loc = false := by
  rw [← Bool.not_eq_true, isMovedAt_iff]
  rintro ⟨t, ht, hmove, hsource, hloc⟩
  exact h t ht hmove hsource hloc

theorem releasesOn_live (hb : b.Complete) (hpath : b.Path steps loc) (hi : b.instruction? loc = some i)
    (h : releasesOn b (.after loc) l = true) : (ofBody b).liveAt l loc.next = false := by
  rw [releasesOn_after hb hpath hi] at h
  simp only [Bool.and_eq_true, Bool.not_eq_true'] at h
  exact h.1.2

/-- A local that an instruction neither assigns nor moves away keeps its reference past it if it was live
before. -/
theorem keepsPast_of_notMem (hb : b.Complete) (hpath : b.Path steps loc) (hi : b.instruction? loc = some i)
    (hdef : l ∉ i.effects.defs) (hmoved : b.ownership.isMovedAt l loc = false) :
    keepsPast b loc l = (ofBody b).liveAt l loc := by
  have hcontains : i.effects.defs.contains l = false := by
    simpa using hdef
  rw [keepsPast, releasesOn_after hb hpath hi, Liveness.liveAt_exec hi, Effects.liveBefore, Effects.touches,
    hmoved, hcontains]
  cases i.effects.uses.contains l <;> cases (ofBody b).liveAt l loc.next <;> rfl

/-- A local that is assigned gets a reference of its own. -/
theorem keepsPast_of_mem (hb : b.Complete) (hpath : b.Path steps loc) (hi : b.instruction? loc = some i)
    (hdef : l ∈ i.effects.defs) (hmoved : b.ownership.isMovedAt l loc = false) :
    keepsPast b loc l = true := by
  have hcontains : i.effects.defs.contains l = true := by
    simpa using hdef
  rw [keepsPast, releasesOn_after hb hpath hi, Effects.touches, hmoved, hcontains]
  cases (ofBody b).liveAt l loc.next <;> simp

theorem Tracked.keepsPast_of_moved (h : s.Tracked b root) {t : Transfer} (ht : t ∈ b.ownership.transfers)
    (hmove : t.isMove = true) (hsource : t.source ∈ s.owners) (hpath : b.Path steps t.loc)
    (hi : b.instruction? t.loc = some i) : keepsPast b t.loc t.source = false := by
  have hmoved : b.ownership.isMovedAt t.source t.loc = true := isMovedAt_iff.2 ⟨t, ht, hmove, rfl, rfl⟩
  rw [keepsPast, releasesOn_after h.complete hpath hi, hmoved, h.orderly.moved t ht hmove hsource]
  simp

section Jumping

variable {t : Terminator} {target : BlockId}

theorem releasesOn_edge (hb : b.Complete) (hpath : b.Path steps loc) (ht : b.instruction? loc = some (.terminator t))
    (htarget : target ∈ t.successors) : releasesOn b (.edge loc.block target) l =
      ((ofBody b).liveAt l loc.next && !(ofBody b).liveAt l ⟨target, 0⟩) := by
  have hreached : loc.block ∈ (ofBody b).reached := (Liveness.mem_reached hb).2 (hpath.reaches hb)
  rw [releasesOn, releasesAt, Bool.and_true, Bool.eq_iff_iff, List.contains_iff_mem,
    Liveness.edge_mem_deathPoints_iff_liveAt hb hreached ht htarget, Bool.and_eq_true, Bool.not_eq_true']

/-- On a jump die the locals that are live at its source and not at its target, and the others stay live. -/
theorem liveAt_of_jump (hb : b.Complete) (hpath : b.Path steps loc) (ht : b.instruction? loc = some (.terminator t))
    (htarget : target ∈ t.successors) : (ofBody b).liveAt l loc.next =
      ((ofBody b).liveAt l ⟨target, 0⟩ || releasesOn b (.edge loc.block target) l) := by
  have hreached : loc.block ∈ (ofBody b).reached := (Liveness.mem_reached hb).2 (hpath.reaches hb)
  have hreached' : target ∈ (ofBody b).reached := (Liveness.mem_reached hb).2 ((hpath.jump ht htarget).reaches hb)
  rw [releasesOn_edge hb hpath ht htarget]
  cases hin : (ofBody b).liveAt l ⟨target, 0⟩ with
  | false => simp
  | true =>
    rw [Liveness.liveAt_end ht, Bool.true_or]
    exact Liveness.isLiveOut_iff.2
      ⟨hreached, target, (Body.mem_successors_iff ht).2 htarget, (Liveness.liveAt_start hb hreached').1 hin⟩

theorem releasesOn_edge_live (hb : b.Complete) (hpath : b.Path steps loc)
    (ht : b.instruction? loc = some (.terminator t)) (htarget : target ∈ t.successors)
    (h : releasesOn b (.edge loc.block target) l = true) : (ofBody b).liveAt l ⟨target, 0⟩ = false := by
  rw [releasesOn_edge hb hpath ht htarget] at h
  simpa using (Bool.and_eq_true_iff.1 h).2

end Jumping

end Keeping

/-! ## Counting the owners -/

theorem countP_of_agree {α : Type} {l : List α} (hl : l.Nodup) {a : α} (ha : a ∈ l) {p q : α → Bool}
    (hpa : p a = false) (hpq : ∀ x ∈ l, x ≠ a → q x = p x) :
    l.countP q = l.countP p + if q a then 1 else 0 := by
  induction l with
  | nil => simp at ha
  | cons x l ih =>
    obtain ⟨hx, hl⟩ := List.nodup_cons.1 hl
    rw [List.countP_cons, List.countP_cons]
    rcases List.mem_cons.1 ha with rfl | ha
    · have hrest : l.countP q = l.countP p :=
        List.countP_congr fun y hy => by
          rw [hpq y (List.mem_cons_of_mem _ hy) fun e => hx (e ▸ hy)]
      rw [hrest, hpa]
      simp
    · have hne : x ≠ a := fun e => hx (e ▸ ha)
      rw [ih hl ha fun y hy => hpq y (List.mem_cons_of_mem _ hy), hpq x List.mem_cons_self hne]
      omega

/-- The owners that keep a reference are those that will go on keeping it and those that give it up. -/
theorem custody_split (s : AllocationSite) (σ : Store) {keeps later dying : LocalId → Bool}
    (hkeeps : ∀ l ∈ s.owners, keeps l = (later l || dying l))
    (hdying : ∀ l ∈ s.owners, dying l = true → later l = false) (x : Nat) :
    s.custody σ keeps x =
      s.custody σ later x + (s.owners.filter dying).countP fun l => σ.locals l == some x := by
  rw [custody, custody, List.countP_filter]
  generalize hl : s.owners = ls at hkeeps hdying
  clear hl
  induction ls with
  | nil => rfl
  | cons l ls ih =>
    rw [List.countP_cons, List.countP_cons, List.countP_cons,
      ih (fun l' h => hkeeps l' (List.mem_cons_of_mem _ h)) fun l' h => hdying l' (List.mem_cons_of_mem _ h),
      hkeeps l List.mem_cons_self]
    have hd := hdying l List.mem_cons_self
    cases hdy : dying l with
    | false => simp; omega
    | true => simp [hd hdy]; omega

/-! ## The balance -/

/-- The count of each object of the allocation is the number of owners that keep a reference to it. -/
structure Balanced (s : AllocationSite) (keeps : LocalId → Bool) (e : Execution) : Prop where
  sound : e.store.Sound
  count : ∀ x, e.store.origin x = some s.loc → e.count x = some (s.custody e.store keeps x : Int)
  fresh : ∀ x, e.store.size ≤ x → e.count x = none

namespace Balanced

variable {s : AllocationSite} {e : Execution} {keeps later : LocalId → Bool}

theorem object_lt (h : e.store.Sound) {c : PlannedCall} {x : Nat} (hx : e.object c = some x) :
    x < e.store.size := by
  obtain ⟨l, -, hl⟩ := Option.bind_eq_some_iff.1 hx
  exact h.locals_lt l x hl

/-- Some locals give their references up, one after the other: each object has lost as many as refer to it. -/
theorem release_locals (hk : s.Kept) (point : ProgramPoint) (rest : Nat → Nat) :
    ∀ (ls : List LocalId) (e : Execution), e.store.Sound → (∀ x, e.store.size ≤ x → e.count x = none) →
      (∀ x, e.store.origin x = some s.loc →
        e.count x = some ((rest x + ls.countP fun l => e.store.locals l == some x : Nat) : Int)) →
      let calls := (ls.map fun l => s.callAt point s.strategy.release (some l)).map Action.call
      e.Guarded s.loc calls ∧ (∀ x, e.store.size ≤ x → (e.performAll calls).count x = none) ∧
        ∀ x, e.store.origin x = some s.loc → (e.performAll calls).count x = some (rest x : Int) := by
  have hrelease : s.strategy.release.makes = false ∧ s.strategy.release.change = -1 := by
    rcases hk.strategy with h | h | h <;> rw [h] <;> exact ⟨rfl, rfl⟩
  intro ls
  induction ls with
  | nil =>
    intro e _ hfresh hcount
    exact ⟨trivial, hfresh, fun x hx => by simpa using hcount x hx⟩
  | cons l ls ih =>
    intro e hsound hfresh hcount
    have hobject : e.object (s.callAt point s.strategy.release (some l)) = e.store.locals l := rfl
    have hstore := e.store_call (s.callAt point s.strategy.release (some l))
    have hready : e.Ready s.loc (.call (s.callAt point s.strategy.release (some l))) := by
      intro x hx horigin
      have hlocal : e.store.locals l = some x := hx
      rw [if_neg (by simp [callAt, hrelease.1])]
      refine ⟨_, hcount x horigin, ?_⟩
      rw [List.countP_cons_of_pos (by simp [hlocal])]
      omega
    have hnext := ih (e.perform (.call (s.callAt point s.strategy.release (some l))))
      (by rw [hstore]; exact hsound) ?_ ?_
    · refine ⟨⟨hready, hnext.1⟩, fun x hx => hnext.2.1 x (by rw [hstore]; exact hx), fun x hx => ?_⟩
      exact hnext.2.2 x (by rw [hstore]; exact hx)
    · intro x hx
      rw [hstore] at hx
      rw [Execution.count_call_of_ne fun hobj => absurd (object_lt hsound hobj) (Nat.not_lt.2 hx)]
      exact hfresh x hx
    · intro x hx
      rw [hstore] at hx ⊢
      by_cases hlocal : e.store.locals l = some x
      · rw [Execution.count_call (hobject.trans hlocal), Function.update_self, hcount x hx, EntryPoint.recount,
          if_neg (by simp [callAt, hrelease.1]), List.countP_cons_of_pos (by simp [hlocal])]
        simp only [callAt, hrelease.2, Option.map_some, Option.some.injEq]
        omega
      · rw [Execution.count_call_of_ne fun hobj => hlocal (hobject.symm.trans hobj), hcount x hx,
          List.countP_cons_of_neg (by simp [hlocal])]

/-- Those that die give their references up, and the others keep theirs. -/
theorem release (h : s.Balanced keeps e) (hk : s.Kept) (point : ProgramPoint) (later : LocalId → Bool)
    {dying : LocalId → Bool}
    (hkeeps : ∀ l ∈ s.owners, keeps l = (later l || dying l))
    (hdying : ∀ l ∈ s.owners, dying l = true → later l = false) :
    let calls := ((s.owners.filter dying).map fun l =>
      s.callAt point s.strategy.release (some l)).map Action.call
    e.Guarded s.loc calls ∧ s.Balanced later (e.performAll calls) := by
  intro calls
  have hlist := release_locals hk point (s.custody e.store later) (s.owners.filter dying) e h.sound h.fresh
    fun x hx => by rw [← custody_split s e.store hkeeps hdying]; exact h.count x hx
  have hstore : (e.performAll calls).store = e.store := Execution.store_calls ..
  refine ⟨hlist.1, ?_, fun x hx => ?_, fun x hx => ?_⟩
  · rw [hstore]
    exact h.sound
  · rw [hstore] at hx ⊢
    exact hlist.2.2 x hx
  · rw [hstore] at hx
    exact hlist.2.1 x hx

end Balanced

end AllocationSite

end Reclamation
