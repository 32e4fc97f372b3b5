import Mathlib
import Reclamation.Proofs.Plan.Releases
import Reclamation.Proofs.TypeGraph.Shapes

/-!
# What the releases of an object are backed by

An owner that is live and refers to an object gives its reference up once. So along a path an object is given
up once for the allocation that made it, and once more for each time that an owner has been left with a second
one: by a copy, or by a move from an owner that is read again (`shares`). At most one statement is to assign
each owner, since an owner that is assigned anew forgets what it had to give up.

`Backed` says this of a state, with the owners that still keep a reference counted as well. An instruction
keeps it, and so do the calls that give references up, at every point between them (`releases_backed`). If no
owner is left with a second one, no more references are given up than are taken.

Under the strategy that freezes, a copy takes no reference, and each of the two owners gives one up
(`released_beyond_taken`).
-/

set_option autoImplicit false

namespace Reclamation

open Liveness (ofBody)

/-! ## Counting actions -/

namespace Execution

/-- How many actions of a list satisfy a condition, each in the state in which it comes. -/
def tally (P : Execution → Action → Bool) : Execution → List Action → Nat
  | _, [] => 0
  | e, a :: actions => (P e a).toNat + tally P (e.perform a) actions

variable {P : Execution → Action → Bool} {e : Execution} {xs ys : List Action}

theorem tally_append : e.tally P (xs ++ ys) = e.tally P xs + (e.performAll xs).tally P ys := by
  induction xs generalizing e with
  | nil => exact (Nat.zero_add _).symm
  | cons a xs ih => exact (congrArg _ ih).trans (Nat.add_assoc ..).symm

theorem tally_le_of_prefix (h : xs <+: ys) : e.tally P xs ≤ e.tally P ys := by
  obtain ⟨rest, rfl⟩ := h
  rw [tally_append]
  exact Nat.le_add_right ..

/-- Calls that are passed an object, counted as they stand, since calls change no reference. -/
theorem tally_calls {Q : PlannedCall → Bool} (x : Nat) (hP : ∀ (e : Execution) c,
    P e (.call c) = (Q c && e.object c == some x)) (calls : List PlannedCall) (e : Execution) :
    e.tally P (calls.map .call) = (calls.filter Q).countP fun c => e.object c == some x := by
  induction calls generalizing e with
  | nil => rfl
  | cons c calls ih =>
    have hobject : ∀ d, (e.perform (.call c)).object d = e.object d := fun d => by
      rw [object, store_call, object]
    rw [List.map_cons, tally, ih, hP, List.filter_cons]
    simp only [hobject]
    cases Q c with
    | false => simp
    | true => simp [List.countP_cons, Nat.add_comm, Bool.toNat, cond_eq_ite]

theorem tally_eq_zero (h : ∀ (e : Execution), ∀ a ∈ xs, P e a = false) : e.tally P xs = 0 := by
  induction xs generalizing e with
  | nil => rfl
  | cons a xs ih =>
    rw [tally, h e a List.mem_cons_self, ih fun e b hb => h e b (List.mem_cons_of_mem a hb)]
    rfl

end Execution

/-- Whether a call takes a reference for its caller. -/
def EntryPoint.isAcquire : EntryPoint → Bool
  | incRef | symAcquire => true
  | _ => false

/-- An action is a call of some kind, and is passed the object. -/
def Action.passed (kind : EntryPoint → Bool) (x : Nat) (e : Execution) : Action → Bool
  | .exec _ _ => false
  | .call c => kind c.call && e.object c == some x

/-- No two statements assign the local. -/
def Body.StatedAtMostOnce (b : Body) (l : LocalId) : Prop :=
  ∀ loc loc' s s', b.instruction? loc = some (.statement s) → b.instruction? loc' = some (.statement s') →
    l ∈ s.effects.defs → l ∈ s'.effects.defs → loc = loc'

/-- What is assigned as a whole by a write is the local that is written to. -/
theorem Effects.local?_of_mem_defs {uses : List LocalId} {p : Place} {l : LocalId}
    (h : l ∈ (Effects.write uses p).defs) : p.local? = some l := by
  rw [Effects.write] at h
  split at h
  · next l' hl' => rw [hl', List.mem_singleton.1 h]
  · exact absurd h (by simp)

theorem Store.locals_setLocal (σ : Store) (l : LocalId) (v : Option Nat) : (σ.setLocal l v).locals l = v :=
  Function.update_self ..

namespace AllocationSite

/-- A transfer leaves its source with what it gave: it is a copy, or its source is read again. -/
def shares (b : Body) (t : Transfer) : Bool :=
  !t.isMove || (ofBody b).liveAt t.source t.loc.next

/-- An action hands an object from an owner to a second one, and leaves the first with it. -/
def sharing (s : AllocationSite) (b : Body) (x : Nat) (e : Execution) : Action → Bool
  | .exec loc _ => b.ownership.transfers.any fun t =>
      t.loc == loc && s.owners.contains t.source && shares b t && e.store.locals t.source == some x
  | .call _ => false

/-- No owner is left with what it has handed on. -/
def Exclusive (s : AllocationSite) (b : Body) : Prop :=
  ∀ t ∈ b.ownership.transfers, t.source ∈ s.owners → shares b t = false

theorem sharing_of_exclusive {s : AllocationSite} {b : Body} (h : s.Exclusive b) (x : Nat) (e : Execution)
    (a : Action) : s.sharing b x e a = false := by
  cases a with
  | call c => rfl
  | exec loc i =>
    refine List.any_eq_false.2 fun t ht => ?_
    by_cases hsource : t.source ∈ s.owners
    · simp [h t ht hsource]
    · simp [hsource]

/-! ## The calls of an allocation that give references up -/

section

variable {s : AllocationSite} {b : Body} {o : AnalysisOptions} {e : Execution}

theorem filter_isRelease_calls (s : AllocationSite) (f : BodyFacts) :
    (s.calls f).filter (·.call.isRelease) = if s.isReleased then s.releaseCalls f.ownership f.liveness else [] := by
  have hnone : ∀ {calls : List PlannedCall}, (∀ c ∈ calls, c.call.isRelease = false) →
      calls.filter (·.call.isRelease) = [] := fun h =>
    List.filter_eq_nil_iff.2 fun c hc => Bool.not_eq_true _ ▸ h c hc
  have hall : s.strategy ≠ .arena → ∀ c ∈ s.releaseCalls f.ownership f.liveness, c.call.isRelease = true := by
    intro harena c hc
    obtain ⟨-, l, -, d, -, -, rfl⟩ := mem_releaseCalls.1 hc
    exact isRelease_release harena
  rw [calls, List.filter_append, hnone fun _ => isRelease_of_mem_allocCalls, List.nil_append]
  by_cases hembedded : s.isEmbedded = true
  · simp [isReleased, hembedded]
  rw [Bool.not_eq_true] at hembedded
  by_cases htransfers : s.decision.transfers = true
  · simp [isReleased, hembedded, htransfers, hnone fun _ => isRelease_of_mem_handOverCalls]
  rw [Bool.not_eq_true] at htransfers
  by_cases harena : s.strategy = .arena
  · simp [isReleased, hembedded, htransfers, harena, releaseCalls, hnone fun _ => isRelease_of_mem_freezeCalls,
      hnone fun _ => isRelease_of_mem_acquireCalls]
  · simp [isReleased, hembedded, htransfers, harena, hnone fun _ => isRelease_of_mem_freezeCalls,
      hnone fun _ => isRelease_of_mem_acquireCalls, List.filter_eq_self.2 (hall harena)]

/-- The calls at a point that give an object up: one for each owner that dies there and refers to it. -/
theorem tally_releases (hb : b.Complete) (d : DeathPoint) (x : Nat) :
    e.tally (Action.passed EntryPoint.isRelease x) ((callsAt (s.calls (b.facts o)) d.point).map .call) =
      if s.isReleased then (s.owners.filter (releasesOn b d)).countP fun l => e.store.locals l == some x else 0 := by
  rw [Execution.tally_calls (Q := (·.call.isRelease)) x (fun _ _ => rfl), filter_callsAt, filter_isRelease_calls]
  split
  · next hreleased =>
    have harena : s.strategy ≠ .arena := by
      simpa using (Bool.and_eq_true_iff.1 hreleased).2
    show List.countP _ (callsAt (s.releaseCalls b.ownership (ofBody b)) d.point) = _
    rw [callsAt_releaseCalls hb harena, List.countP_map]
    rfl
  · rfl

/-- At a point where no owner can die nothing is given up. -/
theorem tally_releases_of_ne {point : ProgramPoint} (hne : ∀ d : DeathPoint, d.point ≠ point) (x : Nat) :
    e.tally (Action.passed EntryPoint.isRelease x) ((callsAt (s.calls (b.facts o)) point).map .call) = 0 := by
  rw [Execution.tally_calls (Q := (·.call.isRelease)) x (fun _ _ => rfl), filter_callsAt, filter_isRelease_calls]
  split
  · rw [show callsAt (s.releaseCalls (b.facts o).ownership (b.facts o).liveness) point = [] from
      Tracked.callsAt_release_of_ne point hne]
    rfl
  · rfl

end

/-! ## What is still to be given up -/

section

variable {s : AllocationSite} {b : Body} {steps : List Body.Step} {loc : Location} {i : Instruction} {l : LocalId}

/-- A local that keeps its reference past an instruction that does not assign it was live before. -/
theorem liveAt_of_keepsPast (hb : b.Complete) (hpath : b.Path steps loc) (hi : b.instruction? loc = some i)
    (hdef : l ∉ i.effects.defs) (hkeeps : keepsPast b loc l = true) : (ofBody b).liveAt l loc = true := by
  have hcontains : i.effects.defs.contains l = false := by
    simpa using hdef
  rw [keepsPast, releasesOn_after hb hpath hi, Effects.touches, hcontains] at hkeeps
  rw [Liveness.liveAt_exec hi, Effects.liveBefore, hcontains]
  cases huse : i.effects.uses.contains l <;> simp_all

/-- All that keep a reference past an instruction and are not assigned by it kept it before. -/
theorem kept_before (hb : b.Complete) (hpath : b.Path steps loc) (hi : b.instruction? loc = some i)
    (hdef : l ∉ i.effects.defs) {σ : Store} {x : Nat}
    (h : (keepsPast b loc l && (σ.exec loc i).locals l == some x) = true) :
    ((ofBody b).liveAt l loc && σ.locals l == some x) = true := by
  rw [Bool.and_eq_true] at h ⊢
  rw [Store.locals_exec_of_notMem hdef] at h
  exact ⟨liveAt_of_keepsPast hb hpath hi hdef h.1, h.2⟩

end

theorem countP_le_succ {α : Type} {ls : List α} (hls : ls.Nodup) (a : α) {p q : α → Bool}
    (h : ∀ l ∈ ls, l ≠ a → q l = true → p l = true) : ls.countP q ≤ ls.countP p + 1 := by
  induction ls with
  | nil => exact Nat.zero_le _
  | cons l ls ih =>
    obtain ⟨hl, hls⟩ := List.nodup_cons.1 hls
    rw [List.countP_cons, List.countP_cons]
    by_cases hla : l = a
    · subst hla
      have hrest : ls.countP q ≤ ls.countP p :=
        List.countP_mono_left fun l' hl' => h l' (List.mem_cons_of_mem l hl') fun heq => hl (heq ▸ hl')
      split <;> omega
    · have hhead := h l List.mem_cons_self hla
      have hrest := ih hls fun l' hl' => h l' (List.mem_cons_of_mem l hl')
      split
      · next hq => rw [if_pos (hhead hq)]; omega
      · omega

section

variable {p : Plan} {g : TypeGraph} {b : Body} {o : AnalysisOptions} {s : AllocationSite}
  {steps : List Body.Step} {loc : Location} {i : Instruction} {e : Execution}

/-- An owner is assigned by a statement that makes the object, or that hands it on from another owner. -/
theorem statement_cases (hp : p.Of g b o) (hs : s ∈ p.sites) (hassigned : ∀ l ∈ s.owners, b.StatedAtMostOnce l)
    {st : Statement} (hst : b.instruction? loc = some (.statement st)) {l : LocalId} (hl : l ∈ s.owners)
    (hdef : l ∈ st.effects.defs) : loc = s.loc ∧ s.place = .ofLocal l ∨
      ∃ t ∈ b.ownership.transfers, t.source ∈ s.owners ∧ t.dest = l ∧ t.loc = loc := by
  obtain ⟨root, hroot, hreach⟩ := Ownership.mem_ownersOf.1 (hp.owners_eq hs ▸ hl)
  have hplace := Place.eq_ofLocal hroot
  rcases Relation.ReflTransGen.cases_tail hreach with rfl | ⟨l', hl', t, ht, rfl, rfl⟩
  · obtain ⟨_, _, _, _, halloc⟩ := hp.alloc hs
    refine .inl ⟨hassigned _ hl _ _ _ _ hst halloc hdef ?_, hplace⟩
    simp [Statement.effects, Effects.write, hroot]
  · obtain ⟨st', hst', his⟩ := Body.mem_transfers.1 ht
    refine .inr ⟨t, ht, ?_, rfl, hassigned _ hl _ _ _ _ hst' hst (by simp [his.effects]) hdef⟩
    rw [hp.owners_eq hs]
    exact Ownership.mem_ownersOf.2 ⟨root, hroot, hl'⟩

/-- What comes to refer to an object that was there before is the destination of a transfer from an owner
that referred to it. -/
theorem transfer_of_assigned (hp : p.Of g b o) (hs : s ∈ p.sites)
    (hassigned : ∀ l ∈ s.owners, b.StatedAtMostOnce l) (hi : b.instruction? loc = some i) {σ : Store} {x : Nat}
    (hx : x < σ.size) {l : LocalId} (hl : l ∈ s.owners) (hdef : l ∈ i.effects.defs)
    (hlocal : (σ.exec loc i).locals l = some x) : ∃ t ∈ b.ownership.transfers, t.source ∈ s.owners ∧
      t.dest = l ∧ t.loc = loc ∧ σ.locals t.source = some x := by
  cases i with
  | terminator t =>
    cases t with
    | call callee args dest target =>
      change (σ.write dest none).locals l = _ at hlocal
      rw [Store.write_of_local? (Effects.local?_of_mem_defs hdef), Store.locals_setLocal] at hlocal
      exact absurd hlocal (by simp)
    | goto | switch | ret | unreachable => exact absurd hdef (by simp [Instruction.effects, Terminator.effects])
  | statement st =>
    rcases statement_cases hp hs hassigned hi hl hdef with ⟨rfl, hplace⟩ | ⟨t, ht, hsource, rfl, rfl⟩
    · -- the object that is made is a new one
      obtain ⟨_, _, _, _, halloc⟩ := hp.alloc hs
      rw [hi, Option.some.injEq] at halloc
      rw [halloc, hplace] at hlocal
      have hnew : some σ.size = some x := by
        simpa [Store.exec, Store.eval, Store.write, Place.ofLocal, Store.setLocal] using hlocal
      exact absurd (Option.some.inj hnew) (Nat.ne_of_gt hx)
    · obtain ⟨st', hst', his⟩ := Body.mem_transfers.1 ht
      obtain rfl := Instruction.statement.inj (Option.some.inj (hi.symm.trans hst'))
      rw [his.exec, Store.locals_setLocal] at hlocal
      exact ⟨t, ht, hsource, rfl, rfl, hlocal⟩

/-- An instruction adds no owner to an object that was there before, unless it leaves one with what it hands
to another. -/
theorem custody_exec_le (hp : p.Of g b o) (hs : s ∈ p.sites) (hassigned : ∀ l ∈ s.owners, b.StatedAtMostOnce l)
    (hpath : b.Path steps loc) (hi : b.instruction? loc = some i) {x : Nat} (hx : x < e.store.size) :
    s.custody (e.store.exec loc i) (keepsPast b loc) x ≤
      s.custody e.store ((ofBody b).liveAt · loc) x + (s.sharing b x e (.exec loc i)).toNat := by
  have hnodup : s.owners.Nodup := hp.owners_eq hs ▸ b.ownership.nodup_ownersOf _
  have hkept := fun {l : LocalId} (hdef : l ∉ i.effects.defs) =>
    kept_before hp.complete hpath hi hdef (σ := e.store) (x := x)
  by_cases hgain : ∃ l ∈ s.owners, l ∈ i.effects.defs ∧ (e.store.exec loc i).locals l = some x
  · obtain ⟨l, hl, hdef, hlocal⟩ := hgain
    obtain ⟨t, ht, hsource, rfl, rfl, hgiven⟩ := transfer_of_assigned hp hs hassigned hi hx hl hdef hlocal
    obtain ⟨st, hst, his⟩ := Body.mem_transfers.1 ht
    obtain rfl := Option.some.inj (hi.symm.trans hst)
    have hother : ∀ {l : LocalId}, l ≠ t.dest → l ∉ (Instruction.statement st).effects.defs := by
      intro l hne
      simpa [Instruction.effects, his.effects] using hne
    by_cases hshares : shares b t = true
    · have hsharing : s.sharing b x e (.exec t.loc (.statement st)) = true :=
        List.any_eq_true.2 ⟨t, ht, by simp [hsource, hshares, hgiven]⟩
      rw [hsharing]
      exact countP_le_succ hnodup t.dest fun l _ hne => hkept (hother hne)
    · -- the source is no longer live, so the destination takes its place
      rw [shares, Bool.or_eq_true, not_or, Bool.not_eq_true, Bool.not_eq_true, Bool.not_eq_false'] at hshares
      have hlive : (ofBody b).liveAt t.source t.loc = true := by
        rw [Liveness.liveAt_exec hst]
        simp [Instruction.effects, his.effects, Effects.liveBefore]
      have hgone : keepsPast b t.loc t.source = false := by
        have hmoved : b.ownership.isMovedAt t.source t.loc = true := isMovedAt_iff.2 ⟨t, ht, hshares.1, rfl, rfl⟩
        rw [keepsPast, releasesOn_after hp.complete hpath hst, hmoved, hshares.2]
        simp
      let others : LocalId → Bool := fun l => (l != t.dest) &&
        (keepsPast b t.loc l && (e.store.exec t.loc (.statement st)).locals l == some x)
      have hfew : s.owners.countP others < s.custody e.store ((ofBody b).liveAt · t.loc) x := by
        refine countP_lt_of_mem (fun l hothers => ?_) hsource (by simp [hlive, hgiven]) (by simp [others, hgone])
        obtain ⟨hne, hl⟩ := Bool.and_eq_true_iff.1 hothers
        exact hkept (hother (bne_iff_ne.1 hne)) hl
      have hmost : s.custody (e.store.exec t.loc (.statement st)) (keepsPast b t.loc) x ≤
          s.owners.countP others + 1 :=
        countP_le_succ hnodup t.dest fun l _ hne hl => Bool.and_eq_true_iff.2 ⟨bne_iff_ne.2 hne, hl⟩
      omega
  · refine (List.countP_mono_left fun l hl hkeeps => ?_).trans (Nat.le_add_right ..)
    refine hkept (fun hdef => hgain ⟨l, hl, hdef, ?_⟩) hkeeps
    simpa using (Bool.and_eq_true_iff.1 hkeeps).2

/-- To an object that has just been made one owner refers at most. -/
theorem custody_made_le (hp : p.Of g b o) (hs : s ∈ p.sites) {σ : Store} (hσ : σ.Sound)
    (hi : b.instruction? s.loc = some i) (keeps : LocalId → Bool) {x : Nat} (hx : σ.size ≤ x) :
    s.custody (σ.exec s.loc i) keeps x ≤ 1 := by
  obtain ⟨_, _, _, _, halloc⟩ := hp.alloc hs
  obtain rfl := Option.some.inj (halloc.symm.trans hi)
  have hnodup : s.owners.Nodup := hp.owners_eq hs ▸ b.ownership.nodup_ownersOf _
  refine (countP_le_succ hnodup s.place.base (p := fun _ => false) fun l _ hne hkeeps => ?_).trans_eq (by simp)
  rw [Bool.and_eq_true, beq_iff_eq, Store.locals_exec_of_notMem fun hdef => hne ?_] at hkeeps
  · exact absurd (hσ.locals_lt l x hkeeps.2) (Nat.not_lt.2 hx)
  · rw [Place.eq_ofLocal (Effects.local?_of_mem_defs hdef)]
    rfl

/-- No owner refers to an object that has not been made. -/
theorem custody_of_size_le {σ : Store} (hσ : σ.Sound) {keeps : LocalId → Bool} {x : Nat} (hx : σ.size ≤ x) :
    s.custody σ keeps x = 0 := by
  refine List.countP_eq_zero.2 fun l _ hkeeps => ?_
  rw [Bool.and_eq_true, beq_iff_eq] at hkeeps
  exact Nat.not_lt.2 hx (hσ.locals_lt l x hkeeps.2)

end

/-- By some actions each object of the allocation has been given up as often as it may be, those owners that
keep a reference included, and at no point of them more often. -/
structure Backed (s : AllocationSite) (b : Body) (keeps : LocalId → Bool) (e : Execution) (actions : List Action) :
    Prop where
  sound : (e.performAll actions).store.Sound
  le : ∀ x, (e.performAll actions).store.origin x = some s.loc →
    e.tally (Action.passed EntryPoint.isRelease x) actions + s.custody (e.performAll actions).store keeps x ≤
      1 + e.tally (s.sharing b x) actions
  fresh : ∀ x, (e.performAll actions).store.size ≤ x → e.tally (Action.passed EntryPoint.isRelease x) actions = 0
  before : ∀ before, before <+: actions → ∀ x, (e.performAll before).store.origin x = some s.loc →
    e.tally (Action.passed EntryPoint.isRelease x) before ≤ 1 + e.tally (s.sharing b x) before

namespace Backed

variable {p : Plan} {g : TypeGraph} {b : Body} {o : AnalysisOptions} {s : AllocationSite}
  {steps : List Body.Step} {loc : Location} {i : Instruction} {e : Execution} {keeps later : LocalId → Bool}
  {actions : List Action}

theorem nil (s : AllocationSite) (b : Body) (keeps : LocalId → Bool) (he : e.store.Sound)
    (hnone : ∀ x, e.store.origin x = none) : s.Backed b keeps e [] where
  sound := he
  le x hx := absurd ((hnone x).symm.trans hx) (by simp)
  fresh _ _ := rfl
  before before hbefore x _ := by
    rw [List.prefix_nil.1 hbefore]
    exact Nat.zero_le _

/-- Calls by which no more is given up than owners cease to keep. -/
theorem calls (h : s.Backed b keeps e actions) (calls : List PlannedCall)
    (hgiven : ∀ x, (e.performAll actions).tally (Action.passed EntryPoint.isRelease x) (calls.map .call) +
      s.custody (e.performAll actions).store later x ≤ s.custody (e.performAll actions).store keeps x) :
    s.Backed b later e (actions ++ calls.map .call) := by
  have hsharing : ∀ (e' : Execution) (x : Nat) (made : List Action), made <+: calls.map Action.call →
      e'.tally (s.sharing b x) made = 0 := by
    intro e' x made hmade
    refine Execution.tally_eq_zero fun _ a ha => ?_
    obtain ⟨c, -, rfl⟩ := List.mem_map.1 (hmade.subset ha)
    rfl
  have hstore : (e.performAll (actions ++ calls.map .call)).store = (e.performAll actions).store := by
    rw [Execution.performAll_append, Execution.store_calls]
  refine ⟨hstore ▸ h.sound, fun x hx => ?_, fun x hx => ?_, fun before hbefore x hx => ?_⟩
  · rw [hstore] at hx ⊢
    rw [Execution.tally_append, Execution.tally_append, hsharing _ x _ (List.prefix_refl _)]
    have hle := h.le x hx
    have hmore := hgiven x
    omega
  · rw [hstore] at hx
    have hnone : s.custody (e.performAll actions).store keeps x = 0 := custody_of_size_le h.sound hx
    have hmore := hgiven x
    rw [Execution.tally_append, h.fresh x hx]
    omega
  · rcases List.prefix_or_prefix_of_prefix hbefore (List.prefix_append actions _) with h' | ⟨made, rfl⟩
    · exact h.before before h' x hx
    · -- some of the calls give up no more than all of them
      have hmade : made <+: calls.map .call := (List.prefix_append_right_inj actions).1 hbefore
      have hstore' : (e.performAll (actions ++ made)).store = (e.performAll actions).store := by
        rw [Execution.performAll_append, List.prefix_iff_eq_take.1 hmade, ← List.map_take, Execution.store_calls]
      rw [hstore'] at hx
      rw [Execution.tally_append, Execution.tally_append, hsharing _ x _ hmade]
      have hfew := Execution.tally_le_of_prefix (P := Action.passed EntryPoint.isRelease x)
        (e := e.performAll actions) hmade
      have hle := h.le x hx
      have hmore := hgiven x
      omega

/-- The calls at a point where owners die. -/
theorem release (hp : p.Of g b o) (h : s.Backed b keeps e actions) (d : DeathPoint)
    (later : LocalId → Bool) (hkeeps : ∀ l, keeps l = (later l || releasesOn b d l))
    (hdying : ∀ l, releasesOn b d l = true → later l = false) :
    s.Backed b later e (actions ++ (callsAt (s.calls (b.facts o)) d.point).map .call) := by
  refine h.calls _ fun x => ?_
  rw [tally_releases hp.complete, custody_split s _ (fun l _ => hkeeps l) fun l _ => hdying l]
  split <;> omega

/-- The calls at a point where no owner can die. -/
theorem pass (h : s.Backed b keeps e actions) (point : ProgramPoint)
    (hne : ∀ d : DeathPoint, d.point ≠ point) :
    s.Backed b keeps e (actions ++ (callsAt (s.calls (b.facts o)) point).map .call) := by
  refine h.calls _ fun x => ?_
  rw [tally_releases_of_ne hne, Nat.zero_add]

/-- An instruction. -/
theorem exec (hp : p.Of g b o) (hs : s ∈ p.sites) (hassigned : ∀ l ∈ s.owners, b.StatedAtMostOnce l)
    (hpath : b.Path steps loc) (hi : b.instruction? loc = some i)
    (h : s.Backed b ((ofBody b).liveAt · loc) e actions) :
    s.Backed b (keepsPast b loc) e (actions ++ [.exec loc i]) := by
  obtain ⟨hsound, hbacked, hfresh, hprefix⟩ := h
  set e' := e.performAll actions
  have hstore : (e.performAll (actions ++ [.exec loc i])).store = e'.store.exec loc i := by
    rw [Execution.performAll_append]
    rfl
  have hgiven : ∀ x, e.tally (Action.passed EntryPoint.isRelease x) (actions ++ [.exec loc i]) =
      e.tally (Action.passed EntryPoint.isRelease x) actions := fun x => Execution.tally_append
  have hsharing : ∀ x, e.tally (s.sharing b x) (actions ++ [.exec loc i]) =
      e.tally (s.sharing b x) actions + (s.sharing b x e' (.exec loc i)).toNat := fun x => Execution.tally_append
  have hle : ∀ x, (e'.store.exec loc i).origin x = some s.loc →
      e.tally (Action.passed EntryPoint.isRelease x) actions + s.custody (e'.store.exec loc i) (keepsPast b loc) x ≤
        1 + (e.tally (s.sharing b x) actions + (s.sharing b x e' (.exec loc i)).toNat) := by
    intro x hx
    by_cases hold : x < e'.store.size
    · have hcustody := custody_exec_le hp hs hassigned hpath hi hold
      have hbefore := hbacked x ((Store.origin_exec hold).symm.trans hx)
      omega
    · rw [Nat.not_lt] at hold
      rcases Store.origin_exec_cases hx with horigin | rfl
      · exact absurd (hsound.origin_lt x _ horigin) (Nat.not_lt.2 hold)
      · have hcustody := custody_made_le hp hs hsound hi (keepsPast b s.loc) hold
        rw [hfresh x hold]
        omega
  refine ⟨hstore ▸ hsound.exec loc i, fun x hx => ?_, fun x hx => ?_, fun before hbefore x hx => ?_⟩
  · rw [hstore] at hx ⊢
    rw [hgiven, hsharing]
    exact hle x hx
  · rw [hstore] at hx
    rw [hgiven]
    exact hfresh x ((Store.size_le_exec loc i).trans hx)
  · rcases List.prefix_concat_iff.1 hbefore with rfl | h'
    · rw [hstore] at hx
      rw [hgiven, hsharing]
      exact Nat.le_of_add_right_le (hle x hx)
    · exact hprefix before h' x hx

/-- The step of an instruction, with its calls. -/
theorem step_exec (hp : p.Of g b o) (hs : s ∈ p.sites) (hassigned : ∀ l ∈ s.owners, b.StatedAtMostOnce l)
    (hpath : b.Path steps loc) (hi : b.instruction? loc = some i)
    (h : s.Backed b ((ofBody b).liveAt · loc) e actions) :
    s.Backed b ((ofBody b).liveAt · loc.next) e
      (actions ++ Body.Step.actions (s.calls (b.facts o)) (.exec loc i)) := by
  have hbefore := h.pass (o := o) (.before loc) fun d => by
    cases d <;> simp [DeathPoint.point]
  have hexec := hbefore.exec hp hs hassigned hpath hi
  have hinstead := hexec.pass (o := o) (.instead loc) fun d => by
    cases d <;> simp [DeathPoint.point]
  have hafter := hinstead.release hp (.after loc) ((ofBody b).liveAt · loc.next) (fun l => rfl)
    fun l => releasesOn_live hp.complete hpath hi
  simpa [Body.Step.actions, Body.Step.callsBefore, Body.Step.restActions, DeathPoint.point] using hafter

/-- A jump, with its calls. -/
theorem step_jump (hp : p.Of g b o) (hpath : b.Path steps loc) {t : Terminator}
    (ht : b.instruction? loc = some (.terminator t)) {target : BlockId} (htarget : target ∈ t.successors)
    (h : s.Backed b ((ofBody b).liveAt · loc.next) e actions) : s.Backed b ((ofBody b).liveAt · ⟨target, 0⟩) e
      (actions ++ Body.Step.actions (s.calls (b.facts o)) (.jump loc.block target)) := by
  have hedge := h.release hp (.edge loc.block target) ((ofBody b).liveAt · ⟨target, 0⟩)
    (fun l => liveAt_of_jump hp.complete hpath ht htarget)
    fun l => releasesOn_edge_live hp.complete hpath ht htarget
  simpa [Body.Step.actions, Body.Step.callsBefore, Body.Step.restActions, DeathPoint.point] using hedge

/-- At every position of a path what has been given up is backed, with the live owners still to come. -/
theorem along (hp : p.Of g b o) (hs : s ∈ p.sites) (hassigned : ∀ l ∈ s.owners, b.StatedAtMostOnce l)
    {σ : Store} (hσ : σ.Initial) (hpath : b.Path steps loc) :
    s.Backed b ((ofBody b).liveAt · loc) (.start σ) (actionsAlong (s.calls (b.facts o)) steps) := by
  induction hpath with
  | entry =>
    have hnil : s.Backed b ((ofBody b).liveAt · ⟨entryBlock, 0⟩) (.start σ) [] :=
      .nil s b _ hσ.toSound hσ.origin_none
    have hentry := hnil.pass (o := o) .entry fun d => by cases d <;> simp [DeathPoint.point]
    simpa [actionsAlong] using hentry
  | @next steps loc st hpath hst ih =>
    rw [actionsAlong_append, List.flatMap_singleton]
    exact ih.step_exec hp hs hassigned hpath hst
  | @jump steps loc t target hpath ht htarget ih =>
    have hexec := ih.step_exec hp hs hassigned hpath ht
    have hjump := hexec.step_jump hp hpath ht htarget
    simpa [actionsAlong_append] using hjump

end Backed

end AllocationSite

namespace AllocationSite

variable {s : AllocationSite} {b : Body} {o : AnalysisOptions} {x : Nat}

/-- What is given up by the step of an instruction: what the owners that die after it refer to. -/
theorem tally_actionsAlong_exec (hb : b.Complete) (hreleased : s.isReleased = true) (σ : Store)
    (steps : List Body.Step) (loc : Location) (i : Instruction) :
    (Execution.start σ).tally (Action.passed EntryPoint.isRelease x)
        (actionsAlong (s.calls (b.facts o)) (steps ++ [.exec loc i])) =
      (Execution.start σ).tally (Action.passed EntryPoint.isRelease x) (actionsAlong (s.calls (b.facts o)) steps) +
        (s.owners.filter (releasesOn b (.after loc))).countP fun l =>
          (σ.after (steps ++ [.exec loc i])).locals l == some x := by
  set e := (Execution.start σ).performAll (actionsAlong (s.calls (b.facts o)) steps) with he
  have hbefore : e.tally (Action.passed EntryPoint.isRelease x)
      ((callsAt (s.calls (b.facts o)) (.before loc)).map .call) = 0 :=
    tally_releases_of_ne (fun d => by cases d <;> simp [DeathPoint.point]) x
  set e' := (e.performAll ((callsAt (s.calls (b.facts o)) (.before loc)).map .call)).perform (.exec loc i) with he'
  have hinstead : e'.tally (Action.passed EntryPoint.isRelease x)
      ((callsAt (s.calls (b.facts o)) (.instead loc)).map .call) = 0 :=
    tally_releases_of_ne (fun d => by cases d <;> simp [DeathPoint.point]) x
  have hstore : (e'.performAll ((callsAt (s.calls (b.facts o)) (.instead loc)).map .call)).store =
      σ.after (steps ++ [.exec loc i]) := by
    rw [Execution.store_calls, Store.after_exec, he']
    show (e.performAll _).store.exec loc i = _
    rw [Execution.store_calls, he, Execution.store_performAll]
    rfl
  have hafter := tally_releases (e := e'.performAll ((callsAt (s.calls (b.facts o)) (.instead loc)).map .call))
    (o := o) (s := s) hb (.after loc) x
  rw [if_pos hreleased, hstore] at hafter
  rw [actionsAlong_append, Execution.tally_append, List.flatMap_singleton, Body.Step.actions,
    Execution.tally_append, ← he, Body.Step.callsBefore, hbefore, Body.Step.restActions, Execution.tally,
    List.map_append, Execution.tally_append, ← he', hinstead, ← hafter]
  simp [Action.passed, DeathPoint.point]

/-- Under the strategy that freezes no reference is taken. -/
theorem isAcquire_of_mem_calls {f : BodyFacts} (hscc : s.strategy = .scc) {c : PlannedCall} (hc : c ∈ s.calls f) :
    c.call.isAcquire = false := by
  cases callOf_of_mem hc with
  | make =>
    show s.allocator.isAcquire = false
    rw [allocator, hscc]
    split <;> rfl
  | handle | freeze => rfl
  | handOver _ _ hsym => exact absurd (hscc.symm.trans hsym) (by simp)
  | acquire _ _ hcounts => exact absurd (hscc ▸ hcounts) (by simp [Strategy.acquire?])
  | release =>
    rw [hscc]
    rfl

theorem tally_isAcquire {f : BodyFacts} (hscc : s.strategy = .scc) (e : Execution) (steps : List Body.Step) :
    e.tally (Action.passed EntryPoint.isAcquire x) (actionsAlong (s.calls f) steps) = 0 := by
  refine Execution.tally_eq_zero fun e a ha => ?_
  cases a with
  | exec loc i => rfl
  | call c =>
    have hc := isAcquire_of_mem_calls hscc (mem_of_call_mem_actionsAlong ha)
    simp [Action.passed, hc]

end AllocationSite

/-- Along every path no more references to an object are given up for its allocation than the one that came
with it and those that owners were left with when it was handed on. So no more are given up than are taken
if no owner is left with what it has handed on. -/
theorem TypeGraph.releases_backed {g : TypeGraph} {b : Body} {o : AnalysisOptions} {p : Plan}
    (hp : g.plan b o = .ok p) {s : AllocationSite} (hs : s ∈ p.sites)
    (hassigned : ∀ l ∈ s.owners, b.StatedAtMostOnce l) {σ : Store} (hσ : σ.Initial) {steps : List Body.Step}
    {loc : Location} {i : Instruction} (hpath : b.Path steps loc) (hi : b.instruction? loc = some i)
    {before : List Action}
    (hbefore : before <+: actionsAlong (s.calls (b.facts o)) (steps ++ [.exec loc i])) :
    s.calls (b.facts o) <:+: p.calls ∧
    let e := Execution.start σ
    ∀ x, (e.performAll before).store.origin x = some s.loc →
      e.tally (Action.passed EntryPoint.isRelease x) before ≤ 1 + e.tally (s.sharing b x) before ∧
      (s.Exclusive b → e.tally (Action.passed EntryPoint.isRelease x) before ≤
        1 + e.tally (Action.passed EntryPoint.isAcquire x) before) := by
  have hof := TypeGraph.plan_eq_ok hp
  have hbacked := (AllocationSite.Backed.along hof hs hassigned hσ hpath).step_exec hof hs hassigned hpath hi
  refine ⟨hof.calls_together hs, fun x hx => ?_⟩
  rw [actionsAlong_append, List.flatMap_singleton] at hbefore
  have hle := hbacked.before before hbefore x hx
  refine ⟨hle, fun hexclusive => hle.trans ?_⟩
  rw [Execution.tally_eq_zero fun e a _ => AllocationSite.sharing_of_exclusive hexclusive x e a]
  exact Nat.le_add_right ..

/-! ## An object that is handed on -/

/-- Two types whose references to each other are kept strong. -/
def bond : TypeGraph where
  nodes := #[{ name := "A", fields := #[.declare "b" (.type 1) (some .strong)] },
    { name := "B", fields := #[.declare "a" (.type 0) (some .strong)] }]

theorem bond_prepared : (bond.detectBackEdges {}).1 = bond := by
  rw [TypeGraph.detectBackEdges_of_annotated (by decide)]
  simp [TypeGraph.annotatedOnly, bond, Field.declare]

/-- The two types are a cycle that nothing breaks. -/
theorem bond_classify : bond.classify 0 = .ok { shape := .cyclic } := by
  have howns : bond.Owns 0 1 := TypeGraph.owns_of_mem_references
    (r := ⟨⟨0, 0⟩, .declare "b" (.type 1) (some .strong), 1⟩) (by decide) rfl (by decide)
  have hback : bond.Owns 1 0 := TypeGraph.owns_of_mem_references
    (r := ⟨⟨1, 0⟩, .declare "a" (.type 0) (some .strong), 0⟩) (by decide) rfl (by decide)
  exact TypeGraph.classify_eq_unbroken (by decide) (TypeGraph.not_meetsUnknown (by decide))
    ⟨0, .refl bond 0, 1, by decide, howns, hback⟩

/-- An object that does not change is handed to a second local, which is read. -/
def handing (isMove : Bool) : Body where
  name := "handing"
  locals := Array.replicate 3 { kind := .temp }
  paramCount := 0
  blocks := #[{
    statements := [.assign (.ofLocal 1) (.alloc 0 0 true []),
      .assign (.ofLocal 2) (.use (if isMove then .move (.ofLocal 1) else .copy (.ofLocal 1))),
      .assign (.ofLocal 0) (.binary .eq (.copy (.ofLocal 2)) (.const 0))]
    terminator := some .ret }]

theorem handing_transfers (isMove : Bool) : (handing isMove).ownership.transfers = [⟨⟨0, 1⟩, 1, 2, isMove⟩] := by
  cases isMove <;> rfl

theorem handing_constraints (isMove : Bool) : (handing isMove).escapeConstraints {} =
    [.atLeast 0 .global, .follows 1 2, .crossesWith 1 2] := by
  cases isMove <;> rfl

theorem handing_allocations (isMove : Bool) : (handing isMove).allocations = [⟨⟨0, 0⟩, .ofLocal 1, 0, 0, true⟩] := by
  cases isMove <;> rfl

theorem handing_plan (isMove : Bool) : ∃ p, bond.plan (handing isMove) {} = .ok p :=
  TypeGraph.exists_plan {} (by cases isMove <;> rfl) (by simp [handing_allocations, TypeGraph.size, bond])

section

variable {isMove : Bool} {p : Plan} {s : AllocationSite}

/-- The object is frozen, and both locals own it. -/
theorem handing_site (hp : p.Of bond (handing isMove) {}) (hs : s ∈ p.sites) :
    s.strategy = .scc ∧ s.decision.transfers = false ∧ s.isReleased = true ∧ s.loc = ⟨0, 0⟩ ∧
      ∀ l, l ∈ s.owners ↔ l = 1 ∨ l = 2 := by
  obtain ⟨a, ha, hplan⟩ := hp.site s hs
  rw [handing_allocations, List.mem_singleton] at ha
  subst ha
  have howners : ∀ l, l ∈ s.owners ↔ l = 1 ∨ l = 2 := by
    intro l
    rw [hplan.owners]
    constructor
    · intro hl
      refine Ownership.of_mem_ownersOf (P := fun l => l = 1 ∨ l = 2) hl (.inl rfl) fun t ht _ => ?_
      rw [show t = ⟨⟨0, 1⟩, 1, 2, isMove⟩ from List.mem_singleton.1 (handing_transfers isMove ▸ ht)]
      exact .inr rfl
    · rintro (rfl | rfl)
      · exact Ownership.mem_ownersOf.2 ⟨1, rfl, .refl⟩
      · have ht : ⟨⟨0, 1⟩, 1, 2, isMove⟩ ∈ (handing isMove).ownership.transfers := by
          rw [handing_transfers]
          exact List.mem_singleton_self _
        exact Ownership.mem_ownersOf.2 ⟨1, rfl, .single ⟨_, ht, rfl, rfl⟩⟩
  have hne : s.owners ≠ [] := List.ne_nil_of_mem ((howners 1).2 (.inl rfl))
  have hescape : ∀ l ∈ s.owners, l ∉ ((handing isMove).escape {}).global ∧ l ∉ ((handing isMove).escape {}).arg := by
    intro l hl
    refine Body.notMem_escape (by simp [handing_constraints]) (by simp [handing_constraints]) ?_
    rcases (howners l).1 hl with rfl | rfl <;> decide
  have hclosures : (handing isMove).closures = [] := by cases isMove <;> rfl
  obtain ⟨hscc, hstays⟩ := AllocationSite.component_of_planned hplan bond_classify rfl hne hescape hclosures
  refine ⟨hscc, hstays, ?_, hplan.loc, howners⟩
  simp [AllocationSite.isReleased, AllocationSite.isEmbedded, hne, hstays, hscc]

theorem handing_stated (hp : p.Of bond (handing isMove) {}) (hs : s ∈ p.sites) :
    ∀ l ∈ s.owners, (handing isMove).StatedAtMostOnce l := by
  intro l hl loc loc' st st' hst hst' hdef hdef'
  have hone : ∀ l ∈ [1, 2], ∀ x ∈ (handing isMove).statements, ∀ y ∈ (handing isMove).statements,
      l ∈ x.2.effects.defs → l ∈ y.2.effects.defs → x.1 = y.1 := by
    cases isMove <;> decide
  refine hone l (List.mem_pair.2 ?_) _ (Body.mem_statements.2 hst) _ (Body.mem_statements.2 hst') hdef hdef'
  exact (handing_site hp hs).2.2.2.2 l |>.1 hl

/-- The instructions before the return. -/
def handingSteps (isMove : Bool) : List Body.Step :=
  [.exec ⟨0, 0⟩ (.statement (.assign (.ofLocal 1) (.alloc 0 0 true []))),
    .exec ⟨0, 1⟩ (.statement (.assign (.ofLocal 2)
      (.use (if isMove then .move (.ofLocal 1) else .copy (.ofLocal 1))))),
    .exec ⟨0, 2⟩ (.statement (.assign (.ofLocal 0) (.binary .eq (.copy (.ofLocal 2)) (.const 0))))]

theorem handing_path (isMove : Bool) : (handing isMove).Path (handingSteps isMove) ⟨0, 3⟩ :=
  ((Body.Path.entry.next rfl).next rfl).next rfl

/-- The first local is read last where it is handed on, the second where it is read. -/
theorem handing_live (isMove : Bool) : (ofBody (handing isMove)).liveAt 1 ⟨0, 2⟩ = false ∧
    (ofBody (handing isMove)).liveAt 2 ⟨0, 3⟩ = false := by
  have hread : (handing isMove).instruction? ⟨0, 2⟩ =
    some (.statement (.assign (.ofLocal 0) (.binary .eq (.copy (.ofLocal 2)) (.const 0)))) := rfl
  have hret : (handing isMove).instruction? ⟨0, 3⟩ = some (.terminator .ret) := rfl
  have hend : ∀ l ≠ 0, (ofBody (handing isMove)).liveAt l ⟨0, 3⟩ = false := by
    intro l hl
    rw [Liveness.liveAt_exec hret, Liveness.liveAt_ret hret]
    show Effects.liveBefore { uses := [0] } l false = false
    simp [Effects.liveBefore, hl]
  refine ⟨?_, hend 2 (by decide)⟩
  rw [Liveness.liveAt_exec hread, show (⟨0, 2⟩ : Location).next = ⟨0, 3⟩ from rfl, hend 1 (by decide)]
  rfl

/-- The first local gives the object up where it is handed on, unless it is moved, and the second where it is
read. -/
theorem handing_dies (hb : (handing isMove).Complete) :
    AllocationSite.releasesOn (handing isMove) (.after ⟨0, 1⟩) 1 = !isMove ∧
      AllocationSite.releasesOn (handing isMove) (.after ⟨0, 2⟩) 2 = true := by
  obtain ⟨hfirst, hsecond⟩ := handing_live isMove
  have hpath : (handing isMove).Path _ ⟨0, 1⟩ := Body.Path.entry.next rfl
  have hpath' : (handing isMove).Path _ ⟨0, 2⟩ := hpath.next rfl
  rw [AllocationSite.releasesOn_after hb hpath rfl, AllocationSite.releasesOn_after hb hpath' rfl,
    Ownership.isMovedAt, Ownership.isMovedAt, handing_transfers, show (⟨0, 1⟩ : Location).next = ⟨0, 2⟩ from rfl,
    show (⟨0, 2⟩ : Location).next = ⟨0, 3⟩ from rfl, hfirst, hsecond]
  cases isMove <;> exact ⟨rfl, rfl⟩

theorem handing_given (hp : p.Of bond (handing isMove) {}) (hs : s ∈ p.sites) :
    (!isMove).toNat + 1 ≤ (Execution.start .bare).tally (Action.passed EntryPoint.isRelease 0)
      (actionsAlong (s.calls ((handing isMove).facts {})) (handingSteps isMove)) := by
  obtain ⟨-, -, hreleased, -, howners⟩ := handing_site hp hs
  obtain ⟨hfirst, hsecond⟩ := handing_dies hp.complete
  have hhanded := AllocationSite.tally_actionsAlong_exec (o := {}) (x := 0) hp.complete hreleased .bare
    ((handingSteps isMove).take 1) ⟨0, 1⟩ (.statement (.assign (.ofLocal 2)
      (.use (if isMove then .move (.ofLocal 1) else .copy (.ofLocal 1)))))
  have hread := AllocationSite.tally_actionsAlong_exec (o := {}) (x := 0) hp.complete hreleased .bare
    ((handingSteps isMove).take 2) ⟨0, 2⟩
    (.statement (.assign (.ofLocal 0) (.binary .eq (.copy (.ofLocal 2)) (.const 0))))
  have hcopied : (!isMove).toNat ≤ (s.owners.filter
      (AllocationSite.releasesOn (handing isMove) (.after ⟨0, 1⟩))).countP
        fun l => (Store.bare.after ((handingSteps isMove).take 2)).locals l == some 0 := by
    cases isMove with
    | true => exact Nat.zero_le _
    | false => exact List.countP_pos_iff.2 ⟨1, List.mem_filter.2 ⟨(howners 1).2 (.inl rfl), hfirst⟩, rfl⟩
  have hlast : 1 ≤ (s.owners.filter (AllocationSite.releasesOn (handing isMove) (.after ⟨0, 2⟩))).countP
      fun l => (Store.bare.after (handingSteps isMove)).locals l == some 0 := by
    have hrefers : (Store.bare.after (handingSteps isMove)).locals 2 = some 0 := by cases isMove <;> rfl
    exact List.countP_pos_iff.2 ⟨2, List.mem_filter.2 ⟨(howners 2).2 (.inr rfl), hsecond⟩, by simp [hrefers]⟩
  simp only [handingSteps, List.take, List.cons_append, List.nil_append] at hread hhanded hcopied hlast ⊢
  omega

theorem handing_origin (hp : p.Of bond (handing isMove) {}) (hs : s ∈ p.sites) (calls : List PlannedCall) :
    ((Execution.start .bare).performAll (actionsAlong calls (handingSteps isMove))).store.origin 0 = some s.loc := by
  rw [Execution.store_performAll, (handing_site hp hs).2.2.2.1]
  cases isMove <;> rfl

end

/-- An object that is moved on is given up once, for the reference that came with it. -/
theorem TypeGraph.releases_backed_moved : ∃ p s, bond.plan (handing true) {} = .ok p ∧ s ∈ p.sites ∧
    (∀ l ∈ s.owners, (handing true).StatedAtMostOnce l) ∧ s.Exclusive (handing true) ∧ Store.bare.Initial ∧
    (handing true).Path (handingSteps true) ⟨0, 3⟩ ∧
    let e := Execution.start .bare
    let actions := actionsAlong (s.calls ((handing true).facts {})) (handingSteps true)
    (e.performAll actions).store.origin 0 = some s.loc ∧
      1 ≤ e.tally (Action.passed EntryPoint.isRelease 0) actions ∧
      e.tally (Action.passed EntryPoint.isRelease 0) actions ≤
        1 + e.tally (Action.passed EntryPoint.isAcquire 0) actions := by
  obtain ⟨p, hp⟩ := handing_plan true
  have hof := TypeGraph.plan_eq_ok hp
  obtain ⟨s, hs, -⟩ := hof.planned ⟨⟨0, 0⟩, .ofLocal 1, 0, 0, true⟩ (by simp [handing_allocations])
  have hexclusive : s.Exclusive (handing true) := by
    intro t ht _
    rw [handing_transfers, List.mem_singleton] at ht
    subst ht
    show (false || (ofBody (handing true)).liveAt 1 ⟨0, 2⟩) = false
    rw [(handing_live true).1]
    rfl
  have horigin := handing_origin hof hs (s.calls ((handing true).facts {}))
  have hbefore : actionsAlong (s.calls ((handing true).facts {})) (handingSteps true) <+:
      actionsAlong (s.calls ((handing true).facts {})) (handingSteps true ++ [.exec ⟨0, 3⟩ (.terminator .ret)]) := by
    rw [actionsAlong_append]
    exact List.prefix_append ..
  have h := TypeGraph.releases_backed hp hs (handing_stated hof hs) Store.initial_bare (handing_path true) rfl hbefore
  exact ⟨p, s, hp, hs, handing_stated hof hs, hexclusive, Store.initial_bare, handing_path true, horigin,
    handing_given hof hs, (h.2 0 horigin).2 hexclusive⟩

/-- An object that is copied is given up by both of its owners, for the one reference that came with it. -/
theorem TypeGraph.released_beyond_taken : ∃ p s, (bond.detectBackEdges {}).1 = bond ∧
    bond.plan (handing false) {} = .ok p ∧ s ∈ p.sites ∧ s.strategy = .scc ∧ s.decision.transfers = false ∧
    (∀ l ∈ s.owners, (handing false).StatedAtMostOnce l) ∧ Store.bare.Initial ∧
    (handing false).Path (handingSteps false) ⟨0, 3⟩ ∧
    let e := Execution.start .bare
    let actions := actionsAlong (s.calls ((handing false).facts {})) (handingSteps false)
    (e.performAll actions).store.origin 0 = some s.loc ∧
      1 + e.tally (Action.passed EntryPoint.isAcquire 0) actions <
        e.tally (Action.passed EntryPoint.isRelease 0) actions := by
  obtain ⟨p, hp⟩ := handing_plan false
  have hof := TypeGraph.plan_eq_ok hp
  obtain ⟨s, hs, -⟩ := hof.planned ⟨⟨0, 0⟩, .ofLocal 1, 0, 0, true⟩ (by simp [handing_allocations])
  obtain ⟨hscc, hstays, -⟩ := handing_site hof hs
  refine ⟨p, s, bond_prepared, hp, hs, hscc, hstays, handing_stated hof hs, Store.initial_bare,
    handing_path false, handing_origin hof hs _, ?_⟩
  rw [AllocationSite.tally_isAcquire hscc]
  exact handing_given hof hs

end Reclamation
