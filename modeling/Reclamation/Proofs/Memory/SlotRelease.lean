import Mathlib
import Reclamation.Host.Call
import Reclamation.Proofs.Memory.Refusals
import Reclamation.Proofs.Memory.ScopedRuns

/-!
# Freeing an object of the slot pool

A request to free an object of the pool takes out a plain object, whatever its count and whoever refers to it. An
object that is counted together with others, or whose references from fields are counted apart, only loses one
reference (`Memory.Yields`). Both are answered alike, so the answer does not tell whether the object is gone.

What does tell is the slot. In a release the slot of an object stays in its generation as long as the object is
there, and moves on to the next one, out of use, when the object is taken out (`Memory.Lodged`). Memory does not have
to be consistent for that: the program may have freed objects that others still refer to. So a handle that was good
before the request is good after it exactly if the object is still there, and a second request is refused exactly if
it is not (`Memory.handles_after_free`).
-/

set_option autoImplicit false

namespace Reclamation

namespace Memory

variable {m m' : Memory} {r x : Ref} {o : Object} {generation : Nat}

/-! ## The slot of an object in a release -/

/-- An object lies in a slot that is in use in the given generation, or it is gone and the slot has moved on. -/
inductive Lodged (m : Memory) (r : Ref) (generation : Nat) : Prop
  | there : (m.object? r).map (·.origin) = some .slot → m.pool.slot? r = some ⟨generation, true⟩ →
      Lodged m r generation
  | gone : m.object? r = none → m.pool.slot? r = some ⟨generation + 1, false⟩ → Lodged m r generation

theorem slot?_remove_of_ne (hne : r ≠ x) : (m.remove x).pool.slot? r = m.pool.slot? r := by
  cases hx : m.object? x with
  | none => rw [Memory.remove, hx]
  | some ox =>
    rw [pool_remove hx]
    split
    · rw [SlotPool.slot?_giveBack, if_neg fun e => hne e.1]
    · rfl

namespace Lodged

theorem remove (h : m.Lodged r generation) (x : Ref) : (m.remove x).Lodged r generation := by
  have horigin := origin_remove m x r
  by_cases hx : r = x
  · subst hx
    rw [if_pos rfl, Option.map_eq_none_iff] at horigin
    refine .gone horigin ?_
    cases h with
    | there ho hslot =>
      -- the slot goes back to the pool, which only takes back slots in use
      obtain ⟨o, ho, horig⟩ := Option.map_eq_some_iff.1 ho
      have huse : m.pool.isInUse r = true := by rw [SlotPool.isInUse, hslot]; rfl
      rw [pool_remove ho, if_pos horig, SlotPool.slot?_giveBack, if_pos ⟨rfl, huse⟩, hslot]
      rfl
    | gone hnone hslot => rwa [remove_of_not_isLive (by rw [isLive, hnone]; rfl)]
  · rw [if_neg hx] at horigin
    have hpool := slot?_remove_of_ne (m := m) hx
    cases h with
    | there ho hslot => exact .there (horigin.trans ho) (hpool.trans hslot)
    | gone hnone hslot =>
      rw [hnone, Option.map_none, Option.map_eq_none_iff] at horigin
      exact .gone horigin (hpool.trans hslot)

theorem of_recounted (h : m.Lodged r generation) (hm : Recounted m m') : m'.Lodged r generation := by
  have horigin := hm.origin r
  cases h with
  | there ho hslot => exact .there (horigin.trans ho) (hm.pool.symm ▸ hslot)
  | gone hnone hslot =>
    rw [hnone, Option.map_none, Option.map_eq_none_iff] at horigin
    exact .gone horigin (hm.pool.symm ▸ hslot)

theorem of_counted (h : m.Lodged r generation) (components : ComponentRegistry) (stats : Statistics) :
    ({ m with components, stats } : Memory).Lodged r generation := by
  cases h with
  | there ho hslot => exact .there ho hslot
  | gone hnone hslot => exact .gone hnone hslot

theorem lasting (r : Ref) (generation : Nat) : Lasting (·.Lodged r generation) where
  remove x h := h.remove x
  recount hm h := h.of_recounted hm
  count components stats h := h.of_counted components stats

end Lodged

/-! ## Objects that are gone -/

theorem not_isLive_remove (h : m.isLive r = false) (x : Ref) : (m.remove x).isLive r = false := by
  have hnone : m.object? r = none := by simpa [isLive] using h
  have horigin := origin_remove m x r
  rw [hnone, Option.map_none, ite_self, Option.map_eq_none_iff] at horigin
  rw [isLive, horigin]
  rfl

theorem not_isLive_remove_self (m : Memory) (r : Ref) : (m.remove r).isLive r = false := by
  have horigin := origin_remove m r r
  rw [if_pos rfl, Option.map_eq_none_iff] at horigin
  rw [isLive, horigin]
  rfl

/-- An object that is gone stays away. -/
theorem lasting_not_isLive (r : Ref) : Lasting fun m => m.isLive r = false where
  remove x h := not_isLive_remove h x
  recount hm h := (hm.isLive r).trans h
  count _ _ h := h

/-- What addresses and tags depend on besides slots. -/
theorem lasting_naming (machine : Machine) (secret : UInt64) :
    Lasting fun m => m.machine = machine ∧ m.secret = secret where
  remove x h := ⟨(Aside.remove _ x).machine.trans h.1, (Aside.remove _ x).secret.trans h.2⟩
  recount hm h := ⟨hm.aside.machine.trans h.1, hm.aside.secret.trans h.2⟩
  count _ _ h := h

theorem not_isLive_removeAll {group : List Ref} (hr : r ∈ group) (m : Memory) :
    (group.foldl Memory.remove m).isLive r = false := by
  induction group generalizing m with
  | nil => exact absurd hr List.not_mem_nil
  | cons x group ih =>
    rcases List.mem_cons.1 hr with rfl | hr
    · exact (lasting_not_isLive r).removeAll (not_isLive_remove_self m r) group
    · exact ih hr (m.remove x)

end Memory

namespace Release

open Memory

variable {s t : Release} {r : Ref}

theorem not_isLive_discard {group : List Ref} (h : s.discard group = some t) (hr : r ∈ group) :
    t.memory.isLive r = false := by
  rw [(recounted_discard h).isLive]
  exact not_isLive_removeAll hr s.memory

/-- Of what the next step takes out nothing is there at the end. -/
theorem not_isLive_of_mem_group (h : s.run = some t) (hs : ¬ s.Finished) (hr : r ∈ s.group) :
    t.memory.isLive r = false := by
  obtain ⟨hsteps, hfinished⟩ := steps_of_run h
  rcases hsteps.cases_head with rfl | ⟨u, hstep, hrest⟩
  · exact absurd hfinished hs
  · -- what the first step takes out stays away in the rest of the run
    refine (lasting_not_isLive r).steps hrest ?_
    cases hstep with
    | object hw hd =>
      rw [group, hw] at hr
      exact not_isLive_discard hd hr
    | component hw hlive hd =>
      rw [group, hw] at hr
      obtain ⟨v, hv, rfl⟩ := Option.map_eq_some_iff.1 hd
      have hgone : v.memory.isLive r = false := not_isLive_discard hv hr
      exact hgone
    | @ended id work hw hdead =>
      have hnone : s.memory.components.entry? id = none := by
        simpa [ComponentRegistry.isLive] using hdead
      rw [group, hw] at hr
      simp [ComponentRegistry.members?, hnone] at hr
    | orphans hw hc hd =>
      rw [group, hw, hc] at hr
      exact not_isLive_discard hd hr

theorem eq_of_run_of_finished (h : s.run = some t) (hs : s.Finished) : t = s :=
  Option.some.inj (h.symm.trans (run_of_finished hs))

/-- An object that refers to nothing is taken out alone. -/
theorem run_object {m : Memory} (hlive : m.isLive r = true) (htargets : m.strongTargets r = []) :
    ({ memory := m, work := [.object r] } : Release).run = some { memory := m.remove r, freed := 1 } := by
  have hstep : Step { memory := m, work := [.object r] } { memory := m.remove r, freed := 1 } :=
    .object rfl (by simp [discard, targetsOutside, removeAll?, hlive, htargets])
  rw [run_of_step hstep, run_of_finished ⟨rfl, rfl⟩]

/-- If one candidate is kept, so is all that it reaches. -/
theorem orphans_eq_nil {m : Memory} (hr : m.isUnowned r = true) (hkept : r ∉ m.orphans [r]) : m.orphans [r] = [] := by
  refine List.eq_nil_iff_forall_not_mem.2 fun x hx => ?_
  have hfound : r ∈ m.found [r] := mem_found_iff.2 ⟨r, List.mem_singleton_self r, hr, .refl r⟩
  obtain ⟨hxfound, hfree⟩ := mem_orphans_iff.1 hx
  obtain ⟨c, hc, -, hrx⟩ := mem_found_iff.1 hxfound
  rw [List.mem_singleton.1 hc] at hrx
  rw [mem_orphans_iff, not_and_not_right] at hkept
  obtain ⟨h, hh, hheld, hreach⟩ := hkept hfound
  exact hfree ⟨h, hh, hheld, hreach.trans hrx⟩

/-- A candidate alone is taken out if it is an orphan. -/
theorem not_isLive_candidate_iff (hw : s.work = []) (hc : s.candidates = [r]) (hr : s.memory.isUnowned r = true)
    (hrun : s.run = some t) : t.memory.isLive r = false ↔ r ∈ s.memory.orphans [r] := by
  constructor
  · intro hgone
    by_contra hkept
    -- then nothing is taken out at all, and the run is over
    have hnil := orphans_eq_nil hr hkept
    have hstep : Step s { s with candidates := [] } := .orphans hw hc (by rw [hnil]; rfl)
    obtain rfl := eq_of_run_of_finished ((run_of_step hstep).symm.trans hrun) ⟨hw, rfl⟩
    obtain ⟨o, ho, -⟩ := isUnowned_iff.1 hr
    exact absurd (isLive_of_object? ho) (by simp [hgone])
  · intro hr
    refine not_isLive_of_mem_group hrun (fun h => absurd (hc.symm.trans h.2) (by simp)) ?_
    rwa [group, hw, hc]

theorem lowered?_eq_some_zero_iff {shared : Bool} {count : UInt32} :
    lowered? shared count = some 0 ↔ count = 1 := by
  unfold lowered?
  by_cases hcount : count = 0
  · subst hcount
    cases shared <;> decide
  · simp [hcount, sub_eq_zero]

end Release

namespace Memory

variable {m : Memory} {r x : Ref} {o : Object} {s t : Release}

/-! ## What a request takes out -/

/-- An object that belongs to a component is on the list of its members. -/
def Enrolled (m : Memory) (r : Ref) : Prop :=
  ∀ o id, m.object? r = some o → o.component = some id →
    ∃ e, m.components.entry? id = some e ∧ r ∈ e.members

/-- A request to free the object takes it out: it is plain, or the last reference to its component is given up, or it
is symmetric, the program gives up its last reference and no field keeps it. -/
inductive Yields (m : Memory) (r : Ref) (o : Object) : Prop
  | plain : o.symmetric = false → o.component = none → Yields m r o
  | component {id : ComponentId} {e : ComponentEntry} : o.symmetric = false → o.component = some id →
      m.components.entry? id = some e → e.external ≤ 1 → Yields m r o
  | orphan : o.symmetric = true → o.count = 1 → r ∈ (m.update r ({ · with count := 0 })).orphans [r] → Yields m r o

/-- The release of a request to free an object that is not in an arena. -/
theorem freeTree_eq (ho : m.object? r = some o) (harena : o.arena? = none) :
    m.freeTree r = .ofRelease (·.freed) (((Operation.freeTree r).release? m).bind Release.run) := by
  have hplain : m.isPlain r = !(o.component.isSome || o.symmetric) := by
    cases hc : o.component <;> simp [isPlain, ho, hc]
  unfold freeTree
  rw [Operation.release?, hplain, ho]
  simp only [harena, Option.isSome_none, Bool.false_eq_true, ↓reduceIte]
  cases o.component.isSome || o.symmetric <;> rfl

theorem freed_plain (hplain : m.isPlain r = true) (hs : (Operation.freeTree r).release? m = some s)
    (hrun : s.run = some t) : t.memory.isLive r = false := by
  rw [Operation.release?, if_pos hplain] at hs
  obtain rfl := Option.some.inj hs
  exact Release.not_isLive_of_mem_group hrun (fun h => absurd h.1 (by simp)) (by simp [Release.group])

/-- Of a symmetric object one reference of the program is given up. -/
theorem release?_of_symmetric (ho : m.object? r = some o) (harena : o.arena? = none) (hsym : o.symmetric = true) :
    (Operation.freeTree r).release? m = (lowered? o.shared o.count).map fun count =>
      { memory := m.update r ({ · with count }), candidates := if count = 0 then [r] else [] } := by
  have hplain : ¬ m.isPlain r = true := by simp [isPlain, ho, hsym]
  rw [Operation.release?, if_neg hplain, Release.dropRef, ho]
  simp only [harena, hsym, Option.isSome_none, Bool.false_eq_true, ↓reduceIte]
  refine congrArg (Option.map · _) (funext fun count => ?_)
  split <;> rfl

theorem freed_symmetric_iff (ho : m.object? r = some o) (harena : o.arena? = none) (hsym : o.symmetric = true)
    (hs : (Operation.freeTree r).release? m = some s) (hrun : s.run = some t) :
    t.memory.isLive r = false ↔ o.count = 1 ∧ r ∈ (m.update r ({ · with count := 0 })).orphans [r] := by
  rw [release?_of_symmetric ho harena hsym] at hs
  obtain ⟨count, hlow, rfl⟩ := Option.map_eq_some_iff.1 hs
  have hlowered : (m.update r ({ · with count })).object? r = some { o with count } := by
    rw [object?_update, if_pos rfl, ho]
    rfl
  by_cases hzero : count = 0
  · subst hzero
    rw [if_pos rfl] at hrun
    rw [and_iff_right (Release.lowered?_eq_some_zero_iff.1 hlow)]
    have hunowned : (m.update r ({ · with count := 0 })).isUnowned r = true :=
      isUnowned_iff.2 ⟨_, hlowered, hsym, rfl⟩
    exact Release.not_isLive_candidate_iff
      (s := { memory := m.update r ({ · with count := 0 }), candidates := [r] }) rfl rfl hunowned hrun
  · rw [if_neg hzero] at hrun
    obtain rfl := Release.eq_of_run_of_finished hrun ⟨rfl, rfl⟩
    have hlive : (m.update r ({ · with count })).isLive r = true := isLive_of_object? hlowered
    refine iff_of_false (by simp [hlive]) ?_
    rintro ⟨hcount, -⟩
    exact hzero (Option.some.inj (hlow.symm.trans (Release.lowered?_eq_some_zero_iff.2 hcount)))

theorem freed_component_iff (ho : m.object? r = some o) (harena : o.arena? = none) (hsym : o.symmetric = false)
    {id : ComponentId} {e : ComponentEntry} (hid : o.component = some id) (he : m.components.entry? id = some e)
    (hr : r ∈ e.members) (hs : (Operation.freeTree r).release? m = some s) (hrun : s.run = some t) :
    t.memory.isLive r = false ↔ e.external ≤ 1 := by
  have hplain : ¬ m.isPlain r = true := by simp [isPlain, ho, hid]
  have hcounting : m.countingComponent? o = some id := by
    simp [countingComponent?, hid, ComponentRegistry.isLive, he]
  rw [Operation.release?, if_neg hplain, Release.dropRef, ho] at hs
  simp only [harena, hsym, Option.isSome_none, Bool.false_eq_true, ↓reduceIte, Release.dropCount, hcounting,
    Option.some.injEq] at hs
  have hentry : ComponentRegistry.entry? (m.components.lower id) id = some { e with external := e.external - 1 } := by
    rw [ComponentRegistry.entry?_lower, if_pos rfl, he]
    rfl
  have hexternal : (m.components.lower id).external? id = some 0 ↔ e.external ≤ 1 := by
    rw [ComponentRegistry.external?, hentry, Option.map_some, Option.some.injEq, Nat.sub_eq_zero_iff_le]
  rw [← hexternal]
  subst hs
  unfold Release.lowerComponent at hrun
  dsimp only at hrun
  by_cases hlast : (m.components.lower id).external? id = some 0
  · rw [if_pos hlast] at hrun
    refine iff_of_true (Release.not_isLive_of_mem_group hrun (fun h => absurd h.1 (by simp)) ?_) hlast
    rw [Release.group]
    dsimp only
    rwa [ComponentRegistry.members?, hentry]
  · rw [if_neg hlast] at hrun
    obtain rfl := Release.eq_of_run_of_finished hrun ⟨rfl, rfl⟩
    have hlive : m.isLive r = true := isLive_of_object? ho
    exact iff_of_false (fun hgone => absurd (hlive.symm.trans hgone) (by decide)) hlast

/-- What a request takes out, if the members of components are listed. -/
theorem freed_iff (ho : m.object? r = some o) (harena : o.arena? = none) (henrolled : m.Enrolled r)
    (hs : (Operation.freeTree r).release? m = some s) (hrun : s.run = some t) :
    t.memory.isLive r = false ↔ m.Yields r o := by
  cases hsym : o.symmetric with
  | true =>
    rw [freed_symmetric_iff ho harena hsym hs hrun]
    constructor
    · rintro ⟨hcount, hr⟩
      exact .orphan hsym hcount hr
    · intro h
      cases h with
      | plain hno | component hno => exact absurd (hsym.symm.trans hno) (by decide)
      | orphan _ hcount hr => exact ⟨hcount, hr⟩
  | false =>
    cases hid : o.component with
    | none =>
      exact iff_of_true (freed_plain (isPlain_iff.2 ⟨o, ho, hsym, hid⟩) hs hrun) (.plain hsym hid)
    | some id =>
      obtain ⟨e, he, hr⟩ := henrolled o id ho hid
      rw [freed_component_iff ho harena hsym hid he hr hs hrun]
      constructor
      · exact .component hsym hid he
      · intro h
        cases h with
        | plain _ hno => exact absurd (hid.symm.trans hno) (by simp)
        | component _ hid' he' hlast =>
          obtain rfl := Option.some.inj (hid.symm.trans hid')
          obtain rfl := Option.some.inj (he.symm.trans he')
          exact hlast
        | orphan hyes => exact absurd (hsym.symm.trans hyes) (by decide)

/-! ## Handles after a request -/

/-- A handle names the cell at its address. -/
theorem address_of_deref? {h : Handle} (hderef : m.deref? h = some r) : h.address = m.machine.address r := by
  rw [deref?, SlotPool.deref?, Option.filter_eq_some_iff] at hderef
  exact m.machine.cell?_eq_some.1 hderef.1

theorem address_of_handle {h : Handle} (hh : m.handle r = .ok h) : h.address = m.machine.address r :=
  address_of_deref? (SlotPool.deref?_handle hh)

/-- A handle is good if its tag is that of the slot. -/
theorem accepts_eq {p : SlotPool} {secret : UInt64} {h : Handle} (haddress : h.address = p.machine.address r) :
    p.accepts secret h = (p.slot? r).any fun slot =>
      slot.inUse && handleTag (p.machine.address r) slot.generation secret == h.tag := by
  rw [SlotPool.accepts, SlotPool.deref?, haddress, Machine.cell?_address, Option.isSome_filter, Option.any_some]

/-- A request for an object in a slot that is in use runs a release to its end. -/
theorem freeSlot_eq {slot : Slot} (ho : m.object? r = some o) (hslot : o.origin = .slot)
    (hx : m.pool.slot? r = some slot) : m.freeSlot r =
      if slot.inUse then (((Operation.freeTree r).release? m).bind Release.run).map fun t => (t.memory, .status .ok)
      else some (m, .status .invalidHandle) := by
  unfold freeSlot
  rw [hx]
  dsimp only
  rw [freeTree_eq ho (by rw [Object.arena?, hslot])]
  cases ((Operation.freeTree r).release? m).bind Release.run <;> rfl

theorem release_of_freeSlot {m' : Memory} (ho : m.object? r = some o) (hslot : o.origin = .slot)
    (hok : m.freeSlot r = some (m', .status .ok)) : ∃ generation s t, m.pool.slot? r = some ⟨generation, true⟩ ∧
      (Operation.freeTree r).release? m = some s ∧ s.run = some t ∧ t.memory = m' := by
  have hrefused : ∀ {status}, Reply.status status ≠ .status .ok →
      some (m, Reply.status status) ≠ some (m', Reply.status .ok) :=
    fun hne he => hne (congrArg Prod.snd (Option.some.inj he))
  cases hx : m.pool.slot? r with
  | none =>
    rw [freeSlot, hx] at hok
    exact absurd hok (hrefused (by decide))
  | some slot =>
    obtain ⟨generation, inUse⟩ := slot
    rw [freeSlot_eq ho hslot hx] at hok
    cases inUse with
    | false => exact absurd hok (hrefused (by decide))
    | true =>
      obtain ⟨t, hrun, ht⟩ := Option.map_eq_some_iff.1 hok
      obtain ⟨s, hs, hrun⟩ := Option.bind_eq_some_iff.1 hrun
      exact ⟨generation, s, t, rfl, hs, hrun, congrArg Prod.fst ht⟩

/-- A request is refused exactly if the object is gone. -/
theorem Lodged.freeSlot_eq_iff {generation : Nat} (h : m.Lodged r generation) :
    m.freeSlot r = some (m, .status .invalidHandle) ↔ m.isLive r = false := by
  cases h with
  | gone hnone hslot =>
    refine iff_of_true ?_ (by rw [isLive, hnone]; rfl)
    rw [freeSlot, hslot]
    rfl
  | there ho hslot =>
    obtain ⟨o, ho, horigin⟩ := Option.map_eq_some_iff.1 ho
    refine iff_of_false (fun hrefused => ?_) (by simp [isLive_of_object? ho])
    rw [freeSlot_eq ho horigin hslot, if_pos rfl] at hrefused
    obtain ⟨t, -, ht⟩ := Option.map_eq_some_iff.1 hrefused
    exact absurd (congrArg Prod.snd ht) (show Reply.status .ok ≠ .status .invalidHandle by decide)

/-- A handle that was good is good as long as the object is there. -/
theorem Lodged.accepts_eq {m' : Memory} {generation : Nat} {h : Handle} (hm : m'.Lodged r generation)
    (hslot : m.pool.slot? r = some ⟨generation, true⟩) (hnaming : m'.machine = m.machine ∧ m'.secret = m.secret)
    (haddress : h.address = m.machine.address r) : m'.accepts h = (m.accepts h && m'.isLive r) := by
  have hmachine : m'.pool.machine = m.pool.machine := hnaming.1
  have haddress' : h.address = m'.pool.machine.address r := by rw [hmachine]; exact haddress
  rw [accepts, accepts, Memory.accepts_eq haddress, Memory.accepts_eq haddress', hmachine]
  cases hm with
  | there ho hslot' =>
    obtain ⟨o, ho, -⟩ := Option.map_eq_some_iff.1 ho
    rw [hslot', hslot, hnaming.2, isLive_of_object? ho, Bool.and_true]
  | gone hnone hslot' =>
    rw [hslot', isLive, hnone]
    simp

/-- A handle that was good for the object is never good again once the object is gone. -/
theorem Lodged.not_accepts {m' : Memory} {generation : Nat} {h : Handle} {ops : List SlotPool.Op} {q : SlotPool}
    (hm : m'.Lodged r generation) (hslot : m.pool.slot? r = some ⟨generation, true⟩) (hsound : m'.pool.Sound)
    (hmachine : m'.machine = m.machine) (hgone : m'.isLive r = false) (haddress : h.address = m.machine.address r)
    (haccepts : m.accepts h = true) (hops : SlotPool.Run m'.pool ops q) : q.accepts m.secret h = false := by
  have hmachine' : q.machine = m.pool.machine := hops.machine_eq.trans hmachine
  have haddress' : h.address = q.machine.address r := by rw [hmachine']; exact haddress
  rw [accepts, Memory.accepts_eq haddress, hslot, Option.any_some, Bool.true_and, beq_iff_eq] at haccepts
  cases hm with
  | there ho _ =>
    obtain ⟨o, ho, -⟩ := Option.map_eq_some_iff.1 ho
    exact absurd (isLive_of_object? ho) (by simp [hgone])
  | gone _ hslot' =>
    obtain ⟨slot, hlast, hlater⟩ := hops.slot_mono hslot'
    have hlt : generation < slot.generation := by
      rcases hlater with rfl | hlater
      · exact Nat.lt_succ_self generation
      · exact Nat.lt_of_succ_lt hlater
    -- both generations are below `2 ^ 16`, so their tags differ
    have hbound := SlotPool.generation_lt (hops.sound hsound) hlast
    have htag : handleTag (q.machine.address r) slot.generation m.secret ≠ h.tag := fun he => Nat.ne_of_gt hlt
      ((SlotPool.handleTag_eq_iff_of_lt hbound (hlt.trans hbound)).1 (he.trans (hmachine' ▸ haccepts.symm)))
    rw [Memory.accepts_eq haddress', hlast, Option.any_some, beq_eq_false_iff_ne.2 htag, Bool.and_false]

theorem recounted_release? (hs : (Operation.freeTree r).release? m = some s) : Recounted m s.memory := by
  rw [Operation.release?] at hs
  split at hs
  · obtain rfl := Option.some.inj hs
    exact .refl m
  · exact Release.recounted_dropRef hs

end Memory

/-- Wherever a program gets, the objects of components are listed. -/
theorem Attained.enrolled {config : Config} {secret : UInt64} {m : Memory} {held : Multiset Ref}
    (h : Attained config secret m held) (r : Ref) : m.Enrolled r := by
  obtain ⟨n, regions, lost, rfl, hdivided⟩ := h.divided
  intro o id ho hid
  rcases Memory.object?_joined_cases (r := r) hdivided.apart with ⟨-, he⟩ | ⟨o', hsome, -, he⟩
  · exact hdivided.consistent.settled.balanced.member r o id (he.symm.trans ho) hid
  · obtain rfl := Option.some.inj (he.symm.trans ho)
    exact absurd ((hdivided.apart.plain r _ hsome).2.1.symm.trans hid) (by simp)

/-- What a request to free an object of the pool has done when it answers that all is well, whatever memory it is made
in and whoever refers to the object. A handle to the object, whenever it was made, is good afterwards exactly if it was
good before and the object is still there, and a second request is refused exactly if the object is gone. A handle to
an object that is gone is not good again, whatever becomes of the slot. The object is gone exactly if it is plain or
its last reference was given up; for this the members of components must be listed, and wherever a program gets they
are (`Attained.enrolled`). -/
theorem Memory.handles_after_free {m m' : Memory} {r : Ref} {o : Object} (ho : m.object? r = some o)
    (hslot : o.origin = .slot) (hok : m.perform (.slotPoolFree (some r)) = some (m', .status .ok)) :
    (∀ (n : Memory) (h : Handle), n.machine = m.machine → n.handle r = .ok h → m'.accepts h = (m.accepts h && m'.isLive r)) ∧
    (m'.perform (.slotPoolFree (some r)) = some (m', .status .invalidHandle) ↔ m'.isLive r = false) ∧
    (m.pool.Sound → m'.isLive r = false → ∀ h, m.deref? h = some r →
      ∀ ops q, SlotPool.Run m'.pool ops q → q.accepts m.secret h = false) ∧
    (m.Enrolled r → (m'.isLive r = false ↔ m.Yields r o)) := by
  obtain ⟨generation, s, t, hx, hs, hrun, rfl⟩ := release_of_freeSlot ho hslot hok
  -- what the slot is like after the release decides all but what was taken out
  have hsteps := (Release.steps_of_run hrun).1
  have hrecounted := recounted_release? hs
  have hlodged : m.Lodged r generation := .there (by rw [ho, ← hslot]; rfl) hx
  have hafter := (Lodged.lasting r generation).steps hsteps (hlodged.of_recounted hrecounted)
  have hnaming : t.memory.machine = m.machine ∧ t.memory.secret = m.secret :=
    (lasting_naming m.machine m.secret).steps hsteps ⟨hrecounted.aside.machine, hrecounted.aside.secret⟩
  refine ⟨fun n h hn hh => ?_, ?_, fun hsound hgone h hderef ops q hops => ?_, fun henrolled => ?_⟩
  · exact hafter.accepts_eq hx hnaming (hn ▸ address_of_handle hh)
  · exact hafter.freeSlot_eq_iff
  · have hkept : t.memory.pool.Sound :=
      hsteps.pool_of (fun p r hp => hp.giveBack r) (hrecounted.pool.symm ▸ hsound)
    refine hafter.not_accepts hx hkept hnaming.1 hgone ?_ ?_ hops
    · exact address_of_deref? hderef
    · rw [accepts, SlotPool.accepts, ← deref?, hderef]
      rfl
  · exact freed_iff ho (by rw [Object.arena?, hslot]) henrolled hs hrun

/-- A plain object is gone after the first request, and a second one is refused. -/
theorem Memory.handles_after_free_occupied : ∃ (m' : Memory) (h : Handle), Memory.occupied.handle 1 = .ok h ∧
    Memory.occupied.accepts h = true ∧ Memory.occupied.perform (.slotPoolFree (some 1)) = some (m', .status .ok) ∧
    m'.accepts h = false ∧ m'.perform (.slotPoolFree (some 1)) = some (m', .status .invalidHandle) := by
  have ho : Memory.occupied.object? 1 = some { cell with origin := .slot, generation := 2 } := by decide +kernel
  have hx : Memory.occupied.pool.slot? 1 = some ⟨2, true⟩ := by decide +kernel
  have hok : Memory.occupied.perform (.slotPoolFree (some 1)) = some (Memory.occupied.remove 1, .status .ok) := by
    have hplain : Memory.occupied.isPlain 1 = true := by decide +kernel
    have htargets : Memory.occupied.strongTargets 1 = [] := by decide +kernel
    refine (freeSlot_eq ho rfl hx).trans ?_
    rw [if_pos rfl, Operation.release?, if_pos hplain, Option.bind_some,
      Release.run_object (isLive_of_object? ho) htargets]
    rfl
  have hfits : Memory.occupied.machine.address 1 < Handle.addressLimit := by
    rw [machine_occupied]
    decide +kernel
  have hhandle : Memory.occupied.handle 1 = .ok _ := SlotPool.handle_eq hx rfl hfits
  obtain ⟨hfollow, hsecond, -, hgone⟩ := handles_after_free ho rfl hok
  have hdead := (hgone (attained_occupied.enrolled 1)).2 (.plain rfl rfl)
  refine ⟨_, _, hhandle, ?_, hok, ?_, hsecond.2 hdead⟩
  · exact Option.isSome_iff_exists.2 ⟨1, SlotPool.deref?_handle hhandle⟩
  · rw [hfollow _ _ rfl hhandle, hdead, Bool.and_false]

/-- An object that a scope and the program each have a reference to is still there after a request that answers that
all is well. Its handle is good, and a second request is not refused. -/
theorem Memory.handle_outlives_request : ∃ m h m', ScopedRun {} 0 [.enterScope, .allocateScoped cell, .acquire 1] m
      { owns := [{1}], owed := {1} } ∧ m.handle 1 = .ok h ∧
    m.perform (.slotPoolFree (some 1)) = some (m', .status .ok) ∧ m'.accepts h = true ∧
    ∀ m'', m'.perform (.slotPoolFree (some 1)) ≠ some (m'', .status .invalidHandle) := by
  obtain ⟨m, hacquired⟩ := exists_acquired
  have hm := hacquired.matches_ledger
  have hshared : (1 : Ref) ∈ m.scopeRefs := by
    rw [← hm.sum_owns]
    exact Multiset.mem_singleton_self 1
  -- the scope names the object by its slot
  obtain ⟨scope, hscope, hmem⟩ := mem_scopeRefs.1 hshared
  obtain ⟨e, he, hderef⟩ := mem_owned.1 hmem
  obtain ⟨-, huse, -⟩ := (hm.consistent.scopes.entries scope hscope e he).eq_of_deref? hm.housed.pool hderef
  obtain ⟨o, ho, hslot⟩ := (hm.housed.inUse_iff 1).1 huse
  obtain ⟨x, hx, hxuse⟩ := isInUse_iff_slot?.1 huse
  have hsym := hm.symmetric 1 o ho
  have hcount : o.count = 2 := by
    rw [← UInt32.toNat_inj, hm.count_eq ho]
    decide
  obtain ⟨h, hh⟩ := hm.housed.exists_handle hm.nameable ho hslot
  have hfreed : m.perform (.slotPoolFree (some 1)) = some (m.update 1 ({ · with count := 1 }), .status .ok) := by
    refine (freeSlot_eq ho hslot hx).trans ?_
    rw [if_pos hxuse, release?_of_symmetric ho (by rw [Object.arena?, hslot]) hsym, hcount, lowered?,
      if_neg (by simp), Option.map_some, Option.bind_some, Release.run_of_finished ⟨rfl, rfl⟩]
    rfl
  refine ⟨m, h, _, hacquired, hh, hfreed, ?_, fun m'' hrefused => ?_⟩
  · exact Option.isSome_iff_exists.2 ⟨1, SlotPool.deref?_handle hh⟩
  · have ho' : (m.update 1 ({ · with count := 1 })).object? 1 = some { o with count := 1 } := by
      rw [object?_update, if_pos rfl, ho]
      rfl
    have hsecond := (freeSlot_eq ho' hslot hx).symm.trans hrefused
    rw [if_pos hxuse] at hsecond
    obtain ⟨t, -, ht⟩ := Option.map_eq_some_iff.1 hsecond
    exact absurd (congrArg Prod.snd ht) (show Reply.status .ok ≠ .status .invalidHandle by decide)

end Reclamation
