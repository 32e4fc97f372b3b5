import Mathlib
import Reclamation.Memory.Closure
import Reclamation.Proofs.Memory.Settings
import Reclamation.Proofs.Memory.SlotRelease
import Reclamation.Proofs.Plan.Calls

/-!
# What closures capture

A closure captures objects of the slot pool by handles and is called much later. In between the program may free some
of them and put others into their slots. One command moves a slot that is in use out of use and on to a later
generation, or leaves it alone (`Command.slot_passes`), and it is in use exactly as long as its object is there. So the
slot of a captured object stays in its generation until the object is freed, and never comes back to it
(`Continues.slot`). A call sees what was captured, or reports the first capture that was freed (`closure_faithful`).
-/

set_option autoImplicit false

namespace Reclamation

/-! ## Slots that move on -/

/-- A slot stays where it is or moves on. One that was in use is out of use then. -/
structure Slot.Passes (x y : Slot) : Prop where
  le : x.generation ≤ y.generation
  inUse : x.inUse = true → y = x ∨ x.generation < y.generation ∧ y.inUse = false

namespace SlotPool

variable {p q : SlotPool} {r : Ref} {x : Slot} {base : Ref}

/-- A slot stays as it is or is out of use in a later generation. -/
theorem GivesBack.slot (h : p.GivesBack q) (hx : p.slot? r = some x) :
    ∃ y, q.slot? r = some y ∧ (y = x ∨ x.generation < y.generation ∧ y.inUse = false) := by
  induction h with
  | refl => exact ⟨x, hx, .inl rfl⟩
  | @tail p' q' _ hstep ih =>
    obtain ⟨y, hy, hpassed⟩ := ih
    obtain ⟨s, rfl⟩ := hstep
    rw [slot?_giveBack, hy]
    split
    · next hs =>
      obtain ⟨rfl, -⟩ := hs
      refine ⟨_, by rw [hy, Option.map_some], .inr ⟨?_, rfl⟩⟩
      rcases hpassed with rfl | ⟨hlt, -⟩
      · exact Nat.lt_succ_self _
      · exact hlt.trans (Nat.lt_succ_self _)
    · exact ⟨y, rfl, hpassed⟩

theorem GivesBack.passes (h : p.GivesBack q) (hx : p.slot? r = some x) : ∃ y, q.slot? r = some y ∧ x.Passes y := by
  obtain ⟨y, hy, hpassed⟩ := h.slot hx
  refine ⟨y, hy, ?_, fun _ => hpassed⟩
  rcases hpassed with rfl | ⟨hlt, -⟩
  · exact le_rfl
  · exact hlt.le

theorem GivesBack.machine_eq (h : p.GivesBack q) : q.machine = p.machine := by
  induction h with
  | refl => rfl
  | tail _ hstep ih =>
    obtain ⟨s, rfl⟩ := hstep
    exact (machine_giveBack _ s).trans ih

/-- A slot that is taken was not in use. -/
theorem Sound.passes_take (h : Sound p) (hnew : ∀ r ∈ List.range' base p.nextChunkSlots, p.slot? r = none)
    (hx : p.slot? r = some x) : ∃ y, (p.take base).1.slot? r = some y ∧ x.generation ≤ y.generation ∧
      (x.inUse = true → y = x) := by
  cases htaken : (p.take base).2 with
  | none =>
    rw [slot?_take_none htaken]
    exact ⟨x, hx, le_rfl, fun _ => rfl⟩
  | some s =>
    have hready : (p.ready base).slot? r = some x := by
      rw [slot?_ready hnew, if_neg]
      · exact hx
      · intro hr
        exact absurd (hx.symm.trans (hnew r hr.2.2)) (by simp)
    obtain ⟨z, hz, huse, hslot⟩ := h.slot?_take hnew htaken
    rw [hslot]
    split
    · next he =>
      subst he
      obtain rfl := Option.some.inj (hready.symm.trans hz)
      exact ⟨_, rfl, Nat.le_succ _, fun hused => absurd (hused.symm.trans huse) (by simp)⟩
    · exact ⟨x, hready, le_rfl, fun _ => rfl⟩

end SlotPool

variable {config : Config} {secret : UInt64} {m n m' : Memory} {held : Multiset Ref} {r : Ref} {x : Slot}

namespace Attained

open Memory

theorem sound_pool (h : Attained config secret m held) : m.pool.Sound := by
  obtain ⟨n, regions, lost, rfl, hdivided⟩ := h.divided
  exact hdivided.consistent.tidy.housed.pool

/-- A slot is in use exactly if an object of the pool is in it. -/
theorem isInUse_iff (h : Attained config secret m held) (r : Ref) : m.pool.isInUse r = true ↔ r ∈ m.pooled := by
  obtain ⟨n, regions, lost, rfl, hdivided⟩ := h.divided
  have hhoused := hdivided.consistent.tidy.housed
  rw [mem_pooled]
  refine (hhoused.inUse_iff r).trans ⟨fun ho => ?_, fun ho => ?_⟩
  · obtain ⟨o, ho, hslot⟩ := ho
    exact ⟨o, object?_joined hdivided.apart ho, hslot⟩
  · obtain ⟨o, ho, hslot⟩ := ho
    exact ⟨o, object?_of_outside hdivided.apart ho (by rw [Object.arena?, hslot]), hslot⟩

/-- In a slot that is in use there is an object, and in another one there is none. -/
theorem isLive_of_slot (h : Attained config secret m held) (hx : m.pool.slot? r = some x) : m.isLive r = x.inUse := by
  obtain ⟨n, regions, lost, rfl, hdivided⟩ := h.divided
  have hhoused := hdivided.consistent.tidy.housed
  have houtside : regions.objects r = none := by
    rw [Option.eq_none_iff_forall_ne_some]
    intro o ho
    exact absurd (hx.symm.trans (hdivided.apart.slot r o ho)) (by simp)
  have hinUse : n.pool.isInUse r = x.inUse := by
    have hx' : n.pool.slot? r = some x := hx
    simp [SlotPool.isInUse, hx']
  rw [isLive, object?_joined_of_none houtside, ← hinUse, Bool.eq_iff_iff, hhoused.inUse_iff, Option.isSome_iff_exists]
  constructor
  · intro ho
    obtain ⟨o, ho⟩ := ho
    exact ⟨o, ho, hhoused.slot_only r x o hx ho⟩
  · intro ho
    obtain ⟨o, ho, -⟩ := ho
    exact ⟨o, ho⟩

end Attained

open Memory

/-- One command moves slots on. -/
theorem Command.slot_passes {c : Command} (h : Attained config secret m held) (hout : (c.outcome m).memory? = some m')
    (hx : m.pool.slot? r = some x) : ∃ y, m'.pool.slot? r = some y ∧ x.Passes y := by
  cases c with
  | operation op =>
    rcases Operation.pool_changed hout with hpool | hpool
    · exact hpool.passes hx
    · have hnext : ∀ r ∈ List.range' (m.cells.size + 1) m.pool.nextChunkSlots, m.pool.slot? r = none := by
        obtain ⟨n, regions, lost, rfl, hdivided⟩ := h.divided
        rw [size_joined]
        exact hdivided.consistent.tidy.housed.slot?_next
      obtain ⟨y, hy, hle, hsame⟩ := h.sound_pool.passes_take hnext hx
      obtain ⟨z, hz, hpassed⟩ := hpool.passes hy
      refine ⟨z, hz, hle.trans hpassed.le, fun huse => ?_⟩
      obtain rfl := hsame huse
      exact hpassed.inUse huse
  | _ => exact (Command.setting_of_concernsArena rfl hout).pool.passes hx

/-- No command touches the secret. -/
theorem Command.secret_kept {c : Command} (hout : (c.outcome m).memory? = some m') : m'.secret = m.secret := by
  cases c with
  | operation op => exact Operation.secret_kept hout
  | _ => exact (Command.setting_of_concernsArena rfl hout).secret

/-- The machine stays the same. -/
theorem Command.machine_kept {c : Command} (hout : (c.outcome m).memory? = some m') : m'.machine = m.machine := by
  cases c with
  | operation op =>
    rcases Operation.pool_changed hout with hpool | hpool
    · exact hpool.machine_eq
    · exact hpool.machine_eq.trans (SlotPool.machine_take _ _)
  | _ => exact (Command.setting_of_concernsArena rfl hout).pool.machine_eq

/-! ## A program that goes on -/

/-- The objects that are freed from one memory to another. -/
def Memory.freedIn (m m' : Memory) : Finset Ref :=
  (Finset.range m.cells.size).filter fun x => m.isLive x && !m'.isLive x

theorem Memory.mem_freedIn : r ∈ m.freedIn m' ↔ m.isLive r = true ∧ m'.isLive r = false := by
  rw [freedIn, Finset.mem_filter, Finset.mem_range, Bool.and_eq_true, Bool.not_eq_true']
  refine and_iff_right_of_imp fun hr => ?_
  by_contra hsize
  have hgone := object?_of_size_le (Nat.le_of_not_lt hsize)
  rw [isLive, hgone] at hr
  exact absurd hr.1 (by decide)

/-- A program goes on, and some objects are freed on the way. -/
inductive Continues (m : Memory) (held : Multiset Ref) : Memory → Multiset Ref → Finset Ref → Prop
  | start : Continues m held m held ∅
  | done {n n' : Memory} {heldNow : Multiset Ref} {freed : Finset Ref} {made : Option Ref} (c : Command) :
      Continues m held n heldNow freed → c.Allowed n heldNow → c.outcome n = .done n' made →
        Continues m held n' (c.heldAfter n heldNow made) (freed ∪ n.freedIn n')
  | refused {n n' : Memory} {heldNow : Multiset Ref} {freed : Finset Ref} {fault : Fault} (c : Command) :
      Continues m held n heldNow freed → c.Allowed n heldNow → c.outcome n = .refused n' fault →
        Continues m held n' heldNow (freed ∪ n.freedIn n')

/-- The slot of an object is as it was, or the object was freed and the slot has left its generation for good. -/
structure Memory.Remembers (n : Memory) (freed : Finset Ref) (r : Ref) (x : Slot) : Prop where
  kept : r ∉ freed → n.pool.slot? r = some x
  left : r ∈ freed → ∃ y, n.pool.slot? r = some y ∧ x.generation < y.generation

theorem Memory.Remembers.next {c : Command} {heldNow heldNext : Multiset Ref} {freed : Finset Ref}
    (h : n.Remembers freed r x) (hn : Attained config secret n heldNow) (hm' : Attained config secret m' heldNext)
    (hout : (c.outcome n).memory? = some m') (huse : x.inUse = true) : m'.Remembers (freed ∪ n.freedIn m') r x := by
  by_cases hfreed : r ∈ freed
  · obtain ⟨y, hy, hlt⟩ := h.left hfreed
    obtain ⟨z, hz, hpassed⟩ := c.slot_passes hn hout hy
    exact ⟨fun hr => absurd (Finset.mem_union_left _ hfreed) hr, fun _ => ⟨z, hz, hlt.trans_le hpassed.le⟩⟩
  · have hx := h.kept hfreed
    obtain ⟨y, hy, hpassed⟩ := c.slot_passes hn hout hx
    have hlive : n.isLive r = true := (hn.isLive_of_slot hx).trans huse
    have hlive' := hm'.isLive_of_slot hy
    rcases hpassed.inUse huse with rfl | ⟨hlt, hgone⟩
    · -- it is still there
      have hstays : r ∉ freed ∪ n.freedIn m' := by
        rw [Finset.mem_union, mem_freedIn, hlive', huse]
        simp [hfreed]
      exact ⟨fun _ => hy, fun hr => absurd hr hstays⟩
    · have hleaves : r ∈ freed ∪ n.freedIn m' :=
        Finset.mem_union_right _ (mem_freedIn.2 ⟨hlive, hlive'.trans hgone⟩)
      exact ⟨fun hr => absurd hleaves hr, fun _ => ⟨y, hy, hlt⟩⟩

namespace Continues

variable {heldNow : Multiset Ref} {freed : Finset Ref}

theorem attained (h : Continues m held n heldNow freed) (hm : Attained config secret m held) :
    Attained config secret n heldNow := by
  induction h with
  | start => exact hm
  | done c _ hc hout ih => exact ih.done c hc hout
  | refused c _ hc hout ih => exact ih.refused c hc hout

theorem secret_kept (h : Continues m held n heldNow freed) : n.secret = m.secret := by
  induction h with
  | start => rfl
  | done c _ _ hout ih => exact (c.secret_kept (by rw [hout]; rfl)).trans ih
  | refused c _ _ hout ih => exact (c.secret_kept (by rw [hout]; rfl)).trans ih

theorem machine_kept (h : Continues m held n heldNow freed) : n.machine = m.machine := by
  induction h with
  | start => rfl
  | done c _ _ hout ih => exact (c.machine_kept (by rw [hout]; rfl)).trans ih
  | refused c _ _ hout ih => exact (c.machine_kept (by rw [hout]; rfl)).trans ih

/-- The slot of an object stays in its generation until the object is freed, and never comes back to it. -/
theorem remembers (h : Continues m held n heldNow freed) (hm : Attained config secret m held)
    (hx : m.pool.slot? r = some x) (huse : x.inUse = true) : n.Remembers freed r x := by
  induction h with
  | start => exact ⟨fun _ => hx, fun hr => absurd hr (Finset.notMem_empty r)⟩
  | done c hn hc hout ih =>
    exact ih.next (hn.attained hm) ((hn.done c hc hout).attained hm) (by rw [hout]; rfl) huse
  | refused c hn hc hout ih =>
    exact ih.next (hn.attained hm) ((hn.refused c hc hout).attained hm) (by rw [hout]; rfl) huse

/-- A handle names its object until that is freed, and nothing after that. -/
theorem deref? {handle : Handle} (h : Continues m held n heldNow freed) (hm : Attained config secret m held)
    (hhandle : m.handle r = .ok handle) : n.deref? handle = if r ∈ freed then none else some r := by
  obtain ⟨hfit, x, hx, huse, rfl⟩ := SlotPool.handle_eq_ok hhandle
  have hremembers := h.remembers hm hx huse
  have hsound := (h.attained hm).sound_pool
  have hlt := SlotPool.generation_lt hm.sound_pool hx
  have hmachine : m.pool.machine = n.pool.machine := h.machine_kept.symm
  rw [Memory.deref?, h.secret_kept, hmachine]
  rw [hmachine] at hfit
  by_cases hr : r ∈ freed
  · obtain ⟨y, hy, hleft⟩ := hremembers.left hr
    rw [SlotPool.deref?_ofParts hsound hy hfit hlt, if_neg fun hsame => hleft.ne' hsame.2, if_pos hr]
  · rw [SlotPool.deref?_ofParts hsound (hremembers.kept hr) hfit hlt, if_pos ⟨huse, rfl⟩, if_neg hr]

end Continues

/-! ## Closures -/

/-- There are handles to the objects of the pool whose addresses fit. -/
theorem Attained.exists_handle_iff (h : Attained config secret m held) (r : Ref) :
    (∃ handle, m.handle r = .ok handle) ↔ r ∈ m.pooled ∧ m.machine.address r < Handle.addressLimit := by
  rw [← h.isInUse_iff, isInUse_iff_slot?]
  constructor
  · intro hhandle
    obtain ⟨handle, hhandle⟩ := hhandle
    obtain ⟨hfit, x, hx, huse, -⟩ := SlotPool.handle_eq_ok hhandle
    exact ⟨⟨x, hx, huse⟩, hfit⟩
  · intro hr
    obtain ⟨⟨x, hx, huse⟩, hfit⟩ := hr
    exact ⟨_, SlotPool.handle_eq hx huse hfit⟩

namespace Memory

variable {values : List Ref} {closure : Closure}

theorem capture_eq_ok_iff : m.capture values = .ok closure ↔
    List.Forall₂ (fun r handle => m.handle r = .ok handle) values closure.captures := by
  rw [← mapM_eq_ok_iff, capture]
  cases values.mapM m.handle with
  | error fault => simp [Except.map]
  | ok handles =>
    obtain ⟨captures⟩ := closure
    simp [Except.map]

/-- A check of numbered handles that complains about exactly the `gone` values stops at the first of them. -/
theorem mapM_zipIdx_of_handles {gone : Ref → Bool} {check : Handle × Nat → Except Fault Ref} {handles : List Handle}
    (h : List.Forall₂ (fun r handle => ∀ index,
      check (handle, index) = if gone r then .error (.invalidCapture index) else .ok r) values handles) (k : Nat) :
    (handles.zipIdx k).mapM check =
      (values.findIdx? gone).elim (.ok values) fun i => .error (.invalidCapture (i + k)) := by
  induction h generalizing k with
  | nil => rfl
  | @cons r handle values handles hcheck _ ih =>
    rw [List.zipIdx_cons, List.mapM_cons, ih (k + 1), List.findIdx?_cons, hcheck]
    cases gone r with
    | true => simp [bind, Except.bind]
    | false =>
      cases values.findIdx? gone with
      | none => rfl
      | some i =>
        have hindex : i + (k + 1) = i + 1 + k := by omega
        simp [bind, Except.bind, hindex]

/-- A call sees what the handles name, up to the first one that names nothing. -/
theorem call_of_handles {gone : Ref → Bool}
    (h : List.Forall₂ (fun r handle => n.deref? handle = if gone r then none else some r) values closure.captures) :
    n.call closure = (values.findIdx? gone).elim (.ok values) fun i => .error (.invalidCapture i) := by
  refine mapM_zipIdx_of_handles (h.imp fun r handle hhandle index => ?_) 0
  dsimp only
  rw [hhandle]
  cases gone r <;> rfl

end Memory

/-- Whatever a program does after it captured objects of the slot pool, slots that are used again included: a call sees
what was captured, in its order, as long as none of it was freed, and reports the first capture that was. Objects can
be captured exactly if they are live objects of the pool, whose addresses fit a handle. -/
theorem closure_faithful (h : Attained config secret m held) :
    (∀ values closure, m.capture values = .ok closure → ∀ n heldNow freed, Continues m held n heldNow freed →
      n.call closure =
        (values.findIdx? (· ∈ freed)).elim (.ok values) fun i => .error (.invalidCapture i)) ∧
    (∀ values, (∃ closure, m.capture values = .ok closure) ↔
      ∀ r ∈ values, r ∈ m.pooled ∧ m.machine.address r < Handle.addressLimit) ∧
    (m.pool.Fits → ∀ values, (∃ fault, m.capture values = .error fault) ↔ ∃ r ∈ values, r ∉ m.pooled) := by
  have hcapture : ∀ values, (∃ closure, m.capture values = .ok closure) ↔
      ∀ r ∈ values, r ∈ m.pooled ∧ m.machine.address r < Handle.addressLimit := by
    intro values
    constructor
    · intro hclosure r hr
      obtain ⟨closure, hclosure⟩ := hclosure
      obtain ⟨handle, -, hhandle⟩ := exists_right_of_forall₂ (capture_eq_ok_iff.1 hclosure) r hr
      exact (h.exists_handle_iff r).1 ⟨handle, hhandle⟩
    · intro hall
      obtain ⟨handles, hhandles⟩ := exists_mapM_eq_ok fun r hr => (h.exists_handle_iff r).2 (hall r hr)
      exact ⟨⟨handles⟩, capture_eq_ok_iff.2 (mapM_eq_ok_iff.1 hhandles)⟩
  refine ⟨fun values closure hclosure n heldNow freed hrun => ?_, hcapture, fun hfits values => ?_⟩
  · refine call_of_handles ((capture_eq_ok_iff.1 hclosure).imp fun r handle hhandle => ?_)
    rw [hrun.deref? h hhandle]
    simp only [decide_eq_true_iff]
  · have hfit : ∀ r ∈ m.pooled, m.machine.address r < Handle.addressLimit := by
      intro r hr
      obtain ⟨x, hx, -⟩ := isInUse_iff_slot?.1 ((h.isInUse_iff r).2 hr)
      exact hfits r x hx
    constructor
    · intro hfault
      obtain ⟨fault, hfault⟩ := hfault
      by_contra hall
      simp only [not_exists, not_and, not_not] at hall
      obtain ⟨closure, hclosure⟩ := (hcapture values).2 fun r hr => ⟨hall r hr, hfit r (hall r hr)⟩
      exact absurd (hfault.symm.trans hclosure) (by simp)
    · intro hoff
      obtain ⟨r, hr, hoff⟩ := hoff
      cases hclosure : m.capture values with
      | error fault => exact ⟨fault, rfl⟩
      | ok closure => exact absurd ((hcapture values).1 ⟨closure, hclosure⟩ r hr).1 hoff

/-- The only object of a pool once the last reference to it is given up. -/
def Memory.unreferenced : Memory :=
  Memory.occupied.update 1 ({ · with count := 0 })

theorem object?_unreferenced :
    Memory.unreferenced.object? 1 = some { cell with origin := .slot, generation := 2, count := 0 } := by
  decide +kernel

theorem release_occupied : (Operation.release 1).outcome .occupied = .done (Memory.unreferenced.remove 1) none := by
  have htargets : Memory.unreferenced.strongTargets 1 = [] := by decide +kernel
  have ho : Memory.occupied.object? 1 = some { cell with origin := .slot, generation := 2 } := by decide +kernel
  have hdrop : ({ memory := .occupied } : Release).dropRef 1 =
      some { memory := .unreferenced, work := [.object 1] } := by
    unfold Release.dropRef
    rw [ho]
    rfl
  rw [Operation.outcome, Memory.release, hdrop, Option.bind_some,
    Release.run_object (isLive_of_object? object?_unreferenced) htargets]
  rfl

/-- The slot of the object is used again. -/
theorem allocateSlot_reused : ∃ n, (Operation.allocateSlot cell).outcome (Memory.unreferenced.remove 1) =
    .done n (some 1) ∧ n.isLive 1 = true := by
  have hpool : (Memory.unreferenced.remove 1).pool = Memory.occupied.pool.giveBack 1 :=
    (pool_remove object?_unreferenced).trans (if_pos rfl)
  have hsize : (Memory.unreferenced.remove 1).cells.size = 2 :=
    (Aside.remove _ 1).size.trans (by decide +kernel)
  have hgrants : ¬ (Memory.occupied.pool.giveBack 1).exceedsMemory (2 + 1) = true := by decide +kernel
  have htake : ((Memory.occupied.pool.giveBack 1).take (2 + 1)).2 = some 1 := by decide +kernel
  have hlimit : 1 < ((Memory.occupied.pool.giveBack 1).take (2 + 1)).1.limit := by decide +kernel
  rw [Operation.outcome, Memory.allocateSlot_eq, hpool, hsize, if_neg hgrants, htake]
  refine ⟨_, rfl, ?_⟩
  rw [isLive, object?_fillSlot hlimit, if_pos rfl]
  rfl

/-- An object in a slot is freed and another one is placed there. -/
theorem closure_faithful_reused : ∃ closure n heldNow freed,
    Memory.occupied.capture [1, 1] = .ok closure ∧ Continues .occupied {1} n heldNow freed ∧ n.isLive 1 = true ∧
      Memory.occupied.call closure = .ok [1, 1] ∧ n.call closure = .error (.invalidCapture 0) := by
  have hblank : cell.IsBlank := ObjectSpec.isBlank_ofFlags 0 [false] false false
  obtain ⟨hcall, hcapture, -⟩ := closure_faithful attained_occupied
  have hpooled : 1 ∈ Memory.occupied.pooled ∧ Memory.occupied.machine.address 1 < Handle.addressLimit := by
    rw [machine_occupied]
    decide +kernel
  obtain ⟨closure, hclosure⟩ := (hcapture [1, 1]).2 fun r hr => by
    obtain rfl : r = 1 := by simpa using hr
    exact hpooled
  obtain ⟨n, hallocate, hlive⟩ := allocateSlot_reused
  have hfreed := (@Continues.start .occupied {1}).done (.operation (.release 1))
    (.inr (Multiset.mem_singleton_self 1)) release_occupied
  have hreused := hfreed.done (.operation (.allocateSlot cell)) (.inr hblank) hallocate
  have hgone : 1 ∈ Memory.occupied.freedIn (Memory.unreferenced.remove 1) :=
    mem_freedIn.2 ⟨by decide +kernel, not_isLive_remove_self _ 1⟩
  refine ⟨closure, n, _, _, hclosure, hreused, hlive, hcall [1, 1] closure hclosure _ _ _ .start, ?_⟩
  rw [hcall [1, 1] closure hclosure _ _ _ hreused, List.findIdx?_cons, if_pos]
  · rfl
  · exact decide_eq_true (Finset.mem_union_left _ (Finset.mem_union_right _ hgone))

end Reclamation
