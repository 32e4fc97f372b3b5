import Mathlib
import Reclamation.Proofs.Memory.Remnants

/-!
# Where a release ends

What a step takes out depends on what is due first, and that depends on the order in which references were given up.
Where the release ends does not. When nothing is due any more an object is there for a reason: a reference to it, or
to its component from outside, or, if it is symmetric, a field on a way from an object that is not unowned. The reason
is there for any other release from the same memory as well, as long as the objects are on which it rests, so no step
of the other release takes out the first of them (`Release.Going.spares`). Hence of two releases from the same
memory that end with the same ledger each leaves what the other does (`Release.Going.isLive_of_ended`), and counts,
being numbers of references, are the same (`Release.Ended.object?_eq`).

For this nothing is asked of memory but that counts are right. There may be unowned objects to which no release finds
its way, because all that refers to them are objects of the same kind (`Memory.Hides`): they stay in every order
(`Release.Misses`).
-/

set_option autoImplicit false

namespace Reclamation

open Memory

/-! ## Objects that no release finds -/

namespace Memory

variable {m : Memory} {x y : Ref}

/-- Unowned objects to which only fields of such objects refer. -/
structure Hides (m : Memory) (hidden : Multiset Ref) : Prop where
  unowned : ∀ x ∈ hidden, m.isUnowned x = true
  holder : ∀ x ∈ hidden, ∀ y, x ∈ m.strongTargets y → y ∈ hidden

/-- An unowned object that cannot be traced back to a holder that is not unowned. -/
def Stray (m : Memory) (x : Ref) : Prop :=
  m.isUnowned x = true ∧ ¬ m.Rooted (fun _ => False) x

/-- Whatever holds a stray object is one itself. -/
theorem Stray.holder (h : m.Stray x) (hyx : x ∈ m.strongTargets y) : m.Stray y := by
  obtain ⟨hunowned, hrooted⟩ := h
  constructor
  · by_contra hy
    exact hrooted (.field hyx fun hy' => absurd hy' hy)
  · intro hy
    exact hrooted (.field hyx fun _ => hy)

open Classical in
/-- Every unowned object can be traced back to one that is hidden, or to a holder that is not unowned. -/
theorem exists_hidden (m : Memory) : ∃ hidden, m.Hides hidden ∧ Traced { memory := m } hidden := by
  have hmem : ∀ x, x ∈ ((Finset.range m.cells.size).filter m.Stray).val ↔ m.Stray x := by
    intro x
    rw [Finset.mem_val, Finset.mem_filter, Finset.mem_range, and_iff_right_iff_imp]
    exact fun hx => lt_size_of_isLive (isLive_of_isUnowned hx.1)
  refine ⟨((Finset.range m.cells.size).filter m.Stray).val, ⟨fun x hx => ?_, fun x hx y hyx => ?_⟩, fun x hx => ?_⟩
  · exact ((hmem x).1 hx).1
  · exact (hmem y).2 (((hmem x).1 hx).holder hyx)
  · by_cases hrooted : m.Rooted (fun _ => False) x
    · exact hrooted.mono (fun _ ha _ => absurd ha id) (fun _ _ ha _ => .inl ha) (fun _ ha => .inl ha) hx
    · exact .root (.inr ((hmem x).2 ⟨hx, hrooted⟩))

end Memory

namespace Release

variable {m : Memory} {s t u v : Release} {outer extra rest hidden : Multiset Ref} {x y r : Ref}

/-- The candidates do not lead to hidden objects. -/
structure Misses (s : Release) (hidden : Multiset Ref) : Prop where
  symmetric : ∀ x ∈ hidden, ∀ o, s.memory.object? x = some o → o.symmetric = true
  holder : ∀ x ∈ hidden, ∀ y, x ∈ s.memory.strongTargets y → y ∈ hidden
  candidates : ∀ x ∈ s.candidates, x ∉ hidden

namespace Misses

/-- Nothing new refers to a hidden object. -/
theorem of_remnant (h : s.Misses hidden) (hremnant : Remnant s.memory t.memory)
    (hcandidates : ∀ x ∈ t.candidates, x ∉ hidden) : t.Misses hidden where
  symmetric x hx o' ho' := by
    obtain ⟨o, ho, hsym, -⟩ := hremnant.exists_object ho'
    exact hsym.trans (h.symmetric x hx o ho)
  holder x hx y hyx := h.holder x hx y (hremnant.refers hyx)
  candidates := hcandidates

theorem notMem_found (h : s.Misses hidden) (hx : x ∈ s.memory.found s.candidates) : x ∉ hidden := by
  obtain ⟨c, hc, -, hreaches⟩ := mem_found_iff.1 hx
  intro hhidden
  refine h.candidates c hc ?_
  -- back along the way that the search took
  clear hc hx
  induction hreaches with
  | refl => exact hhidden
  | step hedge _ ih => exact h.holder _ (ih hhidden) _ (unownedGraph_edge_iff.1 hedge).1

/-- No step takes out a hidden object. -/
theorem notMem_group (h : s.Misses hidden) (hbal : Balanced s outer extra) (hx : x ∈ s.group) : x ∉ hidden := by
  have hplain : (∃ o, s.memory.object? x = some o ∧ o.symmetric = false) → x ∉ hidden := by
    intro hobject hhidden
    obtain ⟨o, ho, hsym⟩ := hobject
    rw [h.symmetric x hhidden o ho] at hsym
    exact absurd hsym (by decide)
  cases hw : s.work with
  | nil =>
    rw [group_of_nil hw] at hx
    exact h.notMem_found (mem_orphans_iff.1 hx).1
  | cons d work =>
    have hd : d ∈ s.work := by rw [hw]; exact List.mem_cons_self
    cases d with
    | object r =>
      rw [group_of_object hw, List.mem_singleton] at hx
      obtain ⟨o, ho, hsym, -⟩ := hbal.work_object r hd
      exact hplain ⟨o, hx ▸ ho, hsym⟩
    | component id =>
      obtain ⟨e, he⟩ := hbal.work_component id hd
      rw [group_of_component hw he] at hx
      obtain ⟨o, ho, hsym, -⟩ := (hbal.component id e he).frozen x hx
      exact hplain ⟨o, ho, hsym⟩

theorem step (h : s.Misses hidden) (hbal : Balanced s outer extra) (hstep : Step s t) : t.Misses hidden := by
  refine h.of_remnant (hstep.takes hbal).remnant fun x hx => ?_
  rcases hstep.candidates hbal hx with hx | ⟨y, hy, hyx⟩
  · exact h.candidates x hx
  · intro hhidden
    exact h.notMem_group hbal hy (h.holder x hhidden y hyx)

end Misses

/-! ## One release beside another -/

/-- A release that began with a certain memory and goes on until only the references of a ledger are left. -/
structure Going (m : Memory) (rest hidden : Multiset Ref) (u : Release) : Prop where
  balanced : Balanced u rest 0
  taken : ∃ group, Takes group { memory := m } u
  counts : Counts { memory := m } u
  misses : u.Misses hidden
  traced : Traced u hidden

/-- It has come to its end. -/
structure Ended (m : Memory) (rest hidden : Multiset Ref) (t : Release) : Prop extends Going m rest hidden t where
  finished : t.Finished

namespace Going

theorem remnant (h : Going m rest hidden u) : Remnant m u.memory := by
  obtain ⟨group, htakes⟩ := h.taken
  exact htakes.remnant

theorem step (h : Going m rest hidden u) (hstep : Step u v) : Going m rest hidden v where
  balanced := h.balanced.step hstep
  taken := by
    obtain ⟨group, htakes⟩ := h.taken
    exact ⟨_, htakes.trans (hstep.takes h.balanced)⟩
  counts := h.counts.trans (hstep.counts h.balanced)
  misses := h.misses.step h.balanced hstep
  traced := h.balanced.traced_step (Multiset.zero_subset hidden) h.traced hstep

theorem steps (h : Going m rest hidden u) (hsteps : Steps u v) : Going m rest hidden v := by
  induction hsteps with
  | refl => exact h
  | tail _ hstep ih => exact ih.step hstep

/-- An object is of the same kind in both. -/
theorem object_eq (h : Going m rest hidden u) (h' : Going m rest hidden t) {o o' : Object}
    (ho : u.memory.object? x = some o) (ho' : t.memory.object? x = some o') :
    o'.symmetric = o.symmetric ∧ o'.component = o.component := by
  obtain ⟨o₁, ho₁, hsym, hcomp⟩ := h.remnant.exists_object ho
  obtain ⟨o₂, ho₂, hsym', hcomp'⟩ := h'.remnant.exists_object ho'
  obtain rfl := Option.some.inj (ho₁.symm.trans ho₂)
  exact ⟨hsym'.trans hsym.symm, hcomp'.trans hcomp.symm⟩

theorem members_eq (h : Going m rest hidden u) (h' : Going m rest hidden t) {id : ComponentId}
    {e e' : ComponentEntry} (he : u.memory.components.entry? id = some e)
    (he' : t.memory.components.entry? id = some e') : e'.members = e.members := by
  obtain ⟨group, htakes⟩ := h.taken
  obtain ⟨group', htakes'⟩ := h'.taken
  obtain ⟨e₁, he₁, hmembers⟩ := htakes.entry id e he
  obtain ⟨e₂, he₂, hmembers'⟩ := htakes'.entry id e' he'
  obtain rfl := Option.some.inj (he₁.symm.trans he₂)
  exact hmembers'.symm.trans hmembers

theorem strongTargets_eq (h : Going m rest hidden u) (h' : Going m rest hidden t) (hx : u.memory.isLive x = true)
    (hx' : t.memory.isLive x = true) : t.memory.strongTargets x = u.memory.strongTargets x := by
  rw [h.remnant.strongTargets hx, h'.remnant.strongTargets hx']

end Going

/-- A component that is there at the end has a reference to a member from outside. -/
theorem Ended.exists_external (h : Ended m rest hidden t) {id : ComponentId} {e : ComponentEntry}
    (he : t.memory.components.entry? id = some e) :
    ∃ g ∈ rest + t.memory.referencesOutside e.members, g ∈ e.members := by
  have hexternal : e.external ≠ 0 := by
    rw [Ne, ← h.balanced.external_due id e he, h.finished.1]
    exact List.not_mem_nil
  rw [h.balanced.external id e he, add_zero, Ne, Multiset.countP_eq_zero] at hexternal
  push Not at hexternal
  exact hexternal

/-! ### What the other one keeps -/

section Spares

variable (hu : Going m rest hidden u) (ht : Ended m rest hidden t)
  (hlive : ∀ x, t.memory.isLive x = true → u.memory.isLive x = true)

include hu ht hlive

/-- What refers at the end to a member of the group that a step takes out is in that group. -/
theorem Going.mem_group_of_refers (hx : x ∈ u.group) (hyx : x ∈ t.memory.strongTargets y) : y ∈ u.group := by
  have hy := isLive_of_mem_strongTargets hyx
  rw [hu.strongTargets_eq ht.toGoing (hlive y hy) hy] at hyx
  exact hu.balanced.closed_group.mem_of_mem_strongTargets hx hyx

/-- An object that is due is not there at the end: the only reference could be its own. -/
theorem Going.spares_object {work : List Doomed} (hw : u.work = .object r :: work) : ¬ t.memory.isLive r = true := by
  intro hr
  have hmem : .object r ∈ u.work := by rw [hw]; exact List.mem_cons_self
  have hgroup := group_of_object hw
  have hin : r ∈ u.group := by rw [hgroup]; exact List.mem_singleton_self r
  obtain ⟨o, ho, hsym, hcomp⟩ := hu.balanced.work_object r hmem
  obtain ⟨o', ho'⟩ := isLive_iff.1 hr
  obtain ⟨hsym', hcomp'⟩ := hu.object_eq ht.toGoing ho ho'
  have hcount : (rest + 0 + t.memory.references).count r ≠ 0 := by
    rw [Ne, ← ht.balanced.plain_due r o' ho' (hsym'.trans hsym) (hcomp'.trans hcomp), ht.finished.1]
    exact List.not_mem_nil
  rw [Multiset.count_ne_zero, add_zero, Multiset.mem_add] at hcount
  rcases hcount with hrest | href
  · exact (hu.balanced.closed_group.not_mem_of_mem hin).1 hrest
  · obtain ⟨y, hyr⟩ := mem_references.1 href
    have hy := hu.mem_group_of_refers ht hlive hin hyr
    rw [hgroup, List.mem_singleton] at hy
    rw [hy, hu.strongTargets_eq ht.toGoing (isLive_of_object? ho) hr] at hyr
    have hzero := (hu.balanced.plain_due r o ho hsym hcomp).1 hmem
    rw [Multiset.count_eq_zero, Multiset.mem_add] at hzero
    exact hzero (.inr (mem_references.2 ⟨r, hyr⟩))

/-- The members of a component that is due are not there at the end. -/
theorem Going.spares_component {id : ComponentId} {work : List Doomed} (hw : u.work = .component id :: work)
    (hx : x ∈ u.group) : ¬ t.memory.isLive x = true := by
  intro hxlive
  have hmem : .component id ∈ u.work := by rw [hw]; exact List.mem_cons_self
  obtain ⟨e, he⟩ := hu.balanced.work_component id hmem
  have hgroup := group_of_component hw he
  obtain ⟨o, ho, -, hcomp, -⟩ := (hu.balanced.component id e he).frozen x (hgroup ▸ hx)
  obtain ⟨o', ho'⟩ := isLive_iff.1 hxlive
  obtain ⟨e', he', -⟩ := ht.balanced.member x o' id ho' ((hu.object_eq ht.toGoing ho ho').2.trans hcomp)
  have hmembers : e'.members = u.group := (hu.members_eq ht.toGoing he he').trans hgroup.symm
  obtain ⟨g, hg, hin⟩ := ht.exists_external he'
  rw [hmembers] at hg hin
  rcases Multiset.mem_add.1 hg with hrest | hout
  · exact (hu.balanced.closed_group.not_mem_of_mem hin).1 hrest
  · obtain ⟨y, hy, hyg⟩ := mem_referencesOutside.1 hout
    exact hy (hu.mem_group_of_refers ht hlive hin hyg)

/-- Orphans are not there at the end: what they could be traced back to would be orphans as well. -/
theorem Going.spares_orphans (hw : u.work = []) (hx : x ∈ u.group) : ¬ t.memory.isLive x = true := by
  have hgroup := group_of_nil hw
  have hunowned : ∀ y ∈ u.group, t.memory.isLive y = true → t.memory.isUnowned y = true := by
    intro y hy hylive
    rw [hgroup] at hy
    obtain ⟨o, ho, hsym, hcount⟩ := isUnowned_iff.1 (isUnowned_of_mem_orphans hy)
    obtain ⟨o', ho'⟩ := isLive_iff.1 hylive
    have hsym' := (hu.object_eq ht.toGoing ho ho').1.trans hsym
    refine isUnowned_iff.2 ⟨o', ho', hsym', ?_⟩
    rw [eq_zero_iff_toNat] at hcount ⊢
    rw [(ht.balanced.symmetric y o' ho' hsym').2.1, ← (hu.balanced.symmetric y o ho hsym).2.1, hcount]
  intro hxlive
  have hrooted := ht.traced x (hunowned x hx hxlive)
  rw [ht.finished.2] at hrooted
  -- the induction goes back from an orphan to what holds it
  clear hxlive
  induction hrooted with
  | root hr => exact hu.misses.notMem_group hu.balanced hx (hr.resolve_left List.not_mem_nil)
  | @field y x hyx _ ih =>
    have hy := hu.mem_group_of_refers ht hlive hx hyx
    exact ih (hunowned y hy (isLive_of_mem_strongTargets hyx)) hy

/-- No step takes out what is there when another release has ended. -/
theorem Going.spares (hx : x ∈ u.group) : ¬ t.memory.isLive x = true := by
  cases hw : u.work with
  | nil => exact hu.spares_orphans ht hlive hw hx
  | cons d work =>
    cases d with
    | object r =>
      rw [group_of_object hw, List.mem_singleton] at hx
      exact hx ▸ hu.spares_object ht hlive hw
    | component id => exact hu.spares_component ht hlive hw hx

theorem Going.isLive_of_ended (hsteps : Steps u v) (hx : t.memory.isLive x = true) : v.memory.isLive x = true := by
  induction hsteps generalizing x with
  | refl => exact hlive x hx
  | @tail v w hsteps hstep ih =>
    have hv := hu.steps hsteps
    refine ((hstep.takes hv.balanced).isLive_iff x).2 ⟨fun hmem => ?_, ih hx⟩
    exact hv.spares ht (fun y => ih (x := y)) hmem hx

end Spares

/-! ### Two releases that have ended -/

namespace Ended

variable {t' : Release} {o : Object} {id : ComponentId} {e : ComponentEntry}

theorem strongTargets_eq (h : Ended m rest hidden t) (h' : Ended m rest hidden t')
    (hlive : ∀ x, t'.memory.isLive x = t.memory.isLive x) (x : Ref) :
    t'.memory.strongTargets x = t.memory.strongTargets x := by
  by_cases hx : t.memory.isLive x = true
  · exact h.toGoing.strongTargets_eq h'.toGoing hx ((hlive x).trans hx)
  · rw [strongTargets_of_not_isLive hx, strongTargets_of_not_isLive (by rwa [hlive])]

/-- The counts that references decide are the same in both. -/
theorem counts_eq (h : Ended m rest hidden t) (h' : Ended m rest hidden t')
    (hlive : ∀ x, t'.memory.isLive x = t.memory.isLive x) {o o' : Object} (ho : t.memory.object? x = some o)
    (ho' : t'.memory.object? x = some o') :
    (o'.symmetric = true ∨ o'.component = none → o'.count = o.count) ∧
      (o'.symmetric = true → o'.internal = o.internal) := by
  have hreferences : t'.memory.references = t.memory.references := references_congr (h.strongTargets_eq h' hlive)
  obtain ⟨hsym, hcomp⟩ := h.object_eq h'.toGoing ho ho'
  rw [hsym, hcomp]
  cases hs : o.symmetric with
  | true =>
    obtain ⟨-, hcount, hinternal⟩ := h.balanced.symmetric x o ho hs
    obtain ⟨-, hcount', hinternal'⟩ := h'.balanced.symmetric x o' ho' (hsym.trans hs)
    rw [← hreferences] at hinternal
    exact ⟨fun _ => UInt32.toNat_inj.1 (hcount'.trans hcount.symm),
      fun _ => UInt32.toNat_inj.1 (hinternal'.trans hinternal.symm)⟩
  | false =>
    refine ⟨fun hdecided => ?_, fun hs' => absurd hs' (by decide)⟩
    have hnone := hdecided.resolve_left (by decide)
    have hcount := h.balanced.plain x o ho hs hnone (by simp [h.finished.1])
    have hcount' := h'.balanced.plain x o' ho' (hsym.trans hs) (hcomp.trans hnone) (by simp [h'.finished.1])
    rw [← hreferences] at hcount
    exact UInt32.toNat_inj.1 (hcount'.trans hcount.symm)

/-- Both have the same objects. -/
theorem object?_eq (h : Ended m rest hidden t) (h' : Ended m rest hidden t')
    (hlive : ∀ x, t'.memory.isLive x = t.memory.isLive x) (x : Ref) : t'.memory.object? x = t.memory.object? x := by
  cases ho : t.memory.object? x with
  | none =>
    have hx : t'.memory.isLive x = false := by rw [hlive, Memory.isLive, ho]; rfl
    simpa [Memory.isLive] using hx
  | some o =>
    obtain ⟨o', ho'⟩ := isLive_iff.1 ((hlive x).trans (isLive_of_object? ho))
    obtain ⟨o₁, ho₁, he⟩ := h.remnant x o ho
    obtain ⟨o₂, ho₂, he'⟩ := h'.remnant x o' ho'
    obtain rfl := Option.some.inj (ho₁.symm.trans ho₂)
    rw [funext hlive, ← he] at he'
    obtain ⟨hcount, hinternal⟩ := h.counts_eq h' hlive ho ho'
    rw [ho', Object.eq_of_uncounted he' hcount hinternal]

theorem entry?_of_ended (h : Ended m rest hidden t) (h' : Ended m rest hidden t')
    (hlive : ∀ x, t'.memory.isLive x = t.memory.isLive x) (he : t.memory.components.entry? id = some e) :
    t'.memory.components.entry? id = some e := by
  obtain ⟨g, -, hg⟩ := h.exists_external he
  obtain ⟨o, ho, -, hcomp, -⟩ := (h.balanced.component id e he).frozen g hg
  obtain ⟨e', he', -⟩ := h'.balanced.member g o id ((h.object?_eq h' hlive g).trans ho) hcomp
  have hmembers := h.members_eq h'.toGoing he he'
  have hcount : e'.external = e.external := by
    rw [h'.balanced.external id e' he', h.balanced.external id e he, hmembers,
      referencesOutside_congr (h.strongTargets_eq h' hlive)]
  obtain ⟨i, hi, -, hl, hep⟩ := ComponentRegistry.entry?_eq_some_iff.1 he
  obtain ⟨i', hi', -, hl', hep'⟩ := ComponentRegistry.entry?_eq_some_iff.1 he'
  rw [he']
  congr 1
  obtain ⟨epoch, live, external, members⟩ := e
  obtain ⟨epoch', live', external', members'⟩ := e'
  simp_all

/-- Both have the same components. -/
theorem entry?_eq (h : Ended m rest hidden t) (h' : Ended m rest hidden t')
    (hlive : ∀ x, t'.memory.isLive x = t.memory.isLive x) (id : ComponentId) :
    t'.memory.components.entry? id = t.memory.components.entry? id := by
  refine Option.ext fun e => ⟨fun he => ?_, fun he => ?_⟩
  · exact h'.entry?_of_ended h (fun x => (hlive x).symm) he
  · exact h.entry?_of_ended h' hlive he

/-- Both list the same weak fields. -/
theorem referrers_perm (h : Ended m rest hidden t) (h' : Ended m rest hidden t')
    (hlive : ∀ x, t'.memory.isLive x = t.memory.isLive x) (x : Ref) :
    (t'.memory.referrers.getD x []).Perm (t.memory.referrers.getD x []) := by
  rw [List.perm_iff_count]
  intro field
  obtain ⟨holder, index⟩ := field
  rw [h.balanced.tidy.wired.listed, h'.balanced.tidy.wired.listed, weakTarget?, weakTarget?,
    h.object?_eq h' hlive]

/-- Both have taken out the same objects. -/
theorem exists_perm (h : Ended m rest hidden t) (h' : Ended m rest hidden t')
    (hlive : ∀ x, t'.memory.isLive x = t.memory.isLive x) :
    ∃ group group', Takes group { memory := m } t ∧ Takes group' { memory := m } t' ∧ group'.Perm group := by
  obtain ⟨group, htakes⟩ := h.taken
  obtain ⟨group', htakes'⟩ := h'.taken
  refine ⟨group, group', htakes, htakes', (List.perm_ext_iff_of_nodup htakes'.nodup htakes.nodup).2 fun x => ?_⟩
  have hiff := htakes.isLive_iff x
  have hiff' := htakes'.isLive_iff x
  rw [hlive] at hiff'
  have hx := htakes.live x
  have hx' := htakes'.live x
  tauto

/-- In both the same objects have a list of weak fields. -/
theorem mem_referrers_iff (h : Ended m rest hidden t) (h' : Ended m rest hidden t')
    (hlive : ∀ x, t'.memory.isLive x = t.memory.isLive x) (x : Ref) :
    x ∈ t'.memory.referrers ↔ x ∈ t.memory.referrers := by
  obtain ⟨group, group', htakes, htakes', hperm⟩ := h.exists_perm h' hlive
  have hlisted : t'.memory.referrers.getD x [] = [] ↔ t.memory.referrers.getD x [] = [] := by
    rw [← List.length_eq_zero_iff, ← List.length_eq_zero_iff, (h.referrers_perm h' hlive x).length_eq]
  rw [Memory.mem_referrers_iff, Memory.mem_referrers_iff, Ne, hlisted, htakes.hollow, htakes'.hollow, hperm.mem_iff]

/-- Both have freed as many objects. -/
theorem freed_eq (h : Ended m rest hidden t) (h' : Ended m rest hidden t')
    (hlive : ∀ x, t'.memory.isLive x = t.memory.isLive x) :
    t'.freed = t.freed ∧ t'.memory.stats.freed = t.memory.stats.freed := by
  obtain ⟨group, group', htakes, htakes', hperm⟩ := h.exists_perm h' hlive
  have hfreed : t'.freed = t.freed := by rw [htakes.freed, htakes'.freed, hperm.length_eq]
  have hcounts := h.counts.freed
  have hcounts' := h'.counts.freed
  exact ⟨hfreed, by omega⟩

end Ended

end Release

end Reclamation
