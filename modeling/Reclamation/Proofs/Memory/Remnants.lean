import Mathlib
import Reclamation.Proofs.Memory.Lagging
import Reclamation.Proofs.Memory.SlotRelease

/-!
# What a release leaves of memory

References decide both counts of a symmetric object, one count of a plain one and none of a member of a component,
whose references are counted together. A release leaves everything else of an object alone
(`Object.uncounted`), but for weak fields to what is gone (`Memory.Remnant`). So two releases that leave the same
objects have to be compared by those counts only, and where all counts are right, references tell them.

A step is looked at as the one thing that all steps do: they take out a closed group, after a component may have been
taken off the registry, and give up what the group referred to (`Release.Step.discards`).
-/

set_option autoImplicit false

namespace Reclamation

/-! ## Objects -/

namespace Object

variable {o o' : Object}

/-- An object but for the counts that references to it decide. -/
def uncounted (o : Object) : Object :=
  { o with
    count := if o.symmetric ∨ o.component = none then 0 else o.count
    internal := if o.symmetric then 0 else o.internal }

theorem uncounted_pruned (o : Object) (p : Ref → Bool) : (o.pruned p).uncounted = o.uncounted.pruned p :=
  rfl

theorem strongTargets_eq_of_uncounted {p : Ref → Bool} (h : o'.uncounted = (o.pruned p).uncounted) :
    o'.strongTargets = o.strongTargets := by
  have hfields : o'.uncounted.strongTargets = (o.pruned p).uncounted.strongTargets := by rw [h]
  exact hfields.trans (o.strongTargets_pruned p)

/-- An object is what references do not decide and the counts that they do. -/
theorem eq_of_uncounted (h : o.uncounted = o'.uncounted)
    (hcount : o.symmetric = true ∨ o.component = none → o.count = o'.count)
    (hinternal : o.symmetric = true → o.internal = o'.internal) : o = o' := by
  have hbare : o.uncounted.bare = o'.uncounted.bare := congrArg bare h
  have hsym : o.symmetric = o'.symmetric := congrArg (·.symmetric) h
  have hcomp : o.component = o'.component := congrArg (·.component) h
  refine eq_of_bare hbare ?_ ?_
  · by_cases hdecided : o.symmetric = true ∨ o.component = none
    · exact hcount hdecided
    · have hkept : o.uncounted.count = o'.uncounted.count := by rw [h]
      unfold uncounted at hkept
      dsimp only at hkept
      rwa [if_neg hdecided, if_neg (by rwa [← hsym, ← hcomp])] at hkept
  · by_cases hdecided : o.symmetric = true
    · exact hinternal hdecided
    · have hkept : o.uncounted.internal = o'.uncounted.internal := by rw [h]
      unfold uncounted at hkept
      dsimp only at hkept
      rwa [if_neg hdecided, if_neg (by rwa [← hsym])] at hkept

end Object

namespace Memory

variable {m m' m'' : Memory} {r x : Ref}

/-- No object is new. Of those that are left weak fields to what is gone are emptied, and references to them were
given up; nothing else became of them. -/
def Remnant (m m' : Memory) : Prop :=
  ∀ x o', m'.object? x = some o' →
    ∃ o, m.object? x = some o ∧ o'.uncounted = (o.pruned m'.isLive).uncounted

namespace Remnant

theorem isLive (h : Remnant m m') (hx : m'.isLive x = true) : m.isLive x = true := by
  obtain ⟨o', ho'⟩ := isLive_iff.1 hx
  obtain ⟨o, ho, -⟩ := h x o' ho'
  exact isLive_of_object? ho

theorem strongTargets (h : Remnant m m') (hx : m'.isLive x = true) : m'.strongTargets x = m.strongTargets x := by
  obtain ⟨o', ho'⟩ := isLive_iff.1 hx
  obtain ⟨o, ho, he⟩ := h x o' ho'
  rw [strongTargets_of_object? ho', strongTargets_of_object? ho]
  exact Object.strongTargets_eq_of_uncounted he

/-- What fields refer to they referred to before. -/
theorem refers (h : Remnant m m') {y : Ref} (hyx : x ∈ m'.strongTargets y) : x ∈ m.strongTargets y := by
  rw [← h.strongTargets (isLive_of_mem_strongTargets hyx)]
  exact hyx

theorem exists_object (h : Remnant m m') {o' : Object} (ho' : m'.object? x = some o') :
    ∃ o, m.object? x = some o ∧ o'.symmetric = o.symmetric ∧ o'.component = o.component := by
  obtain ⟨o, ho, he⟩ := h x o' ho'
  exact ⟨o, ho, congrArg (·.symmetric) he, congrArg (·.component) he⟩

/-- The same objects but for counts that references decide. -/
theorem of_uncounted (hw : m.Wired)
    (h : ∀ x, (m'.object? x).map Object.uncounted = (m.object? x).map Object.uncounted) : Remnant m m' := by
  intro x o' ho'
  have hx := h x
  rw [ho', Option.map_some] at hx
  obtain ⟨o, ho, he⟩ := Option.map_eq_some_iff.1 hx.symm
  refine ⟨o, ho, ?_⟩
  rw [Object.pruned_eq_self, he]
  intro i t ht
  have htarget : m.isLive t = true := hw.live x i t (by rw [weakTarget?, ho]; exact ht)
  have hsame := congrArg Option.isSome (h t)
  rw [Option.isSome_map, Option.isSome_map] at hsame
  exact hsame.trans htarget

theorem refl (hw : m.Wired) : Remnant m m :=
  .of_uncounted hw fun _ => rfl

theorem trans (h : Remnant m m') (h' : Remnant m' m'') : Remnant m m'' := by
  intro x o'' ho''
  obtain ⟨o', ho', he'⟩ := h' x o'' ho''
  obtain ⟨o, ho, he⟩ := h x o' ho'
  refine ⟨o, ho, ?_⟩
  have hlive : ∀ t, (m'.isLive t && m''.isLive t) = m''.isLive t := by
    intro t
    cases ht : m''.isLive t with
    | false => rw [Bool.and_false]
    | true => rw [h'.isLive ht, Bool.and_true]
  calc
    o''.uncounted = o'.uncounted.pruned m''.isLive := he'.trans (o'.uncounted_pruned m''.isLive)
    _ = ((o.pruned m'.isLive).pruned m''.isLive).uncounted := by rw [he, ← Object.uncounted_pruned]
    _ = (o.pruned m''.isLive).uncounted := by rw [Object.pruned_pruned, funext hlive]

theorem remove (hw : m.Wired) (hr : m.isLive r = true) : Remnant m (m.remove r) := by
  intro x o' ho'
  rw [object?_remove hw hr] at ho'
  split at ho'
  · exact absurd ho' (by simp)
  · obtain ⟨o, ho, rfl⟩ := Option.map_eq_some_iff.1 ho'
    refine ⟨o, ho, congrArg Object.uncounted ?_⟩
    rw [Object.forget_eq_pruned]
    refine Object.pruned_congr fun i t ht => ?_
    have htarget : m.isLive t = true := hw.live x i t (by rw [weakTarget?, ho]; exact ht)
    have hiff := isLive_remove hw hr t
    rw [and_iff_left htarget] at hiff
    rw [Bool.eq_iff_iff, hiff, bne_iff_ne]

theorem removeAll {group : List Ref} (h : m.Tidy) (hnodup : group.Nodup)
    (hlive : ∀ x ∈ group, m.isLive x = true) : Remnant m (group.foldl Memory.remove m) :=
  Tidy.removeAll_induction (P := fun m group => Remnant m (group.foldl Memory.remove m)) (fun h => .refl h.wired)
    (fun h hr _ hrest => (remove h.wired hr).trans hrest) h hnodup hlive

end Remnant

/-! ## Empty lists -/

/-- An object has a list of the weak fields that refer to it, and there is none on it. -/
def Hollow (m : Memory) (x : Ref) : Prop :=
  x ∈ m.referrers ∧ m.referrers.getD x [] = []

theorem mem_referrers_iff : x ∈ m.referrers ↔ m.referrers.getD x [] ≠ [] ∨ m.Hollow x := by
  constructor
  · intro hx
    by_cases hempty : m.referrers.getD x [] = []
    · exact .inr ⟨hx, hempty⟩
    · exact .inl hempty
  · rintro (hlisted | hhollow)
    · by_contra hx
      exact hlisted (Std.HashMap.getD_eq_fallback hx)
    · exact hhollow.1

theorem hollow_erase : ({ m with referrers := m.referrers.erase r } : Memory).Hollow x ↔ x ≠ r ∧ m.Hollow x := by
  unfold Hollow
  dsimp only
  rw [Std.HashMap.mem_erase, Std.HashMap.getD_erase]
  by_cases hx : r = x
  · simp [hx]
  · simp [hx, Ne.symm hx]

/-- A list from which a field is taken is not left behind empty. -/
theorem hollow_unwatch (holder : Ref) (index : Nat) : (m.unwatch holder index r).Hollow x ↔ x ≠ r ∧ m.Hollow x := by
  unfold Memory.unwatch
  dsimp only
  split
  · exact hollow_erase
  · next hrest =>
    have hlisted : (m.referrers.getD r []).erase (holder, index) ≠ [] := by simpa using hrest
    unfold Hollow
    dsimp only
    rw [Std.HashMap.mem_insert, Std.HashMap.getD_insert]
    by_cases hx : r = x
    · subst hx
      rw [beq_self_eq_true, if_pos rfl]
      exact iff_of_false (fun h => hlisted h.2) fun h => h.1 rfl
    · simp [hx, Ne.symm hx]

theorem hollow_unwatchAll (holder : Ref) : ∀ (targets : List (Nat × Ref)) {m : Memory},
    (targets.foldl (fun m (index, target) => m.unwatch holder index target) m).Hollow x ↔
      (∀ target ∈ targets, x ≠ target.2) ∧ m.Hollow x := by
  intro targets
  induction targets with
  | nil => simp
  | cons target targets ih =>
    intro m
    rw [List.foldl_cons, ih, hollow_unwatch, List.forall_mem_cons]
    tauto

theorem hollow_remove (hw : m.Wired) (hr : m.isLive r = true) : (m.remove r).Hollow x ↔ x ≠ r ∧ m.Hollow x := by
  obtain ⟨o, ho⟩ := isLive_iff.1 hr
  have hvacate : ∀ n : Memory, (n.vacate r o.origin).Hollow x ↔ n.Hollow x := by
    intro n
    unfold vacate
    cases o.origin <;> rfl
  have hclear : (m.clearReferrers r).Hollow x ↔ x ≠ r ∧ m.Hollow x := by
    unfold Hollow
    rw [referrers_clearReferrers]
    exact hollow_erase
  rw [Memory.remove, ho]
  dsimp only
  rw [hvacate, hollow_unwatchAll, hclear, and_iff_right_of_imp]
  -- a target of the object has a list with the object on it
  intro hx target htarget he
  have hweak : m.weakTarget? r target.1 = some x := by
    rw [weakTarget?, ho, Option.bind_some, he]
    exact Object.mem_weakTargets.1 htarget
  have hlisted := hw.mem_iff.2 hweak
  rw [hx.2.2] at hlisted
  exact List.not_mem_nil hlisted

theorem hollow_removeAll {group : List Ref} (h : m.Tidy) (hnodup : group.Nodup)
    (hlive : ∀ x ∈ group, m.isLive x = true) :
    (group.foldl Memory.remove m).Hollow x ↔ x ∉ group ∧ m.Hollow x := by
  refine Tidy.removeAll_induction
    (P := fun m group => (group.foldl Memory.remove m).Hollow x ↔ x ∉ group ∧ m.Hollow x) ?_ ?_ h hnodup hlive
  · intro m _
    simp
  · intro m r group h hr _ hrest
    rw [List.foldl_cons, hrest, hollow_remove h.wired hr, List.mem_cons, not_or]
    tauto

/-! ## Counts -/

/-- Members stay on the list of their component while references are counted. -/
theorem Recounted.enrolled (h : Recounted m m') (henrolled : ∀ x, m.Enrolled x) (x : Ref) : m'.Enrolled x := by
  intro o' id ho' hc
  obtain ⟨o, count, internal, ho, rfl⟩ := h.back ho'
  obtain ⟨e, he, hx⟩ := henrolled x o id ho hc
  obtain ⟨e', he', hmembers⟩ := h.entry_forth he
  exact ⟨e', he', hmembers ▸ hx⟩

theorem Enrolled.countingComponent?_eq {o : Object} (h : m.Enrolled x) (ho : m.object? x = some o) :
    m.countingComponent? o = o.component := by
  refine countingComponent?_eq_component fun id hc => ?_
  obtain ⟨e, he, -⟩ := h o id ho hc
  exact ⟨e, he⟩

/-- An update of counts that references decide. -/
theorem uncounted_update {o : Object} (ho : m.object? r = some o) {f : Object → Object}
    (hf : (f o).uncounted = o.uncounted) (x : Ref) :
    ((m.update r f).object? x).map Object.uncounted = (m.object? x).map Object.uncounted := by
  rw [object?_update]
  split
  · next hx => rw [hx, ho, Option.map_some, Option.map_some, Option.map_some, hf]
  · rfl

end Memory

/-! ## Giving up references -/

namespace Release

open Memory

variable {s t : Release} {r x : Ref} {o : Object}

theorem Lowers.uncounted (hlowers : Lowers s r t) (henrolled : s.memory.Enrolled r) (x : Ref) :
    (t.memory.object? x).map Object.uncounted = (s.memory.object? x).map Object.uncounted := by
  cases hlowers with
  | gone | nothing => rfl
  | @internal o _ _ ho hsym => exact uncounted_update ho (by simp [Object.uncounted, hsym]) x
  | @count o _ _ ho hsym => exact uncounted_update ho (by simp [Object.uncounted, hsym]) x
  | @plain o _ _ ho _ hcounting =>
    rw [henrolled.countingComponent?_eq ho] at hcounting
    exact uncounted_update ho (by simp [Object.uncounted, hcounting]) x
  | component => rfl

/-- Giving up references changes only counts that references decide. -/
theorem remnant_foldlM {drop : Release → Ref → Option Release} {rs : List Ref}
    (hdrop : ∀ {s t : Release} {r : Ref}, drop s r = some t → Lowers s r t) (hw : s.memory.Wired)
    (henrolled : ∀ x, s.memory.Enrolled x) (h : rs.foldlM drop s = some t) : Remnant s.memory t.memory := by
  refine .of_uncounted hw ?_
  refine (foldlM_induction (P := fun u => (∀ x, u.memory.Enrolled x) ∧
    ∀ x, (u.memory.object? x).map Object.uncounted = (s.memory.object? x).map Object.uncounted)
    (fun {u v r} _ hd hu => ?_) h ⟨henrolled, fun _ => rfl⟩).2
  exact ⟨(hdrop hd).recounted.enrolled hu.1, fun x => ((hdrop hd).uncounted (hu.1 r) x).trans (hu.2 x)⟩

/-! ## Steps -/

variable {outer extra : Multiset Ref}

/-- One release is another one after a group of objects was taken out. -/
structure Takes (group : List Ref) (s t : Release) : Prop where
  nodup : group.Nodup
  live : ∀ x ∈ group, s.memory.isLive x = true
  remnant : Remnant s.memory t.memory
  isLive_iff : ∀ x, t.memory.isLive x = true ↔ x ∉ group ∧ s.memory.isLive x = true
  entry : ∀ id e', t.memory.components.entry? id = some e' →
    ∃ e, s.memory.components.entry? id = some e ∧ e.members = e'.members
  hollow : ∀ x, t.memory.Hollow x ↔ x ∉ group ∧ s.memory.Hollow x
  freed : t.freed = s.freed + group.length

namespace Takes

variable {u : Release} {group group' : List Ref}

theorem refl (hw : s.memory.Wired) : Takes [] s s where
  nodup := List.nodup_nil
  live := by simp
  remnant := .refl hw
  isLive_iff := by simp
  entry _ e' he' := ⟨e', he', rfl⟩
  hollow := by simp
  freed := rfl

theorem trans (h : Takes group s t) (h' : Takes group' t u) : Takes (group ++ group') s u where
  nodup := by
    refine List.Nodup.append h.nodup h'.nodup fun x hx hx' => ?_
    exact ((h.isLive_iff x).1 (h'.live x hx')).1 hx
  live x hx := by
    rcases List.mem_append.1 hx with hx | hx
    · exact h.live x hx
    · exact h.remnant.isLive (h'.live x hx)
  remnant := h.remnant.trans h'.remnant
  isLive_iff x := by
    rw [h'.isLive_iff, h.isLive_iff, List.mem_append]
    tauto
  entry id e'' he'' := by
    obtain ⟨e', he', hmembers'⟩ := h'.entry id e'' he''
    obtain ⟨e, he, hmembers⟩ := h.entry id e' he'
    exact ⟨e, he, hmembers.trans hmembers'⟩
  hollow x := by
    rw [h'.hollow, h.hollow, List.mem_append]
    tauto
  freed := by rw [h'.freed, h.freed, List.length_append, Nat.add_assoc]

/-- Giving up references takes out nothing. -/
theorem of_recounted (h : Recounted s.memory t.memory) (hremnant : Remnant s.memory t.memory)
    (hfreed : t.freed = s.freed) : Takes [] s t where
  nodup := List.nodup_nil
  live := by simp
  remnant := hremnant
  isLive_iff x := by simp [h.isLive x]
  entry _ _ he' := h.entry_back he'
  hollow x := by rw [Hollow, Hollow, h.referrers]; simp
  freed := hfreed

end Takes

theorem takes_dropRefs {rs : List Ref} (h : Balanced s outer extra) (hd : rs.foldlM dropRef s = some t) :
    Takes [] s t := by
  refine .of_recounted (recounted_foldlM recounted_dropRef hd) ?_ ?_
  · exact remnant_foldlM lowers_dropRef h.tidy.wired (fun x o id => h.member x o id) hd
  · exact foldlM_induction (P := fun u => u.freed = s.freed) (fun _ hd hu => (lowers_dropRef hd).freed.trans hu) hd rfl

/-- A step takes out a closed group, and nothing else. -/
theorem Step.takes (h : Balanced s outer extra) (hstep : Step s t) : Takes s.group s t := by
  have hclosed := h.closed_group
  obtain ⟨components, work, candidates, u, released, hprepared, hd, rfl⟩ := hstep.discards h
  have htidy := h.tidy.of_components hprepared.sound
  replace hd := discard_eq_some hd
  obtain ⟨hwithout, htidy'⟩ := Without.removeAll htidy hclosed.nodup hclosed.live
  have hremoved := Remnant.removeAll htidy hclosed.nodup hclosed.live
  have hrecounted := recounted_foldlM recounted_dropEdge hd
  have henrolled : ∀ x, (s.group.foldl Memory.remove { s.memory with components }).Enrolled x := by
    intro x o' id ho' hc
    obtain ⟨hout, o, ho, halike⟩ := hwithout.back x o' ho'
    obtain ⟨e, he, hx⟩ := h.member x o id ho (halike.component_eq ▸ hc)
    refine ⟨e, ?_, hx⟩
    rw [hwithout.components]
    exact hprepared.kept id e he x hx hout
  have hgiven := remnant_foldlM lowers_dropEdge htidy'.wired henrolled hd
  have hfreed : u.freed = s.freed + s.group.length :=
    foldlM_induction (P := fun v => v.freed = s.freed + s.group.length)
      (fun _ hd hv => (lowers_dropEdge hd).freed.trans hv) hd rfl
  exact
    { nodup := hclosed.nodup
      live := hclosed.live
      remnant := hremoved.trans hgiven
      isLive_iff := fun x => by
        have hlive := hrecounted.isLive x
        exact (Bool.eq_iff_iff.1 hlive).trans (hwithout.isLive_iff x)
      entry := fun id e' he' => by
        obtain ⟨e, he, hmembers⟩ := hrecounted.entry_back he'
        have hcomponents : (s.group.foldl Memory.remove { s.memory with components }).components = components :=
          hwithout.components
        exact ⟨e, hprepared.back id e (hcomponents ▸ he), hmembers⟩
      hollow := fun x => by
        have hsame : u.memory.Hollow x ↔ (s.group.foldl Memory.remove { s.memory with components }).Hollow x := by
          rw [Hollow, Hollow, hrecounted.referrers]
        exact hsame.trans (hollow_removeAll htidy hclosed.nodup hclosed.live)
      freed := hfreed }

theorem Steps.takes (h : Balanced s outer extra) (hsteps : Steps s t) : ∃ group, Takes group s t := by
  induction hsteps with
  | refl => exact ⟨[], .refl h.tidy.wired⟩
  | tail hsteps hstep ih =>
    obtain ⟨group, htakes⟩ := ih
    exact ⟨_, htakes.trans (hstep.takes (h.steps hsteps))⟩

/-! ## Candidates -/

/-- Only an object to which a reference was given up becomes a candidate. -/
theorem Lowers.candidates (h : Lowers s r t) (hx : x ∈ t.candidates) : x ∈ s.candidates ∨ x = r := by
  have hadded : ∀ {p : Prop} [Decidable p] {candidates : List Ref},
      candidates = (if p then r :: s.candidates else s.candidates) → x ∈ candidates → x ∈ s.candidates ∨ x = r := by
    intro p _ candidates he hx
    rw [he] at hx
    split at hx
    · exact (List.mem_cons.1 hx).symm
    · exact .inl hx
  cases h with
  | internal _ _ _ hcandidates => exact hadded hcandidates hx
  | count _ _ _ hcandidates => exact hadded hcandidates hx
  | gone | nothing | plain | component => exact .inl hx

theorem candidates_foldlM {drop : Release → Ref → Option Release} {rs : List Ref}
    (hdrop : ∀ {s t : Release} {r : Ref}, drop s r = some t → Lowers s r t)
    (hd : rs.foldlM drop s = some t) : ∀ x ∈ t.candidates, x ∈ s.candidates ∨ x ∈ rs := by
  refine foldlM_induction (P := fun u => ∀ x ∈ u.candidates, x ∈ s.candidates ∨ x ∈ rs)
    (fun {u v r} hr hd hu x hx => ?_) hd fun x hx => .inl hx
  rcases (hdrop hd).candidates hx with hx | rfl
  · exact hu x hx
  · exact .inr hr

/-- A step adds to the candidates only what the group that it takes out referred to. -/
theorem Step.candidates (h : Balanced s outer extra) (hstep : Step s t) (hx : x ∈ t.candidates) :
    x ∈ s.candidates ∨ ∃ y ∈ s.group, x ∈ s.memory.strongTargets y := by
  obtain ⟨components, work, candidates, u, released, hprepared, hd, rfl⟩ := hstep.discards h
  rcases candidates_foldlM lowers_dropEdge (discard_eq_some hd) x hx with hx | hx
  · exact .inl (hprepared.mem_candidates hx)
  · rw [targetsOutside_eq] at hx
    exact .inr (List.mem_flatMap.1 (List.mem_filter.1 hx).1)

end Release

end Reclamation
