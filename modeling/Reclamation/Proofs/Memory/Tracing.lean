import Mathlib
import Reclamation.Proofs.Memory.Release

/-!
# No orphan is overlooked

The search for orphans starts from candidates only, and it looks only at symmetric objects without a
reference of the program, the unowned ones. So whether it finds all of them depends on what the
candidates are. `Traced` says that there are enough: every unowned object is `Rooted`, that is, one can
go back from it, from field to field and through unowned objects only, to a candidate, to a reference
that is still to be given up, or to a field whose holder is not unowned.

All that happens to a release either leaves the fields alone or puts what they referred to on the
ledger of what is still to be given up, and an object that becomes unowned is a candidate. That is why
one lemma (`Rooted.mono`) does for all steps but one. The exception is the search for orphans, after
which there are no candidates: it takes out all objects that can be traced back to candidates only
(`Balanced.rooted_of_not_mem_orphans`).
-/

set_option autoImplicit false

namespace Reclamation

namespace Memory

variable {m m' : Memory} {roots roots' : Ref → Prop} {x : Ref}

/-- An object is a root, or a field refers to it whose holder is rooted unless it is not unowned. -/
inductive Rooted (m : Memory) (roots : Ref → Prop) : Ref → Prop
  | root {x : Ref} : roots x → Rooted m roots x
  | field {y x : Ref} : x ∈ m.strongTargets y → (m.isUnowned y = true → Rooted m roots y) →
      Rooted m roots x

/-- Objects stay rooted if what fields refer to is not lost and what gets unowned is a root. -/
theorem Rooted.mono (h : Rooted m roots x) (hroots : ∀ a, roots a → m'.isUnowned a = true → roots' a)
    (hfields : ∀ y a, a ∈ m.strongTargets y → m'.isUnowned a = true → a ∈ m'.strongTargets y ∨ roots' a)
    (hunowned : ∀ a, m'.isUnowned a = true → m.isUnowned a = true ∨ roots' a)
    (hx : m'.isUnowned x = true) : Rooted m' roots' x := by
  induction h with
  | root hr => exact .root (hroots _ hr hx)
  | @field y x hyx _ ih =>
    rcases hfields y x hyx hx with hyx' | hroot
    · refine .field hyx' fun hy => ?_
      rcases hunowned y hy with hy' | hroot
      · exact ih hy' hy
      · exact .root hroot
    · exact .root hroot

/-! ## Which objects are unowned -/

theorem isUnowned_congr (h : m'.object? x = m.object? x) : m'.isUnowned x = m.isUnowned x := by
  rw [isUnowned, isUnowned, h]

theorem isLive_of_isUnowned (h : m.isUnowned x = true) : m.isLive x = true := by
  obtain ⟨o, ho, -⟩ := isUnowned_iff.1 h
  exact isLive_of_object? ho

/-- A change to one object makes no other unowned. -/
theorem isUnowned_update {r : Ref} {o : Object} (ho : m.object? r = some o) {f : Object → Object}
    (h : (m.update r f).isUnowned x = true) :
    (x = r ∧ (f o).symmetric = true ∧ (f o).count = 0) ∨ (x ≠ r ∧ m.isUnowned x = true) := by
  obtain ⟨o', ho', hs, hc⟩ := isUnowned_iff.1 h
  rcases Balanced.object?_update_cases ho ho' with ⟨rfl, rfl⟩ | ⟨hx, ho'⟩
  · exact .inl ⟨rfl, hs, hc⟩
  · exact .inr ⟨hx, isUnowned_iff.2 ⟨o', ho', hs, hc⟩⟩

theorem Without.isUnowned {group : List Ref} (h : Without group m m') (hx : m'.isUnowned x = true) :
    x ∉ group ∧ m.isUnowned x = true := by
  obtain ⟨o', ho', hs, hc⟩ := isUnowned_iff.1 hx
  obtain ⟨hg, o, ho, halike⟩ := h.back x o' ho'
  exact ⟨hg, isUnowned_iff.2 ⟨o, ho, halike.symmetric_eq ▸ hs, halike.count_eq ▸ hc⟩⟩

end Memory

/-! ## Every unowned object is rooted -/

/-- Every unowned object can be traced back. -/
def Traced (s : Release) (extra : Multiset Ref) : Prop :=
  ∀ x, s.memory.isUnowned x = true → s.memory.Rooted (fun a => a ∈ s.candidates ∨ a ∈ extra) x

namespace Traced

open Memory

variable {s t : Release} {extra extra' : Multiset Ref} {r : Ref}

theorem mono (h : Traced s extra)
    (hroots : ∀ a, a ∈ s.candidates ∨ a ∈ extra → t.memory.isUnowned a = true →
      a ∈ t.candidates ∨ a ∈ extra')
    (hfields : ∀ y a, a ∈ s.memory.strongTargets y →
      a ∈ t.memory.strongTargets y ∨ a ∈ t.candidates ∨ a ∈ extra')
    (hunowned : ∀ a, t.memory.isUnowned a = true →
      s.memory.isUnowned a = true ∨ a ∈ t.candidates ∨ a ∈ extra') : Traced t extra' := by
  intro x hx
  rcases hunowned x hx with hx' | hroot
  · exact (h x hx').mono hroots (fun y a ha _ => hfields y a ha) hunowned hx
  · exact .root hroot

/-- It matters neither which components there are nor what was counted. -/
theorem of_objects (h : Traced s extra) (hobject : ∀ x, t.memory.object? x = s.memory.object? x)
    (hcandidates : t.candidates = s.candidates) : Traced t extra := by
  refine h.mono (fun a ha _ => hcandidates ▸ ha) (fun y a ha => .inl ?_) fun a ha => .inl ?_
  · rw [strongTargets, hobject]
    exact ha
  · rwa [isUnowned_congr (hobject a)] at ha

/-! ## Giving up references -/

theorem dropCount (h : Traced s extra) {o : Object} (ho : s.memory.object? r = some o)
    (hsym : o.symmetric = false) (hd : s.dropCount r o = some t) :
    Traced t extra ∧ t.candidates = s.candidates ∧
      ∀ a, t.memory.isUnowned a = true → s.memory.isUnowned a = true := by
  unfold Release.dropCount at hd
  split at hd
  · next id _ =>
    have hsame : (∀ x, t.memory.object? x = s.memory.object? x) ∧ t.candidates = s.candidates := by
      rw [← Option.some.inj hd]
      unfold Release.lowerComponent
      dsimp only
      split <;> exact ⟨fun _ => rfl, rfl⟩
    obtain ⟨hobject, hcandidates⟩ := hsame
    refine ⟨h.of_objects hobject hcandidates, hcandidates, fun a ha => ?_⟩
    rwa [isUnowned_congr (hobject a)] at ha
  · obtain ⟨count, -, rfl⟩ := Option.map_eq_some_iff.1 hd
    have hunowned : ∀ a, (s.memory.update r fun o => { o with count }).isUnowned a = true →
        s.memory.isUnowned a = true := fun a ha => by
      rcases isUnowned_update ho ha with ⟨-, hs, -⟩ | ⟨-, ha⟩
      · rw [hsym] at hs
        exact absurd hs (by decide)
      · exact ha
    have hfields : ∀ y, (s.memory.update r fun o => { o with count }).strongTargets y =
        s.memory.strongTargets y := strongTargets_update s.memory r fun _ => rfl
    dsimp only
    split <;>
      exact ⟨h.mono (fun a ha _ => ha) (fun y a ha => .inl (by rw [hfields]; exact ha)) fun a ha =>
        .inl (hunowned a ha), rfl, hunowned⟩

theorem dropEdge (h : Traced s (r ::ₘ extra))
    (harena : ∀ o, s.memory.object? r = some o → o.arena? = none) (hd : s.dropEdge r = some t) :
    Traced t extra := by
  -- unless it is unowned the object is no root
  have hskip : ∀ {u : Release}, (∀ a, u.memory.isUnowned a = true → s.memory.isUnowned a = true) →
      (∀ y, u.memory.strongTargets y = s.memory.strongTargets y) →
      (∀ a ∈ s.candidates, a ∈ u.candidates) →
      (u.memory.isUnowned r = true → r ∈ u.candidates) → Traced u extra := by
    intro u hunowned hfields hcandidates hr
    refine h.mono (fun a ha hu => ?_) (fun y a ha => .inl (hfields y ▸ ha)) fun a ha =>
      .inl (hunowned a ha)
    rcases ha with ha | ha
    · exact .inl (hcandidates a ha)
    · rcases Multiset.mem_cons.1 ha with rfl | ha
      · exact .inl (hr hu)
      · exact .inr ha
  unfold Release.dropEdge at hd
  cases ho : s.memory.object? r with
  | none =>
    rw [ho] at hd
    obtain rfl := Option.some.inj hd
    refine hskip (fun _ => id) (fun _ => rfl) (fun _ => id) fun hr => ?_
    rw [Memory.isUnowned, ho] at hr
    exact absurd hr Bool.false_ne_true
  | some o =>
    simp only [ho, harena o ho, Option.isSome_none, Bool.false_eq_true, ↓reduceIte] at hd
    by_cases hsym : o.symmetric = true
    · rw [if_pos hsym] at hd
      obtain ⟨internal, -, rfl⟩ := Option.map_eq_some_iff.1 hd
      have hunowned : ∀ a, (s.memory.update r fun o => { o with internal }).isUnowned a = true →
          s.memory.isUnowned a = true ∧ (a = r → o.count = 0) := fun a ha => by
        rcases isUnowned_update ho ha with ⟨rfl, hs, hc⟩ | ⟨hne, ha⟩
        · exact ⟨isUnowned_iff.2 ⟨o, ho, hs, hc⟩, fun _ => hc⟩
        · exact ⟨ha, fun e => absurd e hne⟩
      have hfields := strongTargets_update s.memory r (f := fun o => { o with internal }) fun _ => rfl
      split
      · exact hskip (fun a ha => (hunowned a ha).1) hfields (fun _ => List.mem_cons_of_mem _)
          fun _ => List.mem_cons_self
      · next hc =>
        exact hskip (fun a ha => (hunowned a ha).1) hfields (fun _ => id) fun hr =>
          absurd ((hunowned r hr).2 rfl) hc
    · rw [if_neg hsym] at hd
      have hsym' : o.symmetric = false := by simpa using hsym
      obtain ⟨-, hcandidates, hunowned⟩ := h.dropCount ho hsym' hd
      have hrecounted := (Release.lowers_dropCount ho hsym' hd).recounted
      refine hskip hunowned hrecounted.strongTargets (fun a ha => hcandidates ▸ ha) fun hr => ?_
      have := hunowned r hr
      simp [Memory.isUnowned, ho, hsym'] at this

theorem dropRef (h : Traced s extra) (hd : s.dropRef r = some t) : Traced t extra := by
  unfold Release.dropRef at hd
  split at hd
  · rw [← Option.some.inj hd]
    exact h.of_objects (fun _ => rfl) rfl
  · next o ho =>
    split at hd
    · rw [← Option.some.inj hd]
      exact h
    · split at hd
      · obtain ⟨count, -, rfl⟩ := Option.map_eq_some_iff.1 hd
        have hfields := strongTargets_update s.memory r (f := fun o => { o with count }) fun _ => rfl
        dsimp only
        split
        · refine h.mono (fun a ha _ => ha.imp_left (List.mem_cons_of_mem _))
            (fun y a ha => .inl (by rw [hfields]; exact ha)) fun a ha => ?_
          rcases isUnowned_update ho ha with ⟨rfl, -, -⟩ | ⟨-, ha⟩
          · exact .inr (.inl List.mem_cons_self)
          · exact .inl ha
        · next hc =>
          refine h.mono (fun a ha _ => ha) (fun y a ha => .inl (by rw [hfields]; exact ha))
            fun a ha => ?_
          rcases isUnowned_update ho ha with ⟨-, -, hc'⟩ | ⟨-, ha⟩
          · exact absurd hc' hc
          · exact .inl ha
      · next hsym => exact (h.dropCount ho (by simpa using hsym) hd).1

theorem dropEdges : ∀ {targets : List Ref} {s : Release},
    (∀ x o, s.memory.object? x = some o → o.arena? = none) → Traced s (↑targets + extra) →
      targets.foldlM Release.dropEdge s = some t → Traced t extra
  | [], s, _, h, hd => by
    rw [← Option.some.inj hd]
    simpa using h
  | r :: targets, s, harena, h, hd => by
    rw [List.foldlM_cons] at hd
    obtain ⟨u, hu, hrest⟩ := Option.bind_eq_some_iff.1 hd
    rw [← Multiset.cons_coe, Multiset.cons_add] at h
    have harena' : ∀ x o, u.memory.object? x = some o → o.arena? = none := fun x o' ho' => by
      obtain ⟨o, count, internal, ho, rfl⟩ := (Release.recounted_dropEdge hu).back ho'
      exact harena x o ho
    exact dropEdges harena' (h.dropEdge (harena r) hu) hrest

theorem dropRefs {targets : List Ref} (h : Traced s extra) (hd : targets.foldlM Release.dropRef s = some t) :
    Traced t extra :=
  Release.foldlM_induction (P := fun u => Traced u extra) (fun _ hd hu => hu.dropRef hd) hd h

/-! ## Taking out a group -/

/-- What the group referred to is given up, so it is rooted until then. -/
theorem discard {group : List Ref} (htidy : s.memory.Tidy)
    (h : ∀ x, s.memory.isUnowned x = true → x ∉ group →
      s.memory.Rooted (fun a => a ∈ s.candidates ∨ a ∈ extra) x)
    (hd : s.discard group = some t) : Traced t extra := by
  obtain ⟨hnodup, hlive⟩ := Release.nodup_live_of_discard htidy hd
  obtain ⟨hwithout, htidy'⟩ := Without.removeAll htidy hnodup hlive
  refine dropEdges htidy'.no_arena (fun x hx => ?_) (Release.discard_eq_some hd)
  obtain ⟨hout, hun⟩ := hwithout.isUnowned hx
  refine (h x hun hout).mono (fun a ha _ => ?_) (fun y a ha hun' => ?_)
    (fun a ha => .inl (hwithout.isUnowned ha).2) hx
  · exact ha.imp_right fun ha => Multiset.mem_add.2 (.inr ha)
  · rw [hwithout.strongTargets]
    split
    · next hy =>
      -- what is unowned afterwards is not in the group
      have hout' : a ∉ group := (hwithout.isUnowned hun').1
      refine .inr (.inr (Multiset.mem_add.2 (.inl ?_)))
      rw [Release.targetsOutside_eq, Multiset.mem_coe, List.mem_filter]
      exact ⟨List.mem_flatMap.2 ⟨y, hy, ha⟩, decide_eq_true hout'⟩
    · exact .inl ha

end Traced

namespace Balanced

open Memory Release

variable {s t : Release} {outer extra roots : Multiset Ref}

/-- What was found is traced back to candidates, everything else to something else. -/
theorem mem_found_or_rooted {roots : Ref → Prop} {candidates : List Ref} {x : Ref}
    (h : s.memory.Rooted (fun a => a ∈ candidates ∨ roots a) x) (hx : s.memory.isUnowned x = true) :
    x ∈ s.memory.found candidates ∨ s.memory.Rooted roots x := by
  induction h with
  | @root x hr =>
    rcases hr with hr | hr
    · exact .inl (mem_found_iff.2 ⟨x, hr, hx, .refl x⟩)
    · exact .inr (.root hr)
  | @field y x hyx _ ih =>
    by_cases hy : s.memory.isUnowned y = true
    · rcases ih hy hy with hfound | hrooted
      · exact .inl (mem_found_of_edge hfound hyx hx)
      · exact .inr (.field hyx fun _ => hrooted)
    · exact .inr (.field hyx fun hy' => absurd hy' hy)

theorem rooted_of_reaches {roots : Ref → Prop} {x y : Ref} (h : s.memory.unownedGraph.Reaches x y)
    (hx : s.memory.Rooted roots x) : s.memory.Rooted roots y := by
  induction h with
  | refl => exact hx
  | step hedge _ ih => exact ih (.field (unownedGraph_edge_iff.1 hedge).1 fun _ => hx)

/-- An unowned object that is no orphan does not need the candidates to be traced back. -/
theorem rooted_of_not_mem_orphans (h : Balanced s outer extra) (hroots : extra ⊆ roots) (htraced : Traced s roots)
    {x : Ref} (hx : s.memory.isUnowned x = true) (hnot : x ∉ s.memory.orphans s.candidates) :
    s.memory.Rooted (· ∈ roots) x := by
  rcases mem_found_or_rooted (htraced x hx) hx with hfound | hrooted
  · obtain ⟨g, hg, hheld, hgx⟩ : ∃ g ∈ s.memory.found s.candidates,
        s.memory.IsHeld s.candidates g ∧ s.memory.unownedGraph.Reaches g x := by
      by_contra hnone
      exact hnot (mem_orphans_iff.2 ⟨hfound, hnone⟩)
    refine rooted_of_reaches hgx ?_
    rcases (h.isHeld_iff hg).1 hheld with hextra | hout
    · exact .root (hroots hextra)
    · -- the field that holds it belongs to no object that was found
      obtain ⟨y, hy, hgy⟩ := mem_referencesOutside.1 hout
      refine .field hgy fun hun => ?_
      rcases mem_found_or_rooted (htraced y hun) hun with hfound' | hrooted
      · exact absurd hfound' hy
      · exact hrooted
  · exact hrooted

/-- A step overlooks nothing. What is still to be given up is among the roots; there may be others. -/
theorem traced_step (h : Balanced s outer extra) (hroots : extra ⊆ roots) (htraced : Traced s roots)
    (hstep : Step s t) : Traced t roots := by
  obtain ⟨components, work, candidates, u, released, hprepared, hd, rfl⟩ := hstep.discards h
  have htidy := h.tidy.of_components hprepared.sound
  have hdiscarded : Traced u roots := by
    refine Traced.discard htidy (fun x hx hnot => ?_) hd
    rcases hprepared.candidates with rfl | ⟨rfl, hgroup⟩
    · have hsame : Traced { s with memory := { s.memory with components }, work } roots :=
        htraced.of_objects (fun _ => rfl) rfl
      exact hsame x hx
    · rw [hgroup] at hnot
      exact (h.rooted_of_not_mem_orphans hroots htraced hx hnot).mono (fun a ha _ => .inr ha)
        (fun y a ha _ => .inl ha) (fun a ha => .inl ha) hx
  exact hdiscarded.of_objects (fun _ => rfl) rfl

theorem traced_steps (h : Balanced s outer extra) (hroots : extra ⊆ roots) (htraced : Traced s roots)
    (hsteps : Steps s t) : Traced t roots := by
  induction hsteps with
  | refl => exact htraced
  | tail hsteps hstep ih => exact (h.steps hsteps).traced_step hroots ih hstep

end Balanced

/-! ## Memory between two operations -/

/-- Nothing is due, all counts are right, and no orphan is overlooked. -/
structure Memory.Settled (m : Memory) (outer : Multiset Ref) : Prop where
  balanced : Balanced { memory := m } outer 0
  traced : Traced { memory := m } 0

theorem Memory.Settled.of_objects {m m' : Memory} {outer : Multiset Ref} (h : m.Settled outer)
    (hobject : ∀ x, m'.object? x = m.object? x) (hcomponents : m'.components = m.components) (htidy : m'.Tidy) :
    m'.Settled outer :=
  ⟨h.balanced.of_objects hobject hcomponents htidy, h.traced.of_objects hobject rfl⟩

/-- A release in balanced memory that leaves settled memory. -/
structure Release.Settles (s : Release) (outer : Multiset Ref) : Prop where
  balanced : Balanced s outer 0
  ends : ∃ t, Steps s t ∧ s.run = some t ∧ t.memory.Settled outer

theorem Balanced.settles {s : Release} {outer : Multiset Ref} (h : Balanced s outer 0)
    (htraced : Traced s 0) : s.Settles outer := by
  refine ⟨h, ?_⟩
  obtain ⟨t, hsteps, hfinished, hrun, hbal⟩ := h.run
  have htraced' := h.traced_steps (Multiset.zero_subset 0) htraced hsteps
  refine ⟨t, hsteps, hrun, ?_⟩
  obtain ⟨m, work, candidates, freed, stale⟩ := t
  obtain ⟨rfl, rfl⟩ := hfinished
  exact ⟨{ hbal with stale := rfl }, htraced'⟩

end Reclamation
