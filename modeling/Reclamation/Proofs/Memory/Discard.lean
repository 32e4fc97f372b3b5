import Mathlib
import Reclamation.Proofs.Memory.Counting

/-!
# Taking out a closed group

A group of objects is `Closed` if its members have no references but those from members. Taking out
such a group leaves no reference to anything that is gone, and the references that the group had to
the rest go onto the ledger of what is still to be given up (`Balanced.without`); giving them up
brings that ledger back to where it was (`Balanced.discard`).

Three kinds of groups are taken out: one object without references, the members of a component without
references, and orphans. Only the second takes a component out of the registry.
-/

set_option autoImplicit false

namespace Reclamation

/-- All references to members of a group are from fields of members. -/
structure Closed (m : Memory) (outer extra : Multiset Ref) (group : List Ref) : Prop where
  nodup : group.Nodup
  live : ∀ x ∈ group, m.isLive x = true
  closed : ∀ x ∈ group, (outer + extra + m.references).count x =
    (group.flatMap m.strongTargets).count x

namespace Closed

open Memory

variable {m : Memory} {outer extra : Multiset Ref} {group : List Ref} {x : Ref}

theorem not_mem_of_mem (h : Closed m outer extra group) (hx : x ∈ group) :
    x ∉ outer ∧ x ∉ extra ∧ x ∉ m.referencesOutside group := by
  have hcount := h.closed x hx
  rw [m.references_eq_add h.nodup h.live] at hcount
  simp only [Multiset.count_add, Multiset.coe_count] at hcount
  simp only [← Multiset.count_eq_zero]
  omega

/-- Members are referred to by members only. -/
theorem mem_of_mem_strongTargets (h : Closed m outer extra group) (hx : x ∈ group) {y : Ref}
    (hy : x ∈ m.strongTargets y) : y ∈ group := by
  by_contra hnot
  exact (h.not_mem_of_mem hx).2.2 (mem_referencesOutside.2 ⟨y, hnot, hy⟩)

/-- A group without references. -/
theorem of_not_mem (hnodup : group.Nodup) (hlive : ∀ x ∈ group, m.isLive x = true)
    (houter : ∀ x ∈ group, x ∉ outer) (hextra : ∀ x ∈ group, x ∉ extra)
    (houtside : ∀ x ∈ group, x ∉ m.referencesOutside group) : Closed m outer extra group := by
  refine ⟨hnodup, hlive, fun x hx => ?_⟩
  rw [m.references_eq_add hnodup hlive]
  have h₁ := Multiset.count_eq_zero.2 (houter x hx)
  have h₂ := Multiset.count_eq_zero.2 (hextra x hx)
  have h₃ := Multiset.count_eq_zero.2 (houtside x hx)
  simp only [Multiset.count_add, Multiset.coe_count, h₁, h₂, h₃]
  omega

end Closed

namespace Memory

variable {m m' : Memory} {components : ComponentRegistry} {outer extra : Multiset Ref} {group : List Ref} {x : Ref}

/-- An object that stays has the references it had, those that the group is still to give up among them. -/
theorem Without.count_references (h : Without group { m with components } m') (hnodup : group.Nodup)
    (hlive : ∀ x ∈ group, m.isLive x = true) (hx : m'.isLive x = true) (outer extra : Multiset Ref) :
    (outer + (↑((group.flatMap m.strongTargets).filter (· ∉ group)) + extra) + m'.references).count x =
      (outer + extra + m.references).count x := by
  have hrefs : m.references = m'.references + ↑(group.flatMap m.strongTargets) := h.references hnodup hlive
  have hfilter : ((group.flatMap m.strongTargets).filter (· ∉ group)).count x =
      (group.flatMap m.strongTargets).count x := List.count_filter (by simpa using ((h.isLive_iff x).1 hx).1)
  rw [hrefs]
  simp only [Multiset.count_add, Multiset.coe_count]
  omega

/-- So has a component that stays. -/
theorem Without.countP_referencesOutside (h : Without group { m with components } m') (hnodup : group.Nodup)
    (hlive : ∀ x ∈ group, m.isLive x = true) {members : List Ref} (hdisj : List.Disjoint group members)
    (outer extra : Multiset Ref) :
    (outer + extra + m.referencesOutside members).countP (· ∈ members) =
      (outer + (↑((group.flatMap m.strongTargets).filter (· ∉ group)) + extra) +
        m'.referencesOutside members).countP (· ∈ members) := by
  have houtside : m.referencesOutside members = m'.referencesOutside members + ↑(group.flatMap m.strongTargets) :=
    h.referencesOutside hnodup hlive hdisj
  refine countP_mem_congr fun x hx => ?_
  have hx' : x ∉ group := fun hg => hdisj hg hx
  have hfilter : ((group.flatMap m.strongTargets).filter (· ∉ group)).count x =
      (group.flatMap m.strongTargets).count x := List.count_filter (by simpa using hx')
  rw [houtside]
  simp only [Multiset.count_add, Multiset.coe_count]
  omega

/-- What waits to be given up was referred to by the group or waited before, and it is there. -/
theorem Without.isLive_of_mem (h : Without group { m with components } m') (hgroup : Closed m outer extra group)
    (htargets : ∀ x y, y ∈ m.strongTargets x → m.isLive y = true) (hledger : ∀ x ∈ outer + extra, m.isLive x = true)
    (hx : x ∈ outer + (↑((group.flatMap m.strongTargets).filter (· ∉ group)) + extra)) : m'.isLive x = true := by
  rw [Multiset.mem_add, Multiset.mem_add, Multiset.mem_coe, List.mem_filter] at hx
  rcases hx with hx | ⟨hx, hout⟩ | hx
  · exact (h.isLive_iff x).2 ⟨fun hg => (hgroup.not_mem_of_mem hg).1 hx, hledger x (Multiset.mem_add.2 (.inl hx))⟩
  · obtain ⟨y, -, hy⟩ := List.mem_flatMap.1 hx
    exact (h.isLive_iff x).2 ⟨of_decide_eq_true hout, htargets y x hy⟩
  · exact (h.isLive_iff x).2 ⟨fun hg => (hgroup.not_mem_of_mem hg).2.1 hx, hledger x (Multiset.mem_add.2 (.inr hx))⟩

end Memory

namespace Balanced

open Memory

variable {s : Release} {outer extra : Multiset Ref} {group : List Ref}

/-- What is left when a closed group is taken out. -/
theorem without (h : Balanced s outer extra) (hgroup : Closed s.memory outer extra group)
    {components : ComponentRegistry} {m : Memory}
    (hwithout : Without group { s.memory with components } m) (htidy : m.Tidy)
    (hkept : ∀ id e, components.entry? id = some e →
      s.memory.components.entry? id = some e ∧ List.Disjoint group e.members)
    (hended : ∀ id e, s.memory.components.entry? id = some e → ∀ r ∈ e.members, r ∉ group →
      components.entry? id = some e)
    {work : List Doomed} (hnodup : work.Nodup)
    (hobject : ∀ r, .object r ∈ work ↔ .object r ∈ s.work ∧ r ∉ group)
    (hcomponent : ∀ id, .component id ∈ work ↔
      .component id ∈ s.work ∧ ∃ e, components.entry? id = some e)
    {candidates : List Ref} (hcandidates : ∀ r ∈ candidates, r ∈ s.candidates ∧ r ∉ group)
    (freed : Nat) :
    Balanced { s with memory := m, work, candidates, freed } outer
      (↑((group.flatMap s.memory.strongTargets).filter (· ∉ group)) + extra) := by
  have hcomponents : m.components = components := hwithout.components
  have hback : ∀ {r o'}, m.object? r = some o' →
      r ∉ group ∧ ∃ o, s.memory.object? r = some o ∧ o.Alike o' := hwithout.back _ _
  exact
    { tidy := htidy
      targets_live := fun x y hy => by
        rw [hwithout.strongTargets] at hy
        split at hy
        · exact absurd hy (by simp)
        · next hx =>
          exact (hwithout.isLive_iff y).2
            ⟨fun hg => hx (hgroup.mem_of_mem_strongTargets hg hy), h.targets_live x y hy⟩
      ledger_live := fun x hx => hwithout.isLive_of_mem hgroup h.targets_live h.ledger_live hx
      plain := fun r o' ho' hs hc hw => by
        obtain ⟨hg, o, ho, halike⟩ := hback ho'
        rw [hwithout.count_references hgroup.nodup hgroup.live (isLive_of_object? ho'), halike.count_eq]
        exact h.plain r o ho (halike.symmetric_eq ▸ hs) (halike.component_eq ▸ hc) fun hd =>
          hw ((hobject r).2 ⟨hd, hg⟩)
      plain_due := fun r o' ho' hs hc => by
        obtain ⟨hg, o, ho, halike⟩ := hback ho'
        rw [hwithout.count_references hgroup.nodup hgroup.live (isLive_of_object? ho'), hobject, and_iff_left hg]
        exact h.plain_due r o ho (halike.symmetric_eq ▸ hs) (halike.component_eq ▸ hc)
      symmetric := fun r o' ho' hs => by
        obtain ⟨-, o, ho, halike⟩ := hback ho'
        obtain ⟨hc, hcnt, hint⟩ := h.symmetric r o ho (halike.symmetric_eq ▸ hs)
        have hinner := hwithout.count_references hgroup.nodup hgroup.live (isLive_of_object? ho') 0 extra
        rw [zero_add, zero_add] at hinner
        exact ⟨halike.component_eq.trans hc, by rw [halike.count_eq, hcnt],
          by rw [halike.internal_eq, hint, hinner]⟩
      member := fun r o' id ho' hc => by
        obtain ⟨hg, o, ho, halike⟩ := hback ho'
        obtain ⟨e, he, hr⟩ := h.member r o id ho (halike.component_eq ▸ hc)
        exact ⟨e, by rw [hcomponents]; exact hended id e he r hr hg, hr⟩
      component := fun id e he => by
        obtain ⟨he, hdisj⟩ := hkept id e (hcomponents ▸ he)
        refine (h.component id e he).of_members fun r hr o ho _ => ?_
        obtain ⟨o', ho', halike⟩ := hwithout.kept r (fun hg => hdisj hg hr) o ho
        exact ⟨o', ho', halike.symmetric_eq, halike.component_eq, halike.frozen_eq, halike.2⟩
      external := fun id e he => by
        obtain ⟨he, hdisj⟩ := hkept id e (hcomponents ▸ he)
        rw [h.external id e he]
        exact hwithout.countP_referencesOutside hgroup.nodup hgroup.live hdisj outer extra
      external_due := fun id e he => by
        obtain ⟨he₀, -⟩ := hkept id e (hcomponents ▸ he)
        rw [hcomponent, and_iff_left ⟨e, hcomponents ▸ he⟩]
        exact h.external_due id e he₀
      work_nodup := hnodup
      work_object := fun r hr => by
        obtain ⟨hr, hg⟩ := (hobject r).1 hr
        obtain ⟨o, ho, hs, hc⟩ := h.work_object r hr
        obtain ⟨o', ho', halike⟩ := hwithout.kept r hg o ho
        exact ⟨o', ho', halike.symmetric_eq.trans hs, halike.component_eq.trans hc⟩
      work_component := fun id hid => by
        rw [hcomponents]
        exact ((hcomponent id).1 hid).2
      candidates := fun r hr => by
        obtain ⟨hr, hg⟩ := hcandidates r hr
        obtain ⟨o, ho, hs⟩ := h.candidates r hr
        obtain ⟨o', ho', halike⟩ := hwithout.kept r hg o ho
        exact ⟨o', ho', halike.symmetric_eq.trans hs⟩
      stale := h.stale }

/-- What discarding a closed group comes to. The components may have been changed just before. -/
theorem discard (h : Balanced s outer extra) (hgroup : Closed s.memory outer extra group)
    {components : ComponentRegistry} (hsound : components.Sound)
    (hkept : ∀ id e, components.entry? id = some e →
      s.memory.components.entry? id = some e ∧ List.Disjoint group e.members)
    (hended : ∀ id e, s.memory.components.entry? id = some e → ∀ r ∈ e.members, r ∉ group →
      components.entry? id = some e)
    {work : List Doomed} (hnodup : work.Nodup)
    (hobject : ∀ r, .object r ∈ work ↔ .object r ∈ s.work ∧ r ∉ group)
    (hcomponent : ∀ id, .component id ∈ work ↔
      .component id ∈ s.work ∧ ∃ e, components.entry? id = some e)
    {candidates : List Ref} (hcandidates : ∀ r ∈ candidates, r ∈ s.candidates ∧ r ∉ group) :
    ∃ t, ({ s with memory := { s.memory with components }, work, candidates } : Release).discard
      group = some t ∧ Balanced t outer extra := by
  have htidy := h.tidy.of_components hsound
  obtain ⟨hwithout, htidy'⟩ := Without.removeAll htidy hgroup.nodup hgroup.live
  have hbal := h.without hgroup hwithout htidy' hkept hended hnodup hobject hcomponent hcandidates
    (s.freed + group.length)
  obtain ⟨t, ht, hbal'⟩ := dropEdges hbal
  refine ⟨t, ?_, hbal'⟩
  rw [Release.discard_eq (s := { s with memory := { s.memory with components }, work, candidates }) htidy
    hgroup.nodup hgroup.live, Release.targetsOutside_eq]
  exact ht

end Balanced

end Reclamation
