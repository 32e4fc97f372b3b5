import Mathlib
import Reclamation.Proofs.Memory.Ledger

/-!
# Taking and giving up references

One lemma for each operation on a single reference: in balanced memory giving up a reference that is
on a ledger never breaks off, and takes it off the ledger (`dropEdge`, `dropRef`); taking a reference
to a live object puts it on the ledger (`acquire`, `acquireEdge`), as long as the count it raises is
below the width of its word.
-/

set_option autoImplicit false

namespace Reclamation

/-! ## Counts are words -/

theorem lowered?_of_ne_zero (shared : Bool) {count : UInt32} (h : count ≠ 0) :
    lowered? shared count = some (count - 1) := by
  simp [lowered?, h]

theorem ne_zero_of_toNat {count : UInt32} {n : Nat} (h : count.toNat = n + 1) : count ≠ 0 := by
  rintro rfl
  exact absurd h (by simp)

theorem toNat_sub_one {count : UInt32} {n : Nat} (h : count.toNat = n + 1) :
    (count - 1).toNat = n := by
  have hle : (1 : UInt32) ≤ count := by
    rw [UInt32.le_iff_toNat_le, h]
    simp
  rw [UInt32.toNat_sub_of_le _ _ hle, h]
  rfl

theorem toNat_add_one {count : UInt32} (h : count.toNat + 1 < UInt32.size) :
    (count + 1).toNat = count.toNat + 1 := by
  rw [UInt32.toNat_add]
  exact Nat.mod_eq_of_lt h

theorem eq_zero_iff_toNat {count : UInt32} : count = 0 ↔ count.toNat = 0 := by
  rw [← UInt32.toNat_inj]
  rfl

namespace Memory

/-- The count that another reference of the program raises is below the width of its word. -/
def CanAcquire (m : Memory) (r : Ref) : Prop :=
  ∀ o, m.object? r = some o → o.component = none → o.count.toNat + 1 < UInt32.size

/-- The count that another reference of a field raises is below the width of its word. -/
def CanRefer (m : Memory) (r : Ref) : Prop :=
  ∀ o, m.object? r = some o → o.component = none →
    (if o.symmetric then o.internal else o.count).toNat + 1 < UInt32.size

end Memory

namespace Balanced

open Memory

variable {s t : Release} {outer extra outer' extra' : Multiset Ref} {r : Ref} {o : Object}

/-! ## Giving up -/

/-- One reference to an object that counts all alike. -/
theorem dropCount (h : Balanced s outer extra) (ho : s.memory.object? r = some o)
    (hsym : o.symmetric = false) (hmoves : Moves r outer extra outer' extra')
    (hsum : outer + extra = r ::ₘ (outer' + extra')) :
    ∃ t, s.dropCount r o = some t ∧ Balanced t outer' extra' := by
  have hone : (outer + extra + s.memory.references).count r =
      (outer' + extra' + s.memory.references).count r + 1 := by
    rw [hsum, Multiset.cons_add, Multiset.count_cons_self]
  cases hcomp : o.component with
  | none =>
    have hnot : .object r ∉ s.work := by
      rw [h.plain_due r o ho hsym hcomp, hone]
      simp
    have hcount := h.plain r o ho hsym hcomp hnot
    rw [hone] at hcount
    have hlow := lowered?_of_ne_zero o.shared (ne_zero_of_toNat hcount)
    have hnew := toNat_sub_one hcount
    refine ⟨_, by rw [Release.dropCount, h.countingComponent?_eq ho, hcomp, hlow]; rfl, ?_⟩
    dsimp only
    by_cases hz : o.count - 1 = 0
    · rw [if_pos hz]
      have hdue : (outer' + extra' + s.memory.references).count r = 0 := by
        rw [← hnew]
        exact eq_zero_iff_toNat.1 hz
      refine h.recount_object ho hsym hcomp hmoves (.object r :: s.work) hnew
        ⟨fun _ => hdue, fun _ => List.mem_cons_self⟩ (fun d hd => ?_)
        (List.nodup_cons.2 ⟨hnot, h.work_nodup⟩)
      rw [List.mem_cons]
      exact or_iff_right hd
    · rw [if_neg hz]
      have hdue : (outer' + extra' + s.memory.references).count r ≠ 0 := by
        rw [← hnew]
        exact fun e => hz (eq_zero_iff_toNat.2 e)
      exact h.recount_object ho hsym hcomp hmoves s.work hnew
        ⟨fun hw => absurd hw hnot, fun hc => absurd hc hdue⟩ (fun _ _ => Iff.rfl) h.work_nodup
  | some id =>
    obtain ⟨e, he, hr⟩ := h.member r o id ho hcomp
    have hext : e.external =
        (outer' + extra' + s.memory.referencesOutside e.members).countP (· ∈ e.members) + 1 := by
      rw [h.external id e he, hsum, Multiset.cons_add, Multiset.countP_cons_of_pos _ hr]
    have hnot : .component id ∉ s.work := by
      rw [h.external_due id e he, hext]
      simp
    have hentry := ComponentRegistry.entry?_lower s.memory.components id
    rw [he, Option.map_some] at hentry
    have hlow : (s.memory.components.lower id).external? id = some (e.external - 1) := by
      rw [ComponentRegistry.external?, hentry, if_pos rfl]
      rfl
    refine ⟨_, by rw [Release.dropCount, h.countingComponent?_eq ho, hcomp], ?_⟩
    unfold Release.lowerComponent
    dsimp only
    rw [hlow]
    by_cases hz : e.external - 1 = 0
    · rw [if_pos (by rw [hz])]
      refine h.recount_component ho hcomp he hmoves (h.tidy.registry.lower id)
        (s.memory.components.capacity_update id _) hentry (.component id :: s.work) (by omega) ⟨fun _ => hz, fun _ => List.mem_cons_self⟩
        (fun d hd => ?_) (List.nodup_cons.2 ⟨hnot, h.work_nodup⟩)
      rw [List.mem_cons]
      exact or_iff_right hd
    · rw [if_neg (fun e' => hz (Option.some.inj e'))]
      exact h.recount_component ho hcomp he hmoves (h.tidy.registry.lower id)
        (s.memory.components.capacity_update id _) hentry s.work (by omega) ⟨fun hw => absurd hw hnot, fun hc => absurd hc hz⟩
        (fun _ _ => Iff.rfl) h.work_nodup

/-- The reference of a field. -/
theorem dropEdge (h : Balanced s outer (r ::ₘ extra)) :
    ∃ t, s.dropEdge r = some t ∧ Balanced t outer extra := by
  obtain ⟨o, ho⟩ := isLive_iff.1 (h.ledger_live r (by simp))
  have harena := h.tidy.no_arena r o ho
  have hmoves : Moves r outer (r ::ₘ extra) outer extra := (Moves.cons_extra r outer extra).symm
  unfold Release.dropEdge
  simp only [ho, harena, Option.isSome_none, Bool.false_eq_true, ↓reduceIte]
  by_cases hsym : o.symmetric = true
  · rw [if_pos hsym]
    obtain ⟨-, hcount, hinternal⟩ := h.symmetric r o ho hsym
    rw [Multiset.cons_add, Multiset.count_cons_self] at hinternal
    rw [lowered?_of_ne_zero _ (ne_zero_of_toNat hinternal)]
    have hbal := fun candidates => h.recount_symmetric ho hsym hmoves candidates
      (f := fun o' => { o' with internal := o.internal - 1 }) (fun _ => rfl) hcount
      (toNat_sub_one hinternal)
    refine ⟨_, rfl, ?_⟩
    dsimp only
    split
    · exact hbal (r :: s.candidates) fun x hx => List.mem_cons.1 hx
    · exact hbal s.candidates fun x hx => .inr hx
  · rw [if_neg hsym]
    exact h.dropCount ho (by simpa using hsym) hmoves (by rw [Multiset.add_cons])

/-- A reference of the program, the queue or a scope. -/
theorem dropRef (h : Balanced s (r ::ₘ outer) extra) :
    ∃ t, s.dropRef r = some t ∧ Balanced t outer extra := by
  obtain ⟨o, ho⟩ := isLive_iff.1 (h.ledger_live r (by simp))
  have harena := h.tidy.no_arena r o ho
  have hmoves : Moves r (r ::ₘ outer) extra outer extra := (Moves.cons_outer r outer extra).symm
  unfold Release.dropRef
  simp only [ho, harena, Option.isSome_none, Bool.false_eq_true, ↓reduceIte]
  by_cases hsym : o.symmetric = true
  · rw [if_pos hsym]
    obtain ⟨-, hcount, hinternal⟩ := h.symmetric r o ho hsym
    rw [Multiset.count_cons_self] at hcount
    rw [lowered?_of_ne_zero _ (ne_zero_of_toNat hcount)]
    have hbal := fun candidates => h.recount_symmetric ho hsym hmoves candidates
      (f := fun o' => { o' with count := o.count - 1 }) (fun _ => rfl) (toNat_sub_one hcount)
      hinternal
    refine ⟨_, rfl, ?_⟩
    dsimp only
    split
    · exact hbal (r :: s.candidates) fun x hx => List.mem_cons.1 hx
    · exact hbal s.candidates fun x hx => .inr hx
  · rw [if_neg hsym]
    exact h.dropCount ho (by simpa using hsym) hmoves (by rw [Multiset.cons_add])

/-- References of a group that was taken out to what is left. -/
theorem dropEdges : ∀ {targets : List Ref} {s : Release} {extra : Multiset Ref},
    Balanced s outer (↑targets + extra) →
      ∃ t, targets.foldlM Release.dropEdge s = some t ∧ Balanced t outer extra
  | [], s, extra, h => ⟨s, rfl, by simpa using h⟩
  | r :: targets, s, extra, h => by
    rw [← Multiset.cons_coe, Multiset.cons_add] at h
    obtain ⟨t, ht, hbal⟩ := h.dropEdge
    obtain ⟨u, hu, hbal'⟩ := dropEdges hbal
    exact ⟨u, by rw [List.foldlM_cons, ht]; exact hu, hbal'⟩

/-- Several references of the program, the queue or a scope. -/
theorem dropRefs : ∀ {targets : List Ref} {s : Release} {outer : Multiset Ref},
    Balanced s (↑targets + outer) extra →
      ∃ t, targets.foldlM Release.dropRef s = some t ∧ Balanced t outer extra
  | [], s, outer, h => ⟨s, rfl, by simpa using h⟩
  | r :: targets, s, outer, h => by
    rw [← Multiset.cons_coe, Multiset.cons_add] at h
    obtain ⟨t, ht, hbal⟩ := h.dropRef
    obtain ⟨u, hu, hbal'⟩ := dropRefs hbal
    exact ⟨u, by rw [List.foldlM_cons, ht]; exact hu, hbal'⟩

/-! ## Taking -/

/-- One reference to an object that counts all alike. -/
theorem acquireCount (h : Balanced s outer extra) (hwork : s.work = [])
    (ho : s.memory.object? r = some o) (hsym : o.symmetric = false)
    (hmoves : Moves r outer extra outer' extra') (hsum : outer' + extra' = r ::ₘ (outer + extra))
    (hroom : o.component = none → o.count.toNat + 1 < UInt32.size) :
    Balanced { s with memory := s.memory.acquire r } outer' extra' := by
  have harena := h.tidy.no_arena r o ho
  have hone : (outer' + extra' + s.memory.references).count r =
      (outer + extra + s.memory.references).count r + 1 := by
    rw [hsum, Multiset.cons_add, Multiset.count_cons_self]
  cases hcomp : o.component with
  | none =>
    have hacquire : s.memory.acquire r = s.memory.update r fun o => { o with count := o.count + 1 } := by
      simp [Memory.acquire, ho, harena, h.countingComponent?_eq ho, hcomp]
    have hcount := h.plain r o ho hsym hcomp (by simp [hwork])
    rw [hacquire, update_congr ho (g := fun o' => { o' with count := o.count + 1 }) rfl]
    refine h.recount_object ho hsym hcomp hmoves s.work ?_ ?_ (fun _ _ => Iff.rfl)
      h.work_nodup
    · rw [toNat_add_one (hroom hcomp), hcount, hone]
    · rw [hwork, hone]
      simp
  | some id =>
    obtain ⟨e, he, hr⟩ := h.member r o id ho hcomp
    have hacquire : s.memory.acquire r =
        { s.memory with components := s.memory.components.raise id } := by
      simp [Memory.acquire, ho, harena, h.countingComponent?_eq ho, hcomp]
    have hentry := ComponentRegistry.entry?_raise s.memory.components id
    rw [he, Option.map_some] at hentry
    rw [hacquire]
    refine h.recount_component ho hcomp he hmoves (h.tidy.registry.raise id)
      (s.memory.components.capacity_update id _) hentry s.work ?_ ?_ (fun _ _ => Iff.rfl) h.work_nodup
    · rw [hsum, Multiset.cons_add, Multiset.countP_cons_of_pos _ hr, ← h.external id e he]
    · rw [hwork]
      simp

/-- A reference for the program. -/
theorem acquire (h : Balanced s outer extra) (hwork : s.work = []) (hr : s.memory.isLive r = true)
    (hroom : s.memory.CanAcquire r) :
    Balanced { s with memory := s.memory.acquire r } (r ::ₘ outer) extra := by
  obtain ⟨o, ho⟩ := isLive_iff.1 hr
  have harena := h.tidy.no_arena r o ho
  by_cases hsym : o.symmetric = true
  · obtain ⟨hcomp, hcount, hinternal⟩ := h.symmetric r o ho hsym
    have hacquire : s.memory.acquire r = s.memory.update r fun o => { o with count := o.count + 1 } := by
      simp [Memory.acquire, ho, harena, h.countingComponent?_eq ho, hcomp]
    rw [hacquire]
    refine h.recount_symmetric ho hsym (Moves.cons_outer r outer extra) s.candidates (fun _ => rfl)
      ?_ hinternal fun x hx => .inr hx
    rw [Multiset.count_cons_self, ← hcount]
    exact toNat_add_one (hroom o ho hcomp)
  · exact h.acquireCount hwork ho (by simpa using hsym) (Moves.cons_outer r outer extra)
      (by rw [Multiset.cons_add]) (hroom o ho)

/-- A reference for a field. -/
theorem acquireEdge (h : Balanced s outer extra) (hwork : s.work = [])
    (hr : s.memory.isLive r = true)
    (hroom : s.memory.CanRefer r) :
    Balanced { s with memory := s.memory.acquireEdge r } outer (r ::ₘ extra) := by
  obtain ⟨o, ho⟩ := isLive_iff.1 hr
  unfold Memory.acquireEdge
  simp only [ho, Option.any_some]
  by_cases hsym : o.symmetric = true
  · rw [if_pos hsym]
    obtain ⟨hcomp, hcount, hinternal⟩ := h.symmetric r o ho hsym
    refine h.recount_symmetric ho hsym (Moves.cons_extra r outer extra) s.candidates (fun _ => rfl)
      hcount ?_ fun x hx => .inr hx
    rw [Multiset.cons_add, Multiset.count_cons_self, ← hinternal]
    refine toNat_add_one ?_
    simpa only [hsym, ↓reduceIte] using hroom o ho hcomp
  · rw [if_neg hsym]
    exact h.acquireCount hwork ho (by simpa using hsym) (Moves.cons_extra r outer extra)
      (by rw [Multiset.add_cons]) fun hcomp => by simpa only [if_neg hsym] using hroom o ho hcomp

end Balanced

end Reclamation
