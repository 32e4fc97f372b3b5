import Mathlib
import Reclamation.Memory.Externals

/-!
# Counting external references

The sum of the counts is right up to the size of a word (`Externals.toNat_total`), and so is each count. As long as
fewer references are registered than a word can count (`Externals.Sound`), registering one more changes the count of
its object alone and by one, and resolving undoes that (`references_raise`, `Sound.exists_lower`).
-/

set_option autoImplicit false

namespace Reclamation.Externals

variable {e e' : Externals} {r x : Ref}

/-- How many references to an object are registered. -/
def references (e : Externals) (r : Ref) : Nat :=
  (e.lookup r).elim 0 UInt32.toNat

/-- How many references are registered. -/
def size (e : Externals) : Nat :=
  (e.map fun c => c.2.toNat).sum

theorem references_cons (c : Ref × UInt32) (e : Externals) :
    references (c :: e) r = if c.1 = r then c.2.toNat else references e r := by
  unfold references
  by_cases h : c.1 = r
  · rw [if_pos h, List.lookup_cons, beq_iff_eq.2 h.symm]
    rfl
  · rw [if_neg h, List.lookup_cons, beq_false_of_ne (Ne.symm h)]

@[simp] theorem size_cons (c : Ref × UInt32) (e : Externals) : size (c :: e) = c.2.toNat + e.size := rfl

/-- The sum starts again from zero when it no longer fits in a word. -/
theorem toNat_total (e : Externals) : e.total.toNat = e.size % UInt32.size := by
  induction e with
  | nil => rfl
  | cons c e ih =>
    rw [total, UInt32.toNat_add, ih, size_cons, Nat.add_mod_mod]

theorem references_le_size (e : Externals) (r : Ref) : e.references r ≤ e.size := by
  induction e with
  | nil => exact Nat.le_refl 0
  | cons c e ih =>
    rw [references_cons, size_cons]
    split
    · exact Nat.le_add_right _ _
    · exact ih.trans (Nat.le_add_left _ _)

/-! ## Registering -/

/-- A count that can be raised counts one more. -/
theorem toNat_succ {n : UInt32} (h : n.toNat + 1 < UInt32.size) : (n + 1).toNat = n.toNat + 1 := by
  rw [UInt32.toNat_add]
  exact Nat.mod_eq_of_lt h

theorem references_raise (h : e.references r + 1 < UInt32.size) (x : Ref) :
    (e.raise r).references x = e.references x + if r = x then 1 else 0 := by
  induction e with
  | nil =>
    rw [raise, references_cons]
    split <;> rfl
  | cons c e ih =>
    obtain ⟨y, n⟩ := c
    rw [references_cons] at h
    rw [raise]
    by_cases hy : y = r
    · subst hy
      rw [if_pos rfl] at h ⊢
      rw [references_cons, references_cons, toNat_succ h]
      split
      · rfl
      · rfl
    · rw [if_neg hy] at h ⊢
      rw [references_cons, references_cons, ih h]
      split
      · next hyx => rw [if_neg fun hrx => hy (hyx.trans hrx.symm), Nat.add_zero]
      · rfl

theorem size_raise (h : e.references r + 1 < UInt32.size) : (e.raise r).size = e.size + 1 := by
  induction e with
  | nil => rfl
  | cons c e ih =>
    obtain ⟨y, n⟩ := c
    rw [references_cons] at h
    rw [raise]
    by_cases hy : y = r
    · rw [if_pos hy] at h ⊢
      rw [size_cons, size_cons, toNat_succ h, Nat.add_right_comm]
    · rw [if_neg hy] at h ⊢
      rw [size_cons, size_cons, ih h, Nat.add_assoc]

theorem mem_keys_raise : x ∈ (e.raise r).map Prod.fst ↔ x = r ∨ x ∈ e.map Prod.fst := by
  induction e with
  | nil => simp [raise]
  | cons c e ih =>
    rw [raise]
    split
    · next hc =>
      simp only [List.map_cons, List.mem_cons, ← hc]
      tauto
    · simp only [List.map_cons, List.mem_cons, ih]
      tauto

theorem nodup_raise (h : (e.map Prod.fst).Nodup) : ((e.raise r).map Prod.fst).Nodup := by
  induction e with
  | nil => exact List.nodup_singleton r
  | cons c e ih =>
    obtain ⟨hc, hrest⟩ := List.nodup_cons.1 h
    rw [raise]
    split
    · exact h
    · next hne =>
      refine List.nodup_cons.2 ⟨fun hmem => ?_, ih hrest⟩
      rcases mem_keys_raise.1 hmem with he | hmem
      · exact hne he
      · exact hc hmem

theorem pos_raise (h : ∀ c ∈ e, 0 < c.2.toNat) (hone : e.references r + 1 < UInt32.size) :
    ∀ c ∈ e.raise r, 0 < c.2.toNat := by
  induction e with
  | nil =>
    intro c hc
    rw [List.mem_singleton.1 hc]
    exact Nat.one_pos
  | cons c e ih =>
    obtain ⟨hc, hrest⟩ := List.forall_mem_cons.1 h
    rw [references_cons] at hone
    rw [raise]
    split
    · next he =>
      rw [if_pos he] at hone
      refine List.forall_mem_cons.2 ⟨?_, hrest⟩
      rw [toNat_succ hone]
      exact Nat.succ_pos _
    · next hne =>
      rw [if_neg hne] at hone
      exact List.forall_mem_cons.2 ⟨hc, ih hrest hone⟩

/-! ## Counts that are right -/

/-- No object has two counts or a count of zero, and all references can be counted. -/
structure Sound (e : Externals) : Prop where
  nodup : (e.map Prod.fst).Nodup
  pos : ∀ c ∈ e, 0 < c.2.toNat
  fits : e.size < UInt32.size

namespace Sound

theorem nil : Sound [] :=
  ⟨List.nodup_nil, fun _ hc => absurd hc List.not_mem_nil, by decide⟩

theorem toNat_total (h : e.Sound) : e.total.toNat = e.size :=
  (Externals.toNat_total e).trans (Nat.mod_eq_of_lt h.fits)

theorem tail {c : Ref × UInt32} (h : Sound (c :: e)) : e.Sound where
  nodup := (List.nodup_cons.1 h.nodup).2
  pos d hd := h.pos d (List.mem_cons_of_mem c hd)
  fits := (Nat.le_add_left e.size c.2.toNat).trans_lt h.fits

theorem raise (h : e.Sound) (hroom : e.size + 1 < UInt32.size) : (e.raise r).Sound := by
  have hone : e.references r + 1 < UInt32.size := (Nat.succ_le_succ (e.references_le_size r)).trans_lt hroom
  exact ⟨nodup_raise h.nodup, pos_raise h.pos hone, (size_raise hone).trans_lt hroom⟩

/-! ## Resolving -/

/-- An object without a reference has no count. -/
theorem references_pos_of_lower (h : e.Sound) (hlower : e.lower? r = some e') : 0 < e.references r := by
  induction e generalizing e' with
  | nil => exact absurd hlower (by simp [lower?])
  | cons c e ih =>
    rw [lower?] at hlower
    rw [references_cons]
    split
    · exact h.pos c List.mem_cons_self
    · next hne =>
      rw [if_neg hne] at hlower
      obtain ⟨_, hrest, -⟩ := Option.map_eq_some_iff.1 hlower
      exact ih h.tail hrest

end Sound

/-- A count that can be lowered counts one less. -/
theorem toNat_pred {n : UInt32} (h : 0 < n.toNat) : (n - 1).toNat + 1 = n.toNat := by
  have hle : (1 : UInt32) ≤ n := UInt32.le_iff_toNat_le.2 h
  rw [UInt32.toNat_sub_of_le n 1 hle]
  exact Nat.sub_add_cancel h

theorem references_of_notMem (h : r ∉ e.map Prod.fst) : references e r = 0 := by
  have hnone : e.lookup r = none := by
    refine List.lookup_eq_none_iff.2 fun d hd => bne_iff_ne.2 fun he => ?_
    exact h (List.mem_map.2 ⟨d, hd, he.symm⟩)
  rw [references, hnone]
  rfl

namespace Sound

/-- A reference that is registered can be resolved. -/
theorem exists_lower (h : e.Sound) (hr : 0 < e.references r) : ∃ e', e.lower? r = some e' ∧ e'.Sound ∧
    e'.size + 1 = e.size ∧ ∀ x, e'.references x + (if r = x then 1 else 0) = e.references x := by
  suffices ∃ e', e.lower? r = some e' ∧ (e'.map Prod.fst).Sublist (e.map Prod.fst) ∧ (∀ c ∈ e', 0 < c.2.toNat) ∧
      e'.size + 1 = e.size ∧ ∀ x, e'.references x + (if r = x then 1 else 0) = e.references x by
    obtain ⟨e', hlower, hsub, hpos, hsize, hcount⟩ := this
    exact ⟨e', hlower, ⟨hsub.nodup h.nodup, hpos, (Nat.lt_succ_self _).trans (hsize.trans_lt h.fits)⟩, hsize, hcount⟩
  induction e with
  | nil => exact absurd hr (Nat.lt_irrefl 0)
  | cons c e ih =>
    obtain ⟨y, n⟩ := c
    obtain ⟨hy, -⟩ := List.nodup_cons.1 h.nodup
    rw [references_cons] at hr
    rw [lower?]
    by_cases he : y = r
    · subst he
      rw [if_pos rfl] at hr ⊢
      have hn : (n - 1).toNat + 1 = n.toNat := toNat_pred hr
      by_cases hlast : n - 1 = 0
      · have hone : n.toNat = 1 := by rw [← hn, hlast]; rfl
        refine ⟨e, by rw [if_pos hlast], List.sublist_cons_self _ _, h.tail.pos, ?_, fun x => ?_⟩
        · rw [size_cons, hone, Nat.add_comm]
        · rw [references_cons]
          split
          · next hx => rw [hone, ← hx, references_of_notMem hy]
          · exact Nat.add_zero _
      · refine ⟨(y, n - 1) :: e, by rw [if_neg hlast], List.Sublist.refl _, ?_, ?_, fun x => ?_⟩
        · refine List.forall_mem_cons.2 ⟨Nat.pos_of_ne_zero fun hzero => hlast ?_, h.tail.pos⟩
          exact UInt32.toNat_inj.1 hzero
        · rw [size_cons, size_cons, ← hn, Nat.add_right_comm]
        · rw [references_cons, references_cons]
          split
          · exact hn
          · exact Nat.add_zero _
    · rw [if_neg he] at hr ⊢
      obtain ⟨e', hlower, hsub, hpos, hsize, hcount⟩ := ih h.tail hr
      refine ⟨(y, n) :: e', by rw [hlower]; rfl, hsub.cons_cons y, ?_, ?_, fun x => ?_⟩
      · exact List.forall_mem_cons.2 ⟨h.pos _ List.mem_cons_self, hpos⟩
      · rw [size_cons, size_cons, ← hsize, Nat.add_assoc]
      · rw [references_cons, references_cons]
        split
        · next hyx => rw [if_neg fun hrx => he (hyx.trans hrx.symm), Nat.add_zero]
        · exact hcount x

end Sound

end Reclamation.Externals
