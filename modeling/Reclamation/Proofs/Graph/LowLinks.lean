import Mathlib
import Reclamation.Proofs.Graph.Tarjan

/-!
# Low links

Every change that a step makes also keeps what is known of the edges that the search has looked at, so a step keeps
all of `Tarjan.Sound` (`Sound.step`), and a search from one node after the other ends in the middle of nothing, with
every node that it has come to in a component (`Ended.foldl`, `Ended.mem_index_iff`).
-/

set_option autoImplicit false

namespace Reclamation

variable {φ : Type} {g : Links φ}

namespace Tarjan

variable {s t : Tarjan} {roots : List Nat} {v w x p i : Nat} {rest : List (Nat × Nat)}

/-! ## Edges looked at -/

theorem lookedAt_advance {y : Nat} (h : LookedAt g ((v, i + 1) :: rest) x y) : LookedAt g ((v, i) :: rest) x y ∨
    (x = v ∧ y < g.size ∧ ∃ field, (g.fields v)[i]? = some field ∧ g.target? v field = some y) := by
  obtain ⟨hlt, k, field, hfield, htarget, hbeyond⟩ := h
  by_cases hnow : x = v ∧ k = i
  · obtain ⟨rfl, rfl⟩ := hnow
    exact .inr ⟨rfl, hlt, field, hfield, htarget⟩
  · refine .inl ⟨hlt, k, field, hfield, htarget, fun j hj => ?_⟩
    rcases List.mem_cons.1 hj with he | hj
    · obtain ⟨rfl, rfl⟩ := Prod.mk.inj he
      have hk := hbeyond (j + 1) List.mem_cons_self
      have hne : k ≠ j := fun he => hnow ⟨rfl, he⟩
      omega
    · exact hbeyond j (List.mem_cons_of_mem _ hj)

/-- All fields of a node that is left have been looked at. -/
theorem lookedAt_of_rest {y : Nat} (hframes : s.frames = (v, i) :: rest) (hdone : (g.fields v).length ≤ i)
    (h : LookedAt g rest x y) : LookedAt g s.frames x y := by
  obtain ⟨hlt, k, field, hfield, htarget, hbeyond⟩ := h
  refine ⟨hlt, k, field, hfield, htarget, fun j hj => ?_⟩
  rw [hframes] at hj
  rcases List.mem_cons.1 hj with he | hj
  · obtain ⟨rfl, rfl⟩ := Prod.mk.inj he
    exact (List.getElem?_eq_some_iff.1 hfield).1.trans_le hdone
  · exact hbeyond j hj

theorem Innermost.eq_head (h : Kept g roots s) {path : List Nat} (hpath : s.path = v :: path)
    (hp : s.Innermost p v) : p = v := by
  refine h.number_inj (h.path_sub p hp.1) (h.head_mem hpath) (Nat.le_antisymm hp.2.1 (hp.2.2 v ?_ (Nat.le_refl _)))
  rw [hpath]
  exact List.mem_cons_self

/-- When a node is left, the node that led to it is the innermost one for all that lies above. -/
theorem Innermost.eq_parent (h : Kept g roots s) {q : Nat × Nat} (hframes : s.frames = (v, i) :: q :: rest)
    (hle : s.number v ≤ s.number x) (hp : ({ s with frames := q :: rest } : Tarjan).Innermost p x) : p = q.1 := by
  have hpath := path_of_frames hframes
  obtain ⟨hp, -, hmost⟩ := hp
  replace hp : p ∈ q.1 :: rest.map Prod.fst := hp
  have hq : q.1 ∈ (q :: rest).map Prod.fst := List.mem_cons_self
  have hqp : s.number q.1 ≤ s.number p := hmost q.1 hq ((h.number_lt_head hpath hq).le.trans hle)
  have hpq : s.number p ≤ s.number q.1 := by
    have hordered := h.path
    rw [hpath] at hordered
    rcases List.mem_cons.1 hp with rfl | hp
    · exact Nat.le_refl _
    · exact ((List.pairwise_cons.1 (List.pairwise_cons.1 hordered).2).1 p hp).le
  have hsub : ∀ y ∈ q.1 :: rest.map Prod.fst, y ∈ s.stack := fun y hy => by
    refine h.path_sub y ?_
    rw [hpath]
    exact List.mem_cons_of_mem v hy
  exact h.number_inj (hsub p hp) (hsub q.1 hq) (Nat.le_antisymm hpq hqp)

namespace Bounded

/-- Lower low links, and more edges looked at whose ends are known and bound the low link. -/
theorem mono (h : Bounded g s) (hindex : t.index = s.index) (hstack : t.stack = s.stack) (hpath : t.path = s.path)
    (hlow : ∀ x, t.lowLink x ≤ s.lowLink x)
    (hlooked : ∀ x y, LookedAt g t.frames x y → LookedAt g s.frames x y ∨
      (y ∈ s.index ∧ (y ∈ s.stack → ∀ p, s.Innermost p x → t.lowLink p ≤ s.number y))) : Bounded g t := by
  have hnumber : ∀ x, t.number x = s.number x := fun x => by rw [number, hindex, number]
  constructor
  · intro x hx y hxy
    rw [hindex] at hx ⊢
    rcases hlooked x y hxy with hold | hnew
    · exact h.known x hx y hold
    · exact hnew.1
  · intro x hx y hy hxy p hp
    rw [hstack] at hx hy
    simp only [Innermost, hpath, hnumber] at hp
    rw [hnumber]
    rcases hlooked x y hxy with hold | hnew
    · exact (hlow p).trans (h.bound x hx y hy hold p hp)
    · exact hnew.2 hy p hp

/-- A new node: no edge from it has been looked at. -/
theorem enter (h : Kept g roots s) (hnew : w ∉ s.index)
    (hknown : ∀ x ∈ s.index, ∀ y, LookedAt g s.frames x y → y ∈ s.index ∨ y = w)
    (hbound : ∀ x ∈ s.stack, ∀ y ∈ s.stack, LookedAt g s.frames x y → ∀ p, s.Innermost p x →
      s.lowLink p ≤ s.number y)
    (hlast : ∀ x ∈ s.stack, LookedAt g s.frames x w → ∀ p, s.Innermost p x → s.lowLink p ≤ s.next) :
    Bounded g (s.enter w) := by
  have hframes : (s.enter w).frames = (w, 0) :: s.frames := rfl
  have hfresh : ∀ y, ¬ LookedAt g (s.enter w).frames w y := fun y hy => by
    obtain ⟨-, k, -, -, -, hbeyond⟩ := hy
    exact absurd (hbeyond 0 List.mem_cons_self) (Nat.not_lt_zero k)
  have hold : ∀ {x y}, LookedAt g (s.enter w).frames x y → LookedAt g s.frames x y := fun hxy => by
    obtain ⟨hlt, k, field, hfield, htarget, hbeyond⟩ := hxy
    exact ⟨hlt, k, field, hfield, htarget, fun j hj => hbeyond j (List.mem_cons_of_mem _ hj)⟩
  have hsame : ∀ {x}, x ∈ s.stack → (s.enter w).number x = s.number x := h.number_enter_of_mem hnew
  constructor
  · intro x hx y hxy
    rw [mem_index_enter] at hx ⊢
    rcases hx with rfl | hx
    · exact absurd hxy (hfresh y)
    · rcases hknown x hx y (hold hxy) with hy | hy
      · exact .inr hy
      · exact .inl hy.symm
  · intro x hx y hy hxy p hp
    rcases List.mem_cons.1 hx with he | hx
    · exact absurd hxy (he ▸ hfresh y)
    obtain ⟨hp, hle, hmost⟩ := hp
    -- the new node lies above all others, so it is innermost for none of them
    have hpw : p ≠ w := fun he => by
      have hlt := h.number_lt x (h.mem_index hx)
      rw [he, number_enter_self, hsame hx] at hle
      omega
    have hp := (List.mem_cons.1 hp).resolve_left hpw
    have hinner : s.Innermost p x := by
      refine ⟨hp, by rwa [hsame hx, hsame (h.path_sub p hp)] at hle, fun q hq hqx => ?_⟩
      have hq' := hmost q (List.mem_cons_of_mem w hq)
      rw [hsame hx, hsame (h.path_sub q hq), hsame (h.path_sub p hp)] at hq'
      exact hq' hqx
    rw [lowLink_enter, if_neg (Ne.symm hpw)]
    rcases List.mem_cons.1 hy with he | hy
    · rw [he, number_enter_self]
      exact hlast x hx (he ▸ hold hxy) p hinner
    · rw [hsame hy]
      exact hbound x hx y hy (hold hxy) p hinner

/-- A node is left that stays on the stack. Its low link counts for the node that led to it. -/
theorem drop (h : Bounded g s) (hk : Kept g roots s) (hframes : s.frames = (v, i) :: rest)
    (hdone : (g.fields v).length ≤ i) (hparent : ∀ q ∈ rest.head?, s.lowLink q.1 ≤ s.lowLink v) :
    Bounded g { s with frames := rest } := by
  have hpath := path_of_frames hframes
  have hold : ∀ {x y}, LookedAt g rest x y → LookedAt g s.frames x y := lookedAt_of_rest hframes hdone
  constructor
  · exact fun x hx y hxy => h.known x hx y (hold hxy)
  · intro x hx y hy hxy p hp
    by_cases hvx : s.number v ≤ s.number x
    · -- the node lies above the one that is left, so it now lies above the one that led there
      have hinner : s.Innermost v x :=
        ⟨by rw [hpath]; exact List.mem_cons_self, hvx, fun q hq _ => hk.number_le_head hpath hq⟩
      refine le_trans ?_ (h.bound x hx y hy (hold hxy) v hinner)
      cases rest with
      | nil => exact absurd hp.1 List.not_mem_nil
      | cons q rest =>
        rw [hp.eq_parent hk hframes hvx]
        exact hparent q rfl
    · obtain ⟨hp, hle, hmost⟩ := hp
      refine h.bound x hx y hy (hold hxy) p ⟨?_, hle, fun q hq hqx => ?_⟩
      · rw [hpath]
        exact List.mem_cons_of_mem v hp
      rw [hpath] at hq
      rcases List.mem_cons.1 hq with rfl | hq
      · exact absurd hqx hvx
      · exact hmost q hq hqx

/-- The first node of a component is left and leaves the stack. -/
theorem close (h : Bounded g s) (hk : Kept g roots s) (hframes : s.frames = (v, i) :: rest)
    (hdone : (g.fields v).length ≤ i) : Bounded g (({ s with frames := rest } : Tarjan).close (fun _ => true) v) := by
  have hpath := path_of_frames hframes
  obtain ⟨top, bottom, hstack, hv⟩ := List.eq_append_cons_of_mem (hk.head_mem hpath)
  have hleft := fun {x} => (hk.mem_cut_iff hstack (x := x)).2
  have hold : ∀ {x y}, LookedAt g rest x y → LookedAt g s.frames x y := lookedAt_of_rest hframes hdone
  rw [close_eq (s := { s with frames := rest }) hstack hv]
  constructor
  · exact fun x hx y hxy => h.known x hx y (hold hxy)
  · intro x hx y hy hxy p hp
    obtain ⟨hp, hle, hmost⟩ := hp
    obtain ⟨hx, hxv⟩ := hleft.1 hx
    refine h.bound x hx y (hleft.1 hy).1 (hold hxy) p ⟨?_, hle, fun q hq hqx => ?_⟩
    · rw [hpath]
      exact List.mem_cons_of_mem v hp
    · rw [hpath] at hq
      rcases List.mem_cons.1 hq with rfl | hq
      · exact absurd hxv (Nat.not_lt.2 hqx)
      · exact hmost q hq hqx

end Bounded

/-! ## Steps -/

/-- What a search keeps. -/
structure Sound (g : Links φ) (roots : List Nat) (s : Tarjan) : Prop where
  kept : Kept g roots s
  bounded : Bounded g s

namespace Sound

/-- A field is passed over, leads nowhere, or leads to a node that the search has come to. -/
theorem advance (h : Sound g roots s) (hframes : s.frames = (v, i) :: rest)
    (hknown : ∀ field y, (g.fields v)[i]? = some field → g.target? v field = some y → y < g.size →
      y ∈ s.index ∧ (y ∈ s.stack → s.lowLink v ≤ s.number y)) :
    Sound g roots { s with frames := (v, i + 1) :: rest } := by
  have hpath := path_of_frames hframes
  refine ⟨h.kept.reframe hpath.symm, h.bounded.mono rfl rfl hpath.symm (fun x => Nat.le_refl _) fun x y hxy => ?_⟩
  rw [hframes]
  refine (lookedAt_advance hxy).imp_right fun hnow => ?_
  obtain ⟨rfl, hlt, field, hfield, htarget⟩ := hnow
  obtain ⟨hy, hlow⟩ := hknown field y hfield htarget hlt
  refine ⟨hy, fun hstack p hp => ?_⟩
  rw [hp.eq_head h.kept hpath]
  exact hlow hstack

section follow

variable {field : φ}

/-- A position of a node has one field, which leads to one node. -/
theorem target_unique (hfield : (g.fields v)[i]? = some field) (htarget : g.target? v field = some w) {f : φ} {y : Nat}
    (hf : (g.fields v)[i]? = some f) (hy : g.target? v f = some y) : y = w := by
  obtain rfl := Option.some.inj (hf.symm.trans hfield)
  exact Option.some.inj (hy.symm.trans htarget)

/-- Following a field to a node on the stack: its number counts for the low link. -/
theorem follow_back (h : Sound g roots s) (hframes : s.frames = (v, i) :: rest)
    (hfield : (g.fields v)[i]? = some field) (htarget : g.target? v field = some w) (hw : w < g.size)
    (hstack : w ∈ s.stack) :
    Sound g roots { s.lower v (s.number w) with frames := (v, i + 1) :: rest } := by
  have hv := h.kept.head_mem (path_of_frames hframes)
  have hedge : g.graph.Edge v w := Links.edge_iff.2 ⟨hw, field, List.mem_of_getElem? hfield, htarget⟩
  have hlower : Sound g roots (s.lower v (s.number w)) := by
    refine ⟨h.kept.lower hv hstack hedge.reaches, h.bounded.mono rfl rfl rfl ?_ fun _ _ hxy => .inl hxy⟩
    exact fun x => lowLink_lower_le (h.kept.mem_low hv)
  refine hlower.advance hframes fun f y hf hy _ => ?_
  obtain rfl := target_unique hfield htarget hf hy
  refine ⟨h.kept.mem_index hstack, fun _ => ?_⟩
  rw [lowLink_lower (h.kept.mem_low hv), if_pos rfl]
  exact Nat.min_le_right _ _

/-- Following a field to a new node. -/
theorem follow_new (h : Sound g roots s) (hframes : s.frames = (v, i) :: rest)
    (hfield : (g.fields v)[i]? = some field) (htarget : g.target? v field = some w) (hw : w < g.size)
    (hnew : w ∉ s.index) :
    Sound g roots (({ s with frames := (v, i + 1) :: rest } : Tarjan).enter w) := by
  have hpath := path_of_frames hframes
  have hedge : g.graph.Edge v w := Links.edge_iff.2 ⟨hw, field, List.mem_of_getElem? hfield, htarget⟩
  have hmoved : Kept g roots { s with frames := (v, i + 1) :: rest } := h.kept.reframe hpath.symm
  have hroot : ∃ r ∈ roots, r < g.size ∧ g.graph.Reaches r w := by
    obtain ⟨r, hr, hlt, hrv⟩ := h.kept.reached v (h.kept.mem_index (h.kept.head_mem hpath))
    exact ⟨r, hr, hlt, hrv.trans hedge.reaches⟩
  have hsame : ∀ {x p}, ({ s with frames := (v, i + 1) :: rest } : Tarjan).Innermost p x → s.Innermost p x :=
    fun hp => by
      unfold Innermost at hp ⊢
      rw [hpath]
      exact hp
  constructor
  · refine hmoved.enter hw hnew hroot fun p hp => ?_
    replace hp : p ∈ s.path := by
      rw [hpath]
      exact hp
    exact (h.kept.reaches_head hpath hp).trans hedge.reaches
  · -- what has been looked at now is what had been before and the field that is followed
    refine Bounded.enter hmoved hnew (fun x hx y hxy => ?_) (fun x hx y hy hxy p hp => ?_) fun x hx hxy p hp => ?_
    · rcases lookedAt_advance hxy with hold | ⟨-, -, f, hf, hy⟩
      · rw [← hframes] at hold
        exact .inl (h.bounded.known x hx y hold)
      · exact .inr (target_unique hfield htarget hf hy)
    · rcases lookedAt_advance hxy with hold | ⟨-, -, f, hf, hy'⟩
      · rw [← hframes] at hold
        exact h.bounded.bound x hx y hy hold p (hsame hp)
      · exact absurd (h.kept.mem_index hy) (target_unique hfield htarget hf hy' ▸ hnew)
    · have hmem := h.kept.path_sub p (hsame hp).1
      exact (h.kept.low_le p hmem).trans (h.kept.number_lt p (h.kept.mem_index hmem)).le

/-- Following a field to a node. -/
theorem follow (h : Sound g roots s) (hframes : s.frames = (v, i) :: rest)
    (hfield : (g.fields v)[i]? = some field) (htarget : g.target? v field = some w) :
    Sound g roots (({ s with frames := (v, i + 1) :: rest } : Tarjan).follow g v w) := by
  unfold Tarjan.follow
  by_cases hw : w < g.size
  · rw [if_pos hw]
    by_cases hnew : w ∈ s.index
    · rw [getElem?_index (s := { s with frames := (v, i + 1) :: rest }) hnew]
      dsimp only
      by_cases hstack : w ∈ s.stack
      · rw [if_pos (Std.HashSet.contains_iff_mem.2 ((h.kept.onStack w).2 hstack))]
        exact h.follow_back hframes hfield htarget hw hstack
      · -- it is in a component already
        rw [if_neg fun hc => hstack ((h.kept.onStack w).1 (Std.HashSet.contains_iff_mem.1 hc))]
        refine h.advance hframes fun f y hf hy _ => ?_
        obtain rfl := target_unique hfield htarget hf hy
        exact ⟨hnew, fun hmem => absurd hmem hstack⟩
    · rw [Std.HashMap.getElem?_eq_none hnew]
      exact h.follow_new hframes hfield htarget hw hnew
  · rw [if_neg hw]
    refine h.advance hframes fun f y hf hy hlt => ?_
    exact absurd (target_unique hfield htarget hf hy ▸ hlt) hw

end follow

theorem passOn (h : Sound g roots s) (hframes : s.frames = (v, i) :: rest) :
    Sound g roots (s.passOn (s.lowLink v) rest) := by
  have hpath := path_of_frames hframes
  refine ⟨h.kept.passOn hframes, ?_⟩
  cases rest with
  | nil => exact h.bounded
  | cons q rest =>
    have hq : q.1 ∈ s.path := by simp [hpath]
    refine h.bounded.mono rfl rfl rfl (fun x => ?_) fun _ _ hxy => .inl hxy
    exact lowLink_lower_le (h.kept.mem_low (h.kept.path_sub _ hq))

/-- A node all of whose fields have been looked at is left. -/
theorem leave (h : Sound g roots s) (hframes : s.frames = (v, i) :: rest) (hdone : (g.fields v).length ≤ i) :
    Sound g roots (s.leave (fun _ => true) v rest) := by
  have hpath := path_of_frames hframes
  have hnext := h.passOn hframes
  have hframes' : (s.passOn (s.lowLink v) rest).frames = (v, i) :: rest := by
    cases rest <;> exact hframes
  have hnumber : ∀ x, (s.passOn (s.lowLink v) rest).number x = s.number x := fun x => by cases rest <;> rfl
  -- the node that led here has another low link, the node itself has not
  have hlow : (s.passOn (s.lowLink v) rest).lowLink v = s.lowLink v := by
    cases rest with
    | nil => rfl
    | cons q rest =>
      have hlt := h.kept.number_lt_head (p := q.1) hpath (by simp)
      have hq : q.1 ∈ s.path := by simp [hpath]
      rw [Tarjan.passOn, lowLink_lower (h.kept.mem_low (h.kept.path_sub _ hq)), if_neg]
      exact fun he => absurd hlt (by rw [he]; exact Nat.lt_irrefl _)
  have hparent : ∀ q ∈ rest.head?, (s.passOn (s.lowLink v) rest).lowLink q.1 ≤
      (s.passOn (s.lowLink v) rest).lowLink v := by
    rw [hlow]
    cases rest with
    | nil => simp
    | cons q rest =>
      intro q' hq'
      obtain rfl := Option.some.inj hq'
      have hq : q.1 ∈ s.path := by simp [hpath]
      rw [Tarjan.passOn, lowLink_lower (h.kept.mem_low (h.kept.path_sub _ hq)), if_pos rfl]
      exact Nat.min_le_right _ _
  unfold Tarjan.leave
  dsimp only
  split
  · next hroot =>
    have hroot : (s.passOn (s.lowLink v) rest).lowLink v = (s.passOn (s.lowLink v) rest).number v := by
      rw [hlow, hnumber]
      exact hroot
    exact ⟨hnext.kept.close hnext.bounded hframes' hdone hroot, hnext.bounded.close hnext.kept hframes' hdone⟩
  · next hroot =>
    have hroot : (s.passOn (s.lowLink v) rest).lowLink v ≠ (s.passOn (s.lowLink v) rest).number v := by
      rw [hlow, hnumber]
      exact hroot
    exact ⟨hnext.kept.drop hframes' hroot, hnext.bounded.drop hnext.kept hframes' hdone hparent⟩

theorem step (h : Sound g roots s) (hstep : step g (fun _ => true) s = some t) : Sound g roots t := by
  unfold Tarjan.step at hstep
  split at hstep
  · exact absurd hstep (by simp)
  · next v i rest hframes =>
    split at hstep
    · next hnone =>
      obtain rfl := Option.some.inj hstep
      exact h.leave hframes (List.getElem?_eq_none_iff.1 hnone)
    · next field hfield =>
      split at hstep
      · next hnone =>
        obtain rfl := Option.some.inj hstep
        refine h.advance hframes fun f y hf hy _ => ?_
        obtain rfl := Option.some.inj (hf.symm.trans hfield)
        exact absurd (hy.symm.trans hnone) (by simp)
      · next w htarget =>
        obtain rfl := Option.some.inj hstep
        exact h.follow hframes hfield htarget

/-! ## Searches -/

theorem run (h : Sound g roots s) : Sound g roots (run g (fun _ => true) s) := by
  fun_induction Tarjan.run g (fun _ => true) s with
  | case1 => exact h
  | case2 _ _ hstep ih => exact ih (h.step hstep)

/-- A new search that is in the middle of nothing. -/
theorem enter (h : Sound g roots s) (hframes : s.frames = []) (hv : v < g.size) (hnew : v ∉ s.index)
    (hroot : v ∈ roots) : Sound g roots (s.enter v) := by
  have hnone : ∀ p x, ¬ s.Innermost p x := fun p x hp => by
    have hmem := hp.1
    rw [Tarjan.path, hframes] at hmem
    exact absurd hmem List.not_mem_nil
  refine ⟨h.kept.enter hv hnew ⟨v, hroot, hv, .refl v⟩ fun p hp => ?_, Bounded.enter h.kept hnew ?_ ?_ ?_⟩
  · rw [Tarjan.path, hframes] at hp
    exact absurd hp List.not_mem_nil
  · exact fun x hx y hxy => .inl (h.bounded.known x hx y hxy)
  · exact fun x _ y _ _ p hp => absurd hp (hnone p x)
  · exact fun x _ _ p hp => absurd hp (hnone p x)

end Sound

theorem frames_run (g : Links φ) (keep : List Nat → Bool) (s : Tarjan) : (run g keep s).frames = [] := by
  fun_induction run g keep s with
  | case1 s hstep =>
    unfold step at hstep
    split at hstep
    · assumption
    · split at hstep
      · exact absurd hstep (by simp)
      · split at hstep <;> exact absurd hstep (by simp)
  | case2 _ _ _ ih => exact ih

/-- A search from one more node leaves no node in the middle. -/
theorem frames_start {keep : List Nat → Bool} (hframes : s.frames = []) : (start g keep s v).frames = [] := by
  unfold start
  split
  · exact frames_run g keep _
  · exact hframes

theorem mem_index_step {keep : List Nat → Bool} (hstep : step g keep s = some t) (hx : x ∈ s.index) : x ∈ t.index := by
  unfold step at hstep
  split at hstep
  · exact absurd hstep (by simp)
  · next v i rest hframes =>
    split at hstep
    · obtain rfl := Option.some.inj hstep
      rwa [(leave_keeps keep s v rest).1]
    · split at hstep
      · obtain rfl := Option.some.inj hstep
        exact hx
      · obtain rfl := Option.some.inj hstep
        unfold follow
        split
        · split
          · exact mem_index_enter.2 (.inr hx)
          · split <;> exact hx
        · exact hx

theorem mem_index_run {keep : List Nat → Bool} (hx : x ∈ s.index) : x ∈ (run g keep s).index := by
  fun_induction run g keep s with
  | case1 => exact hx
  | case2 _ _ hstep ih => exact ih (mem_index_step hstep hx)

/-- What a search has come to when it is in the middle of nothing. -/
structure Ended (g : Links φ) (roots : List Nat) (s : Tarjan) : Prop extends Sound g roots s where
  frames : s.frames = []

/-- One more starting point. -/
theorem Ended.start (h : Ended g roots s) (hroot : v ∈ roots) : Ended g roots (start g (fun _ => true) s v) ∧
    (∀ x ∈ s.index, x ∈ (start g (fun _ => true) s v).index) ∧
    (v < g.size → v ∈ (start g (fun _ => true) s v).index) := by
  unfold Tarjan.start
  by_cases hv : v < g.size ∧ v ∉ s.index
  · obtain ⟨hlt, hnew⟩ := hv
    rw [if_pos (by simp [hlt, hnew])]
    refine ⟨⟨(h.enter h.frames hlt hnew hroot).run, frames_run g _ _⟩, fun x hx => ?_, fun _ => ?_⟩
    · exact mem_index_run (mem_index_enter.2 (.inr hx))
    · exact mem_index_run (mem_index_enter.2 (.inl rfl))
  · rw [if_neg (by simpa using hv)]
    refine ⟨h, fun _ hx => hx, fun hlt => ?_⟩
    by_contra hnew
    exact hv ⟨hlt, hnew⟩

theorem Ended.foldl (h : Ended g roots s) {more : List Nat} (hmore : ∀ r ∈ more, r ∈ roots) :
    Ended g roots (more.foldl (Tarjan.start g fun _ => true) s) ∧
    (∀ x ∈ s.index, x ∈ (more.foldl (Tarjan.start g fun _ => true) s).index) ∧
    ∀ r ∈ more, r < g.size → r ∈ (more.foldl (Tarjan.start g fun _ => true) s).index := by
  induction more generalizing s with
  | nil => exact ⟨h, fun _ hx => hx, fun _ hr => absurd hr List.not_mem_nil⟩
  | cons v more ih =>
    obtain ⟨hended, hsub, hv⟩ := h.start (hmore v List.mem_cons_self)
    obtain ⟨hend, hsub', hall⟩ := ih hended fun r hr => hmore r (List.mem_cons_of_mem v hr)
    rw [List.foldl_cons]
    refine ⟨hend, fun x hx => hsub' x (hsub x hx), fun r hr hlt => ?_⟩
    rcases List.mem_cons.1 hr with rfl | hr
    · exact hsub' r (hv hlt)
    · exact hall r hr hlt

/-- When a search has ended nothing is left on the stack. -/
theorem Ended.mem_index_iff (h : Ended g roots s) : x ∈ s.index ↔ ∃ c ∈ s.components.toList, x ∈ c := by
  rw [h.kept.covered, or_iff_right]
  intro hx
  obtain ⟨p, hp, -⟩ := h.kept.below x hx
  rw [Tarjan.path, h.frames] at hp
  exact List.not_mem_nil hp

end Tarjan

end Reclamation
