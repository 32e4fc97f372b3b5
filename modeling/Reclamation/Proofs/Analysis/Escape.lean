import Mathlib
import Reclamation.Analysis.Escape
import Reclamation.Plan.Placement
import Reclamation.Proofs.Graph.Walk

/-!
# What escape analysis says

The locals that escape so far are the least set that satisfies the conditions of a body: the set contains the
locals that are said to escape so far (`mem_reached_of_atLeast`), it is closed under what follows
(`mem_reached_of_follows`), and it is contained in every other such set (`of_mem_reached`). The locals that
cross to another thread are a least set in the same way (`of_mem_crossing`). What an allocation is planned
with is the farthest state of an owner (`escapeOf_eq_global_iff`).
-/

set_option autoImplicit false

namespace Reclamation

/-- The locals from whose values the value of the right side is found. -/
def Rvalue.sources : Rvalue → List LocalId
  | .use op => operandBases [op]
  | .alloc _ _ _ contents => operandBases contents
  | .closure captures => operandBases captures
  | .ref p => [p.base]
  | .binary _ _ _ => []

namespace EscapeConstraint

variable {cs : List EscapeConstraint} {s : EscapeState} {l other : LocalId}

theorem lt_bound {c : EscapeConstraint} (hc : c ∈ cs) (hl : l ∈ c.locals) : l < bound cs := by
  have hmax : ∀ (ls : List LocalId) (n : Nat), n ≤ ls.foldl max n ∧ ∀ x ∈ ls, x ≤ ls.foldl max n := by
    intro ls
    induction ls with
    | nil => simp
    | cons y ls ih =>
      intro n
      obtain ⟨hn, hls⟩ := ih (max n y)
      refine ⟨(le_max_left n y).trans hn, fun x hx => ?_⟩
      rcases List.mem_cons.1 hx with rfl | hx
      · exact (le_max_right n x).trans hn
      · exact hls x hx
  exact Nat.lt_succ_of_le ((hmax _ 0).2 l (List.mem_flatMap.2 ⟨c, hc, hl⟩))

theorem mem_seeds : l ∈ cs.filterMap (seed? s) ↔ ∃ t, atLeast l t ∈ cs ∧ s.rank ≤ t.rank := by
  rw [List.mem_filterMap]
  constructor
  · rintro ⟨c, hc, h⟩
    cases c with
    | atLeast l' t =>
      simp only [seed?] at h
      split at h
      · next hle =>
        obtain rfl := Option.some.inj h
        exact ⟨t, hc, hle⟩
      · exact absurd h (by simp)
    | follows | crosses | crossesWith => exact absurd h (by simp [seed?])
  · rintro ⟨t, hc, hle⟩
    exact ⟨_, hc, by simp [seed?, hle]⟩

theorem mem_followGraph_out : (∃ e, (e, l) ∈ (followGraph cs).out other) ↔ follows l other ∈ cs := by
  have hout : (∃ e, (e, l) ∈ (followGraph cs).out other) ↔ l ∈ cs.filterMap (follower? other) := by
    simp [followGraph]
  rw [hout, List.mem_filterMap]
  constructor
  · rintro ⟨c, hc, h⟩
    cases c with
    | follows l' o =>
      simp only [follower?] at h
      split at h
      · next ho =>
        obtain rfl := Option.some.inj h
        exact ho ▸ hc
      · exact absurd h (by simp)
    | atLeast | crosses | crossesWith => exact absurd h (by simp [follower?])
  · intro hc
    exact ⟨_, hc, by simp [follower?]⟩

theorem mem_reached_of_atLeast {t : EscapeState} (hc : atLeast l t ∈ cs) (hle : s.rank ≤ t.rank) :
    l ∈ reached cs s :=
  Digraph.mem_preorder.2 ⟨l, mem_seeds.2 ⟨t, hc, hle⟩, lt_bound hc (by simp [locals]), .refl l⟩

theorem mem_reached_of_follows (hc : follows l other ∈ cs) (h : other ∈ reached cs s) : l ∈ reached cs s := by
  obtain ⟨r, hr, hlt, hreach⟩ := Digraph.mem_preorder.1 h
  refine Digraph.mem_preorder.2 ⟨r, hr, hlt, hreach.trans (Digraph.Edge.reaches ?_)⟩
  exact ⟨lt_bound hc (by simp [locals]), mem_followGraph_out.2 hc⟩

theorem of_mem_reached {P : LocalId → Prop} (hseed : ∀ l t, atLeast l t ∈ cs → s.rank ≤ t.rank → P l)
    (hfollow : ∀ l other, follows l other ∈ cs → P other → P l) (h : l ∈ reached cs s) : P l := by
  obtain ⟨r, hr, -, hreach⟩ := Digraph.mem_preorder.1 h
  obtain ⟨t, ht, hle⟩ := mem_seeds.1 hr
  have hroot := hseed r t ht hle
  clear hr ht h
  induction hreach with
  | refl => exact hroot
  | step hedge _ ih => exact ih (hfollow _ _ (mem_followGraph_out.1 hedge.2) hroot)

theorem mem_crossing_iff : l ∈ crossing cs ↔
    ∃ r, crosses r ∈ cs ∧ (companionGraph cs).Reaches r l := by
  have hseed : ∀ r, r ∈ cs.filterMap crossingSeed? ↔ crosses r ∈ cs := by
    intro r
    rw [List.mem_filterMap]
    constructor
    · rintro ⟨c, hc, h⟩
      cases c with
      | crosses r' => exact Option.some.inj h ▸ hc
      | atLeast | follows | crossesWith => exact absurd h (by simp [crossingSeed?])
    · exact fun hc => ⟨_, hc, rfl⟩
  rw [crossing, Digraph.mem_preorder]
  refine exists_congr fun r => ?_
  rw [hseed]
  exact ⟨fun ⟨hr, _, hreach⟩ => ⟨hr, hreach⟩, fun ⟨hr, hreach⟩ => ⟨hr, lt_bound hr (by simp [locals]), hreach⟩⟩

theorem mem_companionGraph_out : (∃ e, (e, l) ∈ (companionGraph cs).out other) ↔ crossesWith l other ∈ cs := by
  have hout : (∃ e, (e, l) ∈ (companionGraph cs).out other) ↔ l ∈ cs.filterMap (companion? other) := by
    simp [companionGraph]
  rw [hout, List.mem_filterMap]
  constructor
  · rintro ⟨c, hc, h⟩
    cases c with
    | crossesWith l' o =>
      simp only [companion?] at h
      split at h
      · next ho =>
        obtain rfl := Option.some.inj h
        exact ho ▸ hc
      · exact absurd h (by simp)
    | atLeast | crosses | follows => exact absurd h (by simp [companion?])
  · intro hc
    exact ⟨_, hc, by simp [companion?]⟩

theorem mem_crossing_of_crosses (hc : crosses l ∈ cs) : l ∈ crossing cs :=
  mem_crossing_iff.2 ⟨l, hc, .refl l⟩

theorem mem_crossing_of_crossesWith (hc : crossesWith l other ∈ cs) (h : other ∈ crossing cs) :
    l ∈ crossing cs := by
  obtain ⟨r, hr, hreach⟩ := mem_crossing_iff.1 h
  refine mem_crossing_iff.2 ⟨r, hr, hreach.trans (Digraph.Edge.reaches ?_)⟩
  exact ⟨lt_bound hc (by simp [locals]), mem_companionGraph_out.2 hc⟩

theorem of_mem_crossing {P : LocalId → Prop} (hseed : ∀ l, crosses l ∈ cs → P l)
    (hfollow : ∀ l other, crossesWith l other ∈ cs → P other → P l) (h : l ∈ crossing cs) : P l := by
  obtain ⟨r, hr, hreach⟩ := mem_crossing_iff.1 h
  have hroot := hseed r hr
  clear hr h
  induction hreach with
  | refl => exact hroot
  | step hedge _ ih => exact ih (hfollow _ _ (mem_companionGraph_out.1 hedge.2) hroot)

end EscapeConstraint

namespace EscapeFacts

variable {f : EscapeFacts} {l : LocalId}

theorem rank_state : 2 ≤ (f.state l).rank ↔ l ∈ f.global := by
  rw [state]
  split
  · next h => simpa [EscapeState.rank] using h
  · next h =>
    have hnot : l ∉ f.global := by simpa using h
    split <;> simp [EscapeState.rank, hnot]

theorem rank_state_arg : 1 ≤ (f.state l).rank ↔ l ∈ f.global ∨ l ∈ f.arg := by
  rw [state]
  split
  · next h => simp only [EscapeState.rank]; simp_all
  · next h =>
    split
    · next h' => simp only [EscapeState.rank]; simp_all
    · next h' => simp only [EscapeState.rank]; simp_all

end EscapeFacts

namespace BodyFacts

variable {f : BodyFacts} {a : Allocation} {owners : List LocalId}

theorem le_rank_foldl_join {states : LocalId → EscapeState} {n : Nat} : ∀ {ls : List LocalId} {s : EscapeState},
    n ≤ (ls.foldl (fun s l => s.join (states l)) s).rank ↔ n ≤ s.rank ∨ ∃ l ∈ ls, n ≤ (states l).rank
  | [], s => by simp
  | l :: ls, s => by
    rw [List.foldl_cons, le_rank_foldl_join, EscapeState.rank_join, le_max_iff]
    simp [or_assoc]

/-- An allocation escapes at least as far as its farthest owner, and no farther. -/
theorem le_rank_escapeOf {n : Nat} (hn : 0 < n) (howners : owners ≠ []) :
    n ≤ (f.escapeOf a owners).rank ↔ ∃ l ∈ owners, n ≤ (f.escape.state l).rank := by
  have hempty : owners.isEmpty = false := by
    simpa using howners
  rw [escapeOf, hempty, if_neg (by simp), le_rank_foldl_join]
  refine or_iff_right ?_
  rw [EscapeState.rank]
  omega

/-- An allocation escapes globally if one of its owners does. -/
theorem escapeOf_eq_global_iff (howners : owners ≠ []) :
    f.escapeOf a owners = .global ↔ ∃ l ∈ owners, l ∈ f.escape.global := by
  have hrank : f.escapeOf a owners = .global ↔ 2 ≤ (f.escapeOf a owners).rank := by
    cases f.escapeOf a owners <;> simp [EscapeState.rank]
  rw [hrank, le_rank_escapeOf (by omega) howners]
  simp only [EscapeFacts.rank_state]

/-- No owner of an allocation that stays is known outside. -/
theorem escapeOf_eq_none_iff (howners : owners ≠ []) :
    f.escapeOf a owners = .none ↔ ∀ l ∈ owners, l ∉ f.escape.global ∧ l ∉ f.escape.arg := by
  have hrank : f.escapeOf a owners = .none ↔ ¬ 1 ≤ (f.escapeOf a owners).rank := by
    cases f.escapeOf a owners <;> simp [EscapeState.rank]
  rw [hrank, le_rank_escapeOf (by omega) howners]
  simp only [EscapeFacts.rank_state_arg, not_exists, not_and, not_or]

/-- A body without closures captures no owner. -/
theorem any_isCaptured_eq_false (hclosures : f.escape.closures = []) :
    (owners.any f.escape.isCaptured) = false := by
  refine List.any_eq_false.2 fun l _ => ?_
  rw [EscapeFacts.isCaptured, hclosures]
  simp

end BodyFacts

end Reclamation
