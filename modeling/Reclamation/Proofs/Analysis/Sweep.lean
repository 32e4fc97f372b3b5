import Mathlib
import Reclamation.Analysis.Liveness

/-!
# The sweeps of liveness end with the least solution

A body asks of an answer that a local is live at the end of a block if it is at the start of one to which the block
leads, and at the start of a block if the instructions make it live there (`LiveAnswer.Solves`).

The sweeps end when no update changes anything, so what they end with is a solution
(`LiveSets.solves_of_settled`). No update says more than a solution does, if the sets have not done so before
(`LiveSets.below_of_update`). So the sweeps end with the least solution (`Body.liveSets_below`).
-/

set_option autoImplicit false

namespace Reclamation

variable {b : Body} {s : LiveSets} {l : LocalId} {id : BlockId}

/-! ## Answers -/

/-- Which locals are live at the start and at the end of each block. -/
structure LiveAnswer where
  before : BlockId → Set LocalId
  after : BlockId → Set LocalId

/-- What some sets say. -/
def LiveSets.answer (s : LiveSets) : LiveAnswer where
  before id := {l | l ∈ s.before id}
  after id := {l | l ∈ s.after id}

namespace LiveAnswer

/-- One answer says no more than the other. -/
structure Below (x y : LiveAnswer) : Prop where
  before : ∀ id, x.before id ⊆ y.before id
  after : ∀ id, x.after id ⊆ y.after id

/-- An answer that gives all that a body asks of it, in the blocks that the entry reaches. -/
structure Solves (x : LiveAnswer) (b : Body) : Prop where
  after : ∀ id ∈ b.reversePostorder, ∀ target ∈ b.successors id, x.before target ⊆ x.after id
  before : ∀ id ∈ b.reversePostorder, ∀ data, b.blocks[id]? = some data → ∀ live : LocalSet,
    (∀ l ∈ live, l ∈ x.after id) → ∀ l ∈ data.transfer live, l ∈ x.before id

end LiveAnswer

/-- It is a solution that all locals are live in the blocks that the entry reaches, and none elsewhere. -/
theorem Body.solves_reached (b : Body) :
    LiveAnswer.Solves ⟨fun id => {_l | id ∈ b.reversePostorder}, fun id => {_l | id ∈ b.reversePostorder}⟩ b where
  after _ hid _ _ _ _ := hid
  before _ hid _ _ _ _ _ _ := hid

namespace LiveSets

/-! ## The sweeps stay below every solution -/

variable {x : LiveAnswer} {data : Block}

theorem unknown_below (size : Nat) (x : LiveAnswer) : (unknown size).answer.Below x := by
  constructor
  · intro id l hl
    exact absurd hl not_mem_before_unknown
  · intro id l hl
    exact absurd hl not_mem_after_unknown

/-- What an update makes of a block is no more than a solution says. -/
theorem below_of_renew (hx : x.Solves b) (h : Rising b s) (hid : id ∈ b.reversePostorder)
    (hdata : b.blocks[id]? = some data) (hs : s.answer.Below x) : (s.renew id data).answer.Below x := by
  have hflow : ∀ l ∈ s.beforeAny data.successors, l ∈ x.after id := by
    intro l hl
    obtain ⟨target, htarget, hl⟩ := mem_beforeAny.1 hl
    refine hx.after id hid target ?_ (hs.before target hl)
    rwa [Body.successors, hdata]
  constructor
  · intro v l hl
    replace hl : l ∈ LiveSets.before _ v := hl
    rw [h.before_renew hdata] at hl
    split at hl
    · next he =>
      subst he
      exact hx.before id hid data hdata _ hflow l hl
    · exact hs.before v hl
  · intro v l hl
    replace hl : l ∈ LiveSets.after _ v := hl
    rw [h.after_renew hdata] at hl
    split at hl
    · next he =>
      subst he
      exact hflow l hl
    · exact hs.after v hl

theorem below_of_update (hx : x.Solves b) (h : Rising b s) (hid : id ∈ b.reversePostorder)
    (hs : s.answer.Below x) (c : Bool) : (update b (s, c) id).1.answer.Below x := by
  unfold update
  cases hdata : b.blocks[id]? with
  | none => exact hs
  | some data =>
    dsimp only
    split
    · exact hs
    · exact below_of_renew hx h hid hdata hs

theorem below_of_updates {ids : List BlockId} (hx : x.Solves b) (h : Rising b s)
    (hids : ∀ id ∈ ids, id ∈ b.reversePostorder) (hs : s.answer.Below x) (c : Bool) :
    (ids.foldl (update b) (s, c)).1.answer.Below x := by
  induction ids generalizing s c with
  | nil => exact hs
  | cons id ids ih =>
    obtain ⟨hid, hids⟩ := List.forall_mem_cons.1 hids
    have hone := below_of_update hx h hid hs c
    rw [List.foldl_cons]
    rcases update_cases h c id with ⟨he, -⟩ | ⟨t, he, hrisen⟩
    · rw [he]
      exact ih h hids hs c
    · rw [he] at hone ⊢
      exact ih hrisen.rising hids hone true

theorem settle_below {order : List BlockId} (hx : x.Solves b) (horder : ∀ id ∈ order, id ∈ b.reversePostorder)
    (h : Rising b s) (hs : s.answer.Below x) : (settle b order s h).answer.Below x := by
  fun_induction settle b order s h with
  | case1 s h t he ih =>
    refine ih ?_
    have hsweep := below_of_updates hx h horder hs false
    rwa [← sweep, he] at hsweep
  | case2 s h t he =>
    obtain ⟨rfl, -⟩ := settled_of_sweep h he
    exact hs

/-! ## They end with a solution -/

/-- After some sweeps there is one that changes nothing. -/
theorem exists_iterate_settle {order : List BlockId} (h : Rising b s) :
    ∃ n, (fun s => (sweep b order s).1)^[n] s = settle b order s h ∧
      sweep b order (settle b order s h) = (settle b order s h, false) := by
  fun_induction settle b order s h with
  | case1 s h t he ih =>
    obtain ⟨n, hn, hlast⟩ := ih
    refine ⟨n + 1, ?_, hlast⟩
    rw [Function.iterate_succ_apply, he]
    exact hn
  | case2 s h t he =>
    obtain ⟨rfl, -⟩ := settled_of_sweep h he
    exact ⟨0, rfl, he⟩

theorem settled_settle {order : List BlockId} (h : Rising b s) :
    ∀ id ∈ order, Settled b (settle b order s h) id := by
  fun_induction settle b order s h with
  | case1 s h t he ih => exact ih
  | case2 s h t he =>
    obtain ⟨rfl, hsettled⟩ := settled_of_sweep h he
    exact hsettled

/-- Sets that no update changes are a solution. -/
theorem solves_of_settled (h : ∀ id ∈ b.reversePostorder, Settled b s id) : s.answer.Solves b where
  after id hid target htarget l hl := by
    show l ∈ s.after id
    rw [Body.successors] at htarget
    cases hdata : b.blocks[id]? with
    | none =>
      rw [hdata] at htarget
      exact absurd htarget List.not_mem_nil
    | some data =>
      rw [hdata] at htarget
      rw [← (h id hid data hdata).2]
      exact mem_beforeAny.2 ⟨target, htarget, hl⟩
  before id hid data hdata live hlive l hl := by
    obtain ⟨hstart, hend⟩ := h id hid data hdata
    show l ∈ s.before id
    rw [← hstart, hend]
    exact Block.transfer_mono hlive hl

end LiveSets

/-! ## The live sets of a body -/

theorem Body.settled_liveSets (b : Body) : ∀ id ∈ b.reversePostorder, LiveSets.Settled b b.liveSets id :=
  fun id hid => LiveSets.settled_settle _ id (List.mem_reverse.2 hid)

theorem Body.solves_liveSets (b : Body) : b.liveSets.answer.Solves b :=
  LiveSets.solves_of_settled b.settled_liveSets

/-- The live sets say no more than any solution. -/
theorem Body.liveSets_below {x : LiveAnswer} (hx : x.Solves b) : b.liveSets.answer.Below x :=
  LiveSets.settle_below hx (fun _ => List.mem_reverse.1) _ (LiveSets.unknown_below _ x)

end Reclamation
