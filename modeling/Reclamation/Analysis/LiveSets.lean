import Std.Data.ExtTreeSet
import Reclamation.Program.Body

/-!
# The sweeps of liveness

Liveness keeps the locals that it knows to be live at the start and at the end of each block. A sweep
works the sets of all blocks out anew, in place, from those of the blocks to which each one leads,
and the analysis sweeps over the body until nothing changes any more.

From sets that were worked out from below this ends. What is known of a block is then never more than
the next update makes of it (`LiveSets.Rising`), so an update can only add to the sets, and all that
can be added is a local that the body reads (`LiveSets.room`).
-/

set_option autoImplicit false

namespace Reclamation

/-! ## Sets of locals -/

/-- A set of locals. -/
abbrev LocalSet := Std.ExtTreeSet LocalId

/-- The locals that are live before an instruction, given those that are live after it. -/
def Effects.transfer (fx : Effects) (live : LocalSet) : LocalSet :=
  (fx.defs.foldl (·.erase ·) live).insertMany fx.uses

/-- The locals that are live at the start of a block, given those that are live at its end. -/
def Block.transfer (data : Block) (live : LocalSet) : LocalSet :=
  data.effects.foldr Effects.transfer live

/-- The locals that a body reads, once for each time that it does. -/
def Body.reads (b : Body) : List LocalId :=
  b.blocks.toList.flatMap fun data => data.effects.flatMap (·.uses)

/-- Whether a local is live before some instructions, given whether it is after them. -/
def liveBeforeAll (l : LocalId) (atEnd : Bool) (effects : List Effects) : Bool :=
  effects.foldr (fun fx after => fx.liveBefore l after) atEnd

section transfer

variable {l : LocalId} {data : Block}

theorem liveBeforeAll_mono {effects : List Effects} {atEnd atEnd' : Bool}
    (hle : atEnd = true → atEnd' = true) (h : liveBeforeAll l atEnd effects = true) :
    liveBeforeAll l atEnd' effects = true := by
  induction effects with
  | nil => exact hle h
  | cons fx effects ih =>
    change fx.liveBefore l (liveBeforeAll l atEnd effects) = true at h
    show fx.liveBefore l (liveBeforeAll l atEnd' effects) = true
    simp only [Effects.liveBefore, Bool.or_eq_true, Bool.and_eq_true] at h ⊢
    exact h.imp_right (And.imp_left ih)

/-- What is live before some instructions is live after them, or one of them reads it. -/
theorem mem_uses_of_liveBeforeAll {effects : List Effects} {atEnd : Bool}
    (h : liveBeforeAll l atEnd effects = true) : atEnd = true ∨ ∃ fx ∈ effects, l ∈ fx.uses := by
  induction effects with
  | nil => exact .inl h
  | cons fx effects ih =>
    change fx.liveBefore l (liveBeforeAll l atEnd effects) = true at h
    simp only [Effects.liveBefore, Bool.or_eq_true, Bool.and_eq_true, List.contains_iff_mem] at h
    rcases h with huse | ⟨hafter, -⟩
    · exact .inr ⟨fx, List.mem_cons_self, huse⟩
    · refine (ih hafter).imp_right fun hrest => ?_
      obtain ⟨fx', hmem, huse⟩ := hrest
      exact ⟨fx', List.mem_cons_of_mem fx hmem, huse⟩

theorem mem_foldl_erase {defs : List LocalId} : ∀ {live : LocalSet},
    l ∈ defs.foldl (·.erase ·) live ↔ l ∈ live ∧ l ∉ defs := by
  induction defs with
  | nil => simp
  | cons d defs ih =>
    intro live
    rw [List.foldl_cons, ih, Std.ExtTreeSet.mem_erase, List.mem_cons, Std.compare_ne_eq_iff_ne]
    simp only [not_or, ne_eq, @eq_comm _ d l]
    exact and_assoc.trans and_left_comm

theorem Effects.mem_transfer {fx : Effects} {live : LocalSet} :
    l ∈ fx.transfer live ↔ fx.liveBefore l (live.contains l) = true := by
  rw [Effects.transfer, Std.ExtTreeSet.mem_insertMany_list, mem_foldl_erase, Effects.liveBefore]
  simp only [Bool.or_eq_true, Bool.and_eq_true, Bool.not_eq_true', List.contains_eq_mem,
    decide_eq_true_eq, decide_eq_false_iff_not, Std.ExtTreeSet.contains_iff_mem]
  exact or_comm

theorem Block.mem_transfer {live : LocalSet} :
    l ∈ data.transfer live ↔ liveBeforeAll l (live.contains l) data.effects = true := by
  rw [Block.transfer]
  induction data.effects with
  | nil => exact Std.ExtTreeSet.contains_iff_mem.symm
  | cons fx effects ih =>
    rw [List.foldr_cons, Effects.mem_transfer]
    show fx.liveBefore l _ = true ↔ fx.liveBefore l (liveBeforeAll l (live.contains l) effects) = true
    rw [Bool.eq_iff_iff.2 (Std.ExtTreeSet.contains_iff_mem.trans ih)]

theorem Block.transfer_mono {live live' : LocalSet} (hle : ∀ l ∈ live, l ∈ live')
    (h : l ∈ data.transfer live) : l ∈ data.transfer live' := by
  rw [Block.mem_transfer] at h ⊢
  refine liveBeforeAll_mono (fun hl => ?_) h
  exact Std.ExtTreeSet.contains_iff_mem.2 (hle l (Std.ExtTreeSet.contains_iff_mem.1 hl))

/-- What is live at the start of a block is live at its end, or the block reads it. -/
theorem Body.mem_reads_of_transfer {b : Body} {id : BlockId} {live : LocalSet}
    (hdata : b.blocks[id]? = some data) (hl : l ∈ data.transfer live) : l ∈ live ∨ l ∈ b.reads := by
  rcases mem_uses_of_liveBeforeAll (Block.mem_transfer.1 hl) with hend | ⟨fx, hfx, huse⟩
  · exact .inl (Std.ExtTreeSet.contains_iff_mem.1 hend)
  · have hmem : data ∈ b.blocks.toList := Array.mem_toList_iff.2 (Array.mem_of_getElem? hdata)
    exact .inr (List.mem_flatMap.2 ⟨data, hmem, List.mem_flatMap.2 ⟨fx, hfx, huse⟩⟩)

/-- A set that grows and does not stay the same has a new member. -/
theorem LocalSet.exists_new {x y : LocalSet} (hle : ∀ l ∈ x, l ∈ y) (hne : y ≠ x) :
    ∃ l, l ∈ y ∧ l ∉ x := by
  refine Classical.byContradiction fun hnone => hne (Std.ExtTreeSet.ext_mem fun l => ⟨fun hl => ?_, hle l⟩)
  exact Classical.byContradiction fun hnew => hnone ⟨l, hl, hnew⟩

end transfer

/-! ## Sweeps -/

/-- The locals that are known to be live at the start and at the end of each block. -/
structure LiveSets where
  atStart : Array LocalSet
  atEnd : Array LocalSet

namespace LiveSets

/-- Nothing is known of any of some blocks. -/
def unknown (size : Nat) : LiveSets :=
  { atStart := Array.replicate size ∅, atEnd := Array.replicate size ∅ }

/-- The locals known to be live at the start of a block. -/
def before (s : LiveSets) (id : BlockId) : LocalSet :=
  s.atStart[id]?.getD ∅

/-- The locals known to be live at the end of a block. -/
def after (s : LiveSets) (id : BlockId) : LocalSet :=
  s.atEnd[id]?.getD ∅

/-- The locals known to be live at the start of one of some blocks. -/
def beforeAny (s : LiveSets) (targets : List BlockId) : LocalSet :=
  targets.foldl (fun live target => live ∪ s.before target) ∅

/-- Set what is known of a block. -/
def put (s : LiveSets) (id : BlockId) (before after : LocalSet) : LiveSets :=
  { atStart := s.atStart.setIfInBounds id before, atEnd := s.atEnd.setIfInBounds id after }

/-- Work out the sets of a block from what is known of the blocks to which it leads. The flag is set
if this changes one of them. -/
def update (b : Body) (known : LiveSets × Bool) (id : BlockId) : LiveSets × Bool :=
  match b.blocks[id]? with
  | none => known
  | some data =>
    let (s, changed) := known
    let after := s.beforeAny data.successors
    let before := data.transfer after
    if before = s.before id ∧ after = s.after id then (s, changed)
    else (s.put id before after, true)

/-- Work out the sets of some blocks, one after the other. -/
def sweep (b : Body) (order : List BlockId) (s : LiveSets) : LiveSets × Bool :=
  order.foldl (update b) (s, false)

/-! ## Sets that only rise -/

variable {b : Body} {s t u : LiveSets} {c : Bool} {id : BlockId} {l : LocalId}

/-- What the one says is live the other says too. -/
structure Below (s t : LiveSets) : Prop where
  before : ∀ id, ∀ l ∈ s.before id, l ∈ t.before id
  after : ∀ id, ∀ l ∈ s.after id, l ∈ t.after id

theorem Below.trans (hst : s.Below t) (htu : t.Below u) : s.Below u :=
  ⟨fun id l hl => htu.before id l (hst.before id l hl), fun id l hl => htu.after id l (hst.after id l hl)⟩

theorem before_unknown (size : Nat) : (unknown size).before id = ∅ := by
  simp only [before, unknown, Array.getElem?_replicate]
  split <;> rfl

theorem after_unknown (size : Nat) : (unknown size).after id = ∅ := by
  simp only [after, unknown, Array.getElem?_replicate]
  split <;> rfl

theorem not_mem_before_unknown {size : Nat} : l ∉ (unknown size).before id := by
  rw [before_unknown]
  exact Std.ExtTreeSet.not_mem_empty

theorem not_mem_after_unknown {size : Nat} : l ∉ (unknown size).after id := by
  rw [after_unknown]
  exact Std.ExtTreeSet.not_mem_empty

theorem before_put {x y : LocalSet} {v : BlockId} (hid : id < s.atStart.size) :
    (s.put id x y).before v = if id = v then x else s.before v := by
  simp only [before, put, Array.getElem?_setIfInBounds]
  split
  · next he =>
    subst he
    rfl
  · rfl

theorem after_put {x y : LocalSet} {v : BlockId} (hid : id < s.atEnd.size) :
    (s.put id x y).after v = if id = v then y else s.after v := by
  simp only [after, put, Array.getElem?_setIfInBounds]
  split
  · next he =>
    subst he
    rfl
  · rfl

theorem mem_beforeAny {targets : List BlockId} :
    l ∈ s.beforeAny targets ↔ ∃ target ∈ targets, l ∈ s.before target := by
  have hfold : ∀ {live : LocalSet}, l ∈ targets.foldl (fun live target => live ∪ s.before target) live ↔
      l ∈ live ∨ ∃ target ∈ targets, l ∈ s.before target := by
    induction targets with
    | nil => simp
    | cons target targets ih =>
      intro live
      rw [List.foldl_cons, ih, Std.ExtTreeSet.mem_union_iff, or_assoc]
      simp only [List.mem_cons, or_and_right, exists_or, exists_eq_left]
  rw [beforeAny, hfold]
  simp only [Std.ExtTreeSet.not_mem_empty, false_or]

theorem beforeAny_mono (h : s.Below t) {targets : List BlockId} (hl : l ∈ s.beforeAny targets) :
    l ∈ t.beforeAny targets := by
  rw [mem_beforeAny] at hl ⊢
  obtain ⟨target, htarget, hl⟩ := hl
  exact ⟨target, htarget, h.before target l hl⟩

/-- What is known of a block is no more than the next update makes of it. -/
structure Rising (b : Body) (s : LiveSets) : Prop where
  size_start : s.atStart.size = b.blocks.size
  size_end : s.atEnd.size = b.blocks.size
  after : ∀ id, ∀ l ∈ s.after id, l ∈ s.beforeAny (b.successors id)
  before : ∀ id, ∀ l ∈ s.before id, ∃ data, b.blocks[id]? = some data ∧
    l ∈ data.transfer (s.beforeAny data.successors)
  reads : ∀ id, ∀ l ∈ s.before id, l ∈ b.reads

theorem Rising.mem_reads_of_beforeAny (h : Rising b s) {targets : List BlockId}
    (hl : l ∈ s.beforeAny targets) : l ∈ b.reads := by
  obtain ⟨target, -, hl⟩ := mem_beforeAny.1 hl
  exact h.reads target l hl

theorem rising_unknown (b : Body) : Rising b (unknown b.blocks.size) where
  size_start := Array.size_replicate
  size_end := Array.size_replicate
  after _ _ hl := absurd hl not_mem_after_unknown
  before _ _ hl := absurd hl not_mem_before_unknown
  reads _ _ hl := absurd hl not_mem_before_unknown

/-- What an update makes of a block. -/
def renew (s : LiveSets) (id : BlockId) (data : Block) : LiveSets :=
  s.put id (data.transfer (s.beforeAny data.successors)) (s.beforeAny data.successors)

namespace Rising

variable {data : Block}

theorem before_renew (h : Rising b s) (hdata : b.blocks[id]? = some data) (v : BlockId) :
    (s.renew id data).before v =
      if id = v then data.transfer (s.beforeAny data.successors) else s.before v :=
  before_put (Nat.lt_of_lt_of_eq (Array.getElem?_eq_some_iff.1 hdata).1 h.size_start.symm)

theorem after_renew (h : Rising b s) (hdata : b.blocks[id]? = some data) (v : BlockId) :
    (s.renew id data).after v = if id = v then s.beforeAny data.successors else s.after v :=
  after_put (Nat.lt_of_lt_of_eq (Array.getElem?_eq_some_iff.1 hdata).1 h.size_end.symm)

theorem below_renew (h : Rising b s) (hdata : b.blocks[id]? = some data) :
    s.Below (s.renew id data) := by
  constructor
  · intro v l hl
    rw [h.before_renew hdata]
    split
    · next he =>
      subst he
      obtain ⟨data', hdata', hl⟩ := h.before id l hl
      obtain rfl := Option.some.inj (hdata.symm.trans hdata')
      exact hl
    · exact hl
  · intro v l hl
    rw [h.after_renew hdata]
    split
    · next he =>
      subst he
      have hl := h.after id l hl
      rwa [Body.successors, hdata] at hl
    · exact hl

theorem renew (h : Rising b s) (hdata : b.blocks[id]? = some data) : Rising b (s.renew id data) := by
  have habove := h.below_renew hdata
  refine ⟨?_, ?_, fun v l hl => ?_, fun v l hl => ?_, fun v l hl => ?_⟩
  · rw [LiveSets.renew, LiveSets.put, Array.size_setIfInBounds, h.size_start]
  · rw [LiveSets.renew, LiveSets.put, Array.size_setIfInBounds, h.size_end]
  · rw [h.after_renew hdata] at hl
    split at hl
    · next he =>
      subst he
      rw [Body.successors, hdata]
      exact beforeAny_mono habove hl
    · exact beforeAny_mono habove (h.after v l hl)
  · rw [h.before_renew hdata] at hl
    split at hl
    · next he =>
      subst he
      exact ⟨data, hdata, Block.transfer_mono (fun _ => beforeAny_mono habove) hl⟩
    · obtain ⟨data', hdata', hl⟩ := h.before v l hl
      exact ⟨data', hdata', Block.transfer_mono (fun _ => beforeAny_mono habove) hl⟩
  · rw [h.before_renew hdata] at hl
    split at hl
    · exact (Body.mem_reads_of_transfer hdata hl).elim h.mem_reads_of_beforeAny fun hl => hl
    · exact h.reads v l hl

end Rising

/-! ## How much is left -/

/-- The places where a local may yet become known to be live: a block and a local that the body
reads. -/
def cells (b : Body) : List (BlockId × LocalId) :=
  (List.range b.blocks.size).flatMap fun id => b.reads.map (id, ·)

/-- How many of the places are left, at the starts and at the ends of the blocks. -/
def room (b : Body) (s : LiveSets) : Nat :=
  ((cells b).countP fun c => !(s.before c.1).contains c.2) +
    (cells b).countP fun c => !(s.after c.1).contains c.2

theorem room_lt (h : s.Below t) (hlt : id < b.blocks.size) (hl : l ∈ b.reads)
    (hnew : l ∈ t.before id ∧ l ∉ s.before id ∨ l ∈ t.after id ∧ l ∉ s.after id) :
    t.room b < s.room b := by
  have hcell : (id, l) ∈ cells b :=
    List.mem_flatMap.2 ⟨id, List.mem_range.2 hlt, List.mem_map.2 ⟨l, hl, rfl⟩⟩
  have hweaker : ∀ {x y : LocalSet}, (∀ l ∈ x, l ∈ y) → ∀ l, (!y.contains l) = true → (!x.contains l) = true := by
    intro x y hle l hy
    rw [Bool.not_eq_true', ← Bool.not_eq_true, Std.ExtTreeSet.contains_iff_mem] at hy ⊢
    exact fun hx => hy (hle l hx)
  have hin : ∀ {x : LocalSet}, l ∈ x → (!x.contains l) = false := by
    intro x hx
    rw [Std.ExtTreeSet.contains_iff_mem.2 hx, Bool.not_true]
  have hout : ∀ {x : LocalSet}, l ∉ x → (!x.contains l) = true := by
    intro x hx
    rw [Bool.not_eq_true', ← Bool.not_eq_true, Std.ExtTreeSet.contains_iff_mem]
    exact hx
  have hbefore := fun c : BlockId × LocalId => hweaker (h.before c.1) c.2
  have hafter := fun c : BlockId × LocalId => hweaker (h.after c.1) c.2
  rcases hnew with ⟨ht, hs⟩ | ⟨ht, hs⟩
  · exact Nat.add_lt_add_of_lt_of_le (countP_lt_of_mem hbefore hcell (hout hs) (hin ht))
      (List.countP_mono_left fun c _ => hafter c)
  · exact Nat.add_lt_add_of_le_of_lt (List.countP_mono_left fun c _ => hbefore c)
      (countP_lt_of_mem hafter hcell (hout hs) (hin ht))

/-- An update would not change what is known of a block. -/
def Settled (b : Body) (s : LiveSets) (id : BlockId) : Prop :=
  ∀ data, b.blocks[id]? = some data →
    data.transfer (s.beforeAny data.successors) = s.before id ∧ s.beforeAny data.successors = s.after id

/-- What some sets have become when something has changed. -/
structure Risen (b : Body) (s t : LiveSets) : Prop where
  rising : Rising b t
  above : s.Below t
  room_lt : t.room b < s.room b

theorem Risen.trans (h : Risen b s t) (h' : Risen b t u) : Risen b s u :=
  ⟨h'.rising, h.above.trans h'.above, Nat.lt_trans h'.room_lt h.room_lt⟩

/-- An update changes nothing, or it takes up some of the room. -/
theorem update_cases (h : Rising b s) (c : Bool) (id : BlockId) :
    (update b (s, c) id = (s, c) ∧ Settled b s id) ∨
      ∃ t, update b (s, c) id = (t, true) ∧ Risen b s t := by
  unfold update
  cases hdata : b.blocks[id]? with
  | none => exact .inl ⟨rfl, fun data hsome => absurd (hdata.symm.trans hsome) (by simp)⟩
  | some data =>
    dsimp only
    by_cases hsame : data.transfer (s.beforeAny data.successors) = s.before id ∧
        s.beforeAny data.successors = s.after id
    · rw [if_pos hsame]
      refine .inl ⟨rfl, fun data' hdata' => ?_⟩
      obtain rfl := Option.some.inj (hdata.symm.trans hdata')
      exact hsame
    · rw [if_neg hsame]
      have habove := h.below_renew hdata
      refine .inr ⟨_, rfl, h.renew hdata, habove, ?_⟩
      have hlt := (Array.getElem?_eq_some_iff.1 hdata).1
      have hbefore := h.before_renew hdata id
      have hafter := h.after_renew hdata id
      rw [if_pos rfl] at hbefore hafter
      -- one of the two sets is not what it was, and so has a new member
      rcases Decidable.not_and_iff_or_not.1 hsame with hne | hne
      · obtain ⟨l, hl, hnew⟩ := LocalSet.exists_new (hbefore ▸ habove.before id) hne
        rw [← hbefore] at hl
        exact room_lt habove hlt ((h.renew hdata).reads id l hl) (.inl ⟨hl, hnew⟩)
      · obtain ⟨l, hl, hnew⟩ := LocalSet.exists_new (hafter ▸ habove.after id) hne
        refine room_lt habove hlt (h.mem_reads_of_beforeAny hl) (.inr ⟨?_, hnew⟩)
        rwa [← hafter] at hl

/-- Some updates change nothing, or they take up some of the room. -/
theorem updates_cases (ids : List BlockId) (h : Rising b s) (c : Bool) :
    (ids.foldl (update b) (s, c) = (s, c) ∧ ∀ id ∈ ids, Settled b s id) ∨
      ∃ t, ids.foldl (update b) (s, c) = (t, true) ∧ Risen b s t := by
  induction ids generalizing s c with
  | nil => exact .inl ⟨rfl, fun _ hid => absurd hid List.not_mem_nil⟩
  | cons id ids ih =>
    rw [List.foldl_cons]
    rcases update_cases h c id with ⟨he, hsettled⟩ | ⟨t, he, hrisen⟩
    · rw [he]
      refine (ih h c).imp_left fun hrest => ?_
      exact ⟨hrest.1, List.forall_mem_cons.2 ⟨hsettled, hrest.2⟩⟩
    · rw [he]
      right
      rcases ih hrisen.rising true with ⟨he', -⟩ | ⟨u, he', hrisen'⟩
      · exact ⟨t, he', hrisen⟩
      · exact ⟨u, he', hrisen.trans hrisen'⟩

theorem settled_of_sweep {order : List BlockId} (h : Rising b s) (he : sweep b order s = (t, false)) :
    t = s ∧ ∀ id ∈ order, Settled b s id := by
  rcases updates_cases order h false with ⟨he', hsettled⟩ | ⟨u, he', -⟩
  · exact ⟨(Prod.mk.inj (he.symm.trans he')).1, hsettled⟩
  · exact absurd (Prod.mk.inj (he.symm.trans he')).2 Bool.false_ne_true

theorem risen_of_sweep {order : List BlockId} (h : Rising b s) (he : sweep b order s = (t, true)) :
    Risen b s t := by
  rcases updates_cases order h false with ⟨he', -⟩ | ⟨u, he', hrisen⟩
  · exact absurd (Prod.mk.inj (he'.symm.trans he)).2 Bool.false_ne_true
  · obtain rfl := (Prod.mk.inj (he.symm.trans he')).1
    exact hrisen

/-- Sweep until nothing changes. -/
def settle (b : Body) (order : List BlockId) (s : LiveSets) (h : Rising b s) : LiveSets :=
  match he : sweep b order s with
  | (t, true) => settle b order t (risen_of_sweep h he).rising
  | (t, false) => t
termination_by s.room b
decreasing_by exact (risen_of_sweep h he).room_lt

end LiveSets

/-- The live locals of a body. The sweeps go over the blocks that the entry reaches, each after those to
which it leads unless they are on a cycle. -/
def Body.liveSets (b : Body) : LiveSets :=
  LiveSets.settle b b.reversePostorder.reverse (.unknown b.blocks.size) (LiveSets.rising_unknown b)

end Reclamation
