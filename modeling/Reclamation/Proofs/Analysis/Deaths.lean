import Mathlib
import Reclamation.Proofs.Analysis.ReadFirst

/-!
# A value dies once

A *lifetime* of a local is what control does from where the local gets a value to where it gets the next one,
or to the end of a block that leads nowhere (`Body.Lifetime`). The first value of a local that is live at the
entry is there from the start.

While the local is live it has not died, and when it is live no more it has died once and is not read again.
This is what each step keeps (`Underway`): an instruction or a jump is a death of the local exactly if the
local is live before it and not after it. Where a lifetime stops nothing is live, unless the instruction that
assigns the local reads it as well, so a lifetime has exactly one death (`Liveness.dies_once`).

The analysis looks only at the blocks that the entry reaches. A local that another block assigns has no death
there (`Liveness.never_dies_unreached`).
-/

set_option autoImplicit false

namespace Reclamation

/-! ## Lifetimes -/

/-- The place where a local dies that dies with a step: right after the instruction, or on the jump. -/
def Body.Step.death : Body.Step → DeathPoint
  | .exec loc _ => .after loc
  | .jump source target => .edge source target

namespace Body

/-- Control that has come to a position stops there because a local is assigned next, or it stops with the end
of a block that leads nowhere. -/
inductive Stops (b : Body) (l : LocalId) : Location → List Step → Prop
  | assigned {loc : Location} {i : Instruction} :
      b.instruction? loc = some i → i.Assigns l → Stops b l loc []
  | exit {loc : Location} {t : Terminator} :
      b.instruction? loc = some (.terminator t) → t.successors = [] →
        Stops b l loc [.exec loc (.terminator t)]

/-- Steps that control makes, from a position, while a local has one value: from the entry, if the local is
live there, or with an assignment of the local and from there, until it stops. -/
inductive Lifetime (b : Body) (l : LocalId) : Location → List Step → Prop
  | entry {loc : Location} {way last : List Step} :
      entryBlock ∈ (Liveness.ofBody b).liveIn l → b.Way ⟨entryBlock, 0⟩ way loc → b.Stops l loc last →
        Unassigned l (way ++ last) → Lifetime b l ⟨entryBlock, 0⟩ (way ++ last)
  | assigned {start loc : Location} {i : Instruction} {way last steps : List Step} :
      i.Assigns l → b.Way start way loc → b.Stops l loc last → way ++ last = .exec start i :: steps →
        Unassigned l steps → Lifetime b l start (.exec start i :: steps)

end Body

/-- The order in which deaths are listed: those after instructions before those on jumps, each by position. -/
def DeathPoint.Precedes : DeathPoint → DeathPoint → Prop
  | .after loc, .after loc' => loc.block < loc'.block ∨ loc.block = loc'.block ∧ loc.index < loc'.index
  | .after _, .edge _ _ => True
  | .edge _ _, .after _ => False
  | .edge source target, .edge source' target' => source < source' ∨ source = source' ∧ target < target'

namespace Liveness

open Body (Step)

/-- With one of the steps, and with no other, a local dies, and after it the local is not read. -/
def DiesOnce (b : Body) (l : LocalId) (steps : List Step) : Prop :=
  ∃ pre step post, steps = pre ++ step :: post ∧ step.death ∈ (ofBody b).deathPoints l ∧
    (∀ s ∈ pre ++ post, s.death ∉ (ofBody b).deathPoints l) ∧ ∀ d i, .exec d i ∈ post → ¬ i.Reads l

variable {b : Body} {l : LocalId} {loc start : Location} {i : Instruction} {steps rest : List Step}

/-! ## Deaths along a way -/

/-- How far control has come in a lifetime, after some steps: the local is live and has not died, or it is not
live and has died once. -/
inductive Underway (b : Body) (l : LocalId) : Bool → List Step → Prop
  | live {steps : List Step} : (∀ s ∈ steps, s.death ∉ (ofBody b).deathPoints l) → Underway b l true steps
  | dead {steps : List Step} : DiesOnce b l steps → Underway b l false steps

theorem Underway.diesOnce (h : Underway b l false steps) : DiesOnce b l steps := by
  cases h with
  | dead h => exact h

/-- A step with which the local dies exactly if it is live before and not after, and which brings no dead
local back. -/
theorem Underway.step {live live' : Bool} {step : Step} (h : Underway b l live steps)
    (hdeath : step.death ∈ (ofBody b).deathPoints l ↔ live = true ∧ live' = false)
    (hdead : live = false → live' = false ∧ ∀ d i, step = .exec d i → ¬ i.Reads l) :
    Underway b l live' (steps ++ [step]) := by
  cases h with
  | live hnone =>
    cases live' with
    | true =>
      apply Underway.live
      intro s hs
      rcases List.mem_append.1 hs with hs | hs
      · exact hnone s hs
      · rw [List.mem_singleton.1 hs, hdeath]
        simp
    | false =>
      refine .dead ⟨steps, step, [], rfl, hdeath.2 ⟨rfl, rfl⟩, ?_, fun _ _ hmem => absurd hmem List.not_mem_nil⟩
      rwa [List.append_nil]
  | dead honce =>
    obtain ⟨pre, first, post, rfl, hfirst, hnone, hread⟩ := honce
    obtain ⟨rfl, hstep⟩ := hdead rfl
    refine .dead ⟨pre, first, post ++ [step], by simp, hfirst, ?_, ?_⟩
    · intro s hs
      rw [← List.append_assoc] at hs
      rcases List.mem_append.1 hs with hs | hs
      · exact hnone s hs
      · rw [List.mem_singleton.1 hs, hdeath]
        simp
    · intro d i hmem
      rcases List.mem_append.1 hmem with hmem | hmem
      · exact hread d i hmem
      · exact hstep d i (List.mem_singleton.1 hmem).symm

variable (hb : b.Complete)
include hb

/-- An instruction that assigns the local starts a lifetime: the local is live after it or dies with it. -/
theorem Underway.assigned (hreached : start.block ∈ (ofBody b).reached) (hi : b.instruction? start = some i)
    (hassign : i.Assigns l) : Underway b l ((ofBody b).liveAt l start.next) [.exec start i] := by
  have hdeath : .after start ∈ (ofBody b).deathPoints l ↔ (ofBody b).liveAt l start.next = false := by
    rw [after_mem_deathPoints hb]
    constructor
    · intro h
      obtain ⟨-, _, -, -, hdead⟩ := h
      exact hdead
    · intro hdead
      have hdef := Instruction.assigns_iff.1 hassign
      exact ⟨hreached, i, hi, by simp [Effects.touches, hdef], hdead⟩
  cases hlive : (ofBody b).liveAt l start.next with
  | true =>
    apply Underway.live
    intro s hs
    rw [List.mem_singleton.1 hs]
    intro hmem
    exact absurd (hdeath.1 hmem) (by simp [hlive])
  | false => exact .dead ⟨[], _, [], rfl, hdeath.2 hlive, by simp, fun _ _ hmem => absurd hmem List.not_mem_nil⟩

/-- An instruction that does not assign the local is a death of it if it is live before and not after. -/
theorem after_mem_deathPoints_iff_liveAt (hreached : loc.block ∈ (ofBody b).reached)
    (hi : b.instruction? loc = some i) (hdef : ¬ i.Assigns l) : .after loc ∈ (ofBody b).deathPoints l ↔
      (ofBody b).liveAt l loc = true ∧ (ofBody b).liveAt l loc.next = false := by
  rw [Instruction.assigns_iff] at hdef
  rw [after_mem_deathPoints hb, liveAt_exec hi]
  constructor
  · intro h
    obtain ⟨-, j, hj, htouch, hdead⟩ := h
    obtain rfl := Option.some.inj (hi.symm.trans hj)
    refine ⟨?_, hdead⟩
    simpa [Effects.liveBefore, Effects.touches, hdef, hdead] using htouch
  · intro h
    obtain ⟨hlive, hdead⟩ := h
    refine ⟨hreached, i, hi, ?_, hdead⟩
    simpa [Effects.liveBefore, Effects.touches, hdef, hdead] using hlive

theorem Underway.exec (h : Underway b l ((ofBody b).liveAt l loc) steps)
    (hreached : loc.block ∈ (ofBody b).reached) (hi : b.instruction? loc = some i) (hdef : ¬ i.Assigns l) :
    Underway b l ((ofBody b).liveAt l loc.next) (steps ++ [.exec loc i]) := by
  apply h.step
  · exact after_mem_deathPoints_iff_liveAt hb hreached hi hdef
  · intro hdead
    rw [← Bool.not_eq_true] at hdead ⊢
    refine ⟨fun hlive => hdead (liveAt_of_next hi hdef hlive), ?_⟩
    intro d j he hread
    obtain ⟨rfl, rfl⟩ := Step.exec.inj he
    exact hdead (liveAt_of_reads hi hread)

theorem Underway.jump {t : Terminator} {target : BlockId}
    (h : Underway b l ((ofBody b).liveAt l loc.next) steps) (hreached : loc.block ∈ (ofBody b).reached)
    (ht : b.instruction? loc = some (.terminator t)) (htarget : target ∈ t.successors) :
    Underway b l ((ofBody b).liveAt l ⟨target, 0⟩) (steps ++ [.jump loc.block target]) := by
  apply h.step
  · exact edge_mem_deathPoints_iff_liveAt hb hreached ht htarget
  · intro hdead
    rw [← Bool.not_eq_true] at hdead ⊢
    exact ⟨fun hlive => hdead (liveAt_of_target hb hreached ht htarget hlive), fun _ _ he => nomatch he⟩

theorem Underway.way (hway : b.Way start rest loc) (hreached : start.block ∈ (ofBody b).reached)
    (hclear : Body.Unassigned l rest) : ∀ {steps : List Step}, Underway b l ((ofBody b).liveAt l start) steps →
      Underway b l ((ofBody b).liveAt l loc) (steps ++ rest) := by
  induction hway with
  | here =>
    intro steps h
    rwa [List.append_nil]
  | next hs _ ih =>
    intro steps h
    obtain ⟨hdef, hclear⟩ := Body.unassigned_exec.1 hclear
    rw [List.append_cons]
    exact ih hreached hclear (h.exec hb hreached hs hdef)
  | jump ht htarget _ ih =>
    intro steps h
    obtain ⟨hdef, hclear⟩ := Body.unassigned_exec.1 hclear
    have htarget' := reached_of_reaches hb hreached (hb.edge ht htarget).reaches
    have hjump := (h.exec hb hreached ht hdef).jump hb hreached ht htarget
    simpa using ih htarget' (Body.unassigned_jump.1 hclear) hjump

/-- Where a lifetime stops the local is not live, unless an instruction reads and assigns it. -/
theorem Underway.stops {last : List Step}
    (hapart : ∀ loc i, b.instruction? loc = some i → i.Reads l → ¬ i.Assigns l)
    (hreached : loc.block ∈ (ofBody b).reached) (hstops : b.Stops l loc last) (hclear : Body.Unassigned l last)
    (h : Underway b l ((ofBody b).liveAt l loc) steps) : DiesOnce b l (steps ++ last) := by
  cases hstops with
  | @assigned i hi hassign =>
    have hdead : (ofBody b).liveAt l loc = false := by
      have hread : l ∉ i.effects.uses := fun huse => hapart loc i hi (Instruction.reads_iff.2 huse) hassign
      rw [liveAt_exec hi]
      simp [Effects.liveBefore, hread, Instruction.assigns_iff.1 hassign]
    rw [hdead] at h
    rw [List.append_nil]
    exact h.diesOnce
  | exit ht hnone =>
    have hexec := h.exec hb hreached ht (Body.unassigned_exec.1 hclear).1
    rw [liveAt_of_exit ht hnone] at hexec
    exact hexec.diesOnce

theorem diesOnce_of_lifetime (hapart : ∀ loc i, b.instruction? loc = some i → i.Reads l → ¬ i.Assigns l)
    (hreached : start.block ∈ (ofBody b).reached) (h : b.Lifetime l start steps) : DiesOnce b l steps := by
  cases h with
  | @entry loc way last hlive hway hstops hclear =>
    have hstart : Underway b l ((ofBody b).liveAt l ⟨entryBlock, 0⟩) [] := by
      rw [(liveAt_start hb hreached).2 hlive]
      exact .live nofun
    have hloc := reached_of_reaches hb hreached (hway.reaches hb)
    have hstand := hstart.way hb hway hreached (Body.unassigned_append.1 hclear).1
    exact hstand.stops hb hapart hloc hstops (Body.unassigned_append.1 hclear).2
  | @assigned start loc i way last steps hassign hway hstops he hclear =>
    have hloc := reached_of_reaches hb hreached (hway.reaches hb)
    -- the way starts with the assignment, which may be all of it
    cases hway with
    | here =>
      cases hstops with
      | assigned => cases he
      | exit ht hnone =>
        obtain ⟨hstep, rfl⟩ := List.cons.inj he
        obtain ⟨-, rfl⟩ := Step.exec.inj hstep
        have hfirst := Underway.assigned hb hreached ht hassign
        rw [liveAt_of_exit ht hnone] at hfirst
        exact hfirst.diesOnce
    | next hs hway =>
      obtain ⟨hstep, rfl⟩ := List.cons.inj he
      obtain ⟨-, rfl⟩ := Step.exec.inj hstep
      obtain ⟨hclear, hlast⟩ := Body.unassigned_append.1 hclear
      have hfirst := Underway.assigned hb hreached hs hassign
      exact (hfirst.way hb hway hreached hclear).stops hb hapart hloc hstops hlast
    | jump ht htarget hway =>
      obtain ⟨hstep, rfl⟩ := List.cons.inj he
      obtain ⟨-, rfl⟩ := Step.exec.inj hstep
      obtain ⟨hclear, hlast⟩ := Body.unassigned_append.1 (Body.unassigned_jump.1 hclear)
      have hfirst := (Underway.assigned hb hreached ht hassign).jump hb hreached ht htarget
      have htarget' := reached_of_reaches hb hreached (hb.edge ht htarget).reaches
      exact (hfirst.way hb hway htarget' hclear).stops hb hapart hloc hstops hlast

omit hb

/-! ## The order of deaths -/

theorem pairwise_reached (b : Body) : (ofBody b).reached.Pairwise (· < ·) :=
  pairwise_lt_of_mergeSort (List.Sublist.refl _) (nodup_reached b)

theorem pairwise_deathsWithin (b : Body) (l : LocalId) (id : BlockId) :
    ((ofBody b).deathsWithin l id).Pairwise DeathPoint.Precedes := by
  rw [deathsWithin]
  split
  · next data _ =>
    have hindex : ((data.effects.zip (liveAlong l ((ofBody b).isLiveOut l id)
        data.effects).tail).zipIdx.map (·.2)).Pairwise (· < ·) := by
      rw [List.zipIdx_map_snd]
      exact List.pairwise_lt_range'
    refine List.pairwise_map.2 ((List.pairwise_map.1 hindex).filter _ |>.imp ?_)
    intro x y hlt
    exact .inr ⟨rfl, hlt⟩
  · exact List.Pairwise.nil

theorem pairwise_edgeDeaths (v : Liveness) (l : LocalId) (id : BlockId) :
    (v.edgeDeaths l id).Pairwise DeathPoint.Precedes := by
  rw [edgeDeaths]
  split
  · refine List.pairwise_map.2 ((pairwise_lt_of_mergeSort (eraseDups_sublist _) (nodup_eraseDups _)).imp ?_)
    intro target target' hlt
    exact .inr ⟨rfl, hlt⟩
  · exact List.Pairwise.nil

theorem pairwise_deathPoints (hb : b.Complete) (l : LocalId) :
    ((ofBody b).deathPoints l).Pairwise DeathPoint.Precedes := by
  rw [deathPoints_eq, List.pairwise_append]
  refine ⟨List.pairwise_flatMap.2 ⟨fun id _ => pairwise_deathsWithin b l id, ?_⟩,
    List.pairwise_flatMap.2 ⟨fun id _ => pairwise_edgeDeaths _ _ id, ?_⟩, ?_⟩
  · apply (pairwise_reached b).imp
    intro id id' hlt d hd d' hd'
    obtain ⟨loc, _, rfl, rfl, -⟩ := mem_deathsWithin.1 hd
    obtain ⟨loc', _, rfl, rfl, -⟩ := mem_deathsWithin.1 hd'
    exact .inl hlt
  · apply (pairwise_reached b).imp_of_mem
    intro id id' hid hid' hlt d hd d' hd'
    obtain ⟨_, rfl, -⟩ := (mem_edgeDeaths hb hid).1 hd
    obtain ⟨_, rfl, -⟩ := (mem_edgeDeaths hb hid').1 hd'
    exact .inl hlt
  · intro d hd d' hd'
    obtain ⟨id, _, hd⟩ := List.mem_flatMap.1 hd
    obtain ⟨id', hid', hd'⟩ := List.mem_flatMap.1 hd'
    obtain ⟨_, _, rfl, -⟩ := mem_deathsWithin.1 hd
    obtain ⟨_, rfl, -⟩ := (mem_edgeDeaths hb hid').1 hd'
    trivial

/-! ## Main result -/

/-- A value dies once. If no instruction reads a local and assigns it as well, then in each of its lifetimes
that starts in a block that the entry reaches the local dies exactly once, and it is not read after that. Its
deaths are listed in order and without repetition. -/
theorem dies_once (hb : b.check = .ok ()) (l : LocalId)
    (hapart : ∀ loc i, b.instruction? loc = some i → i.Reads l → ¬ i.Assigns l) :
    (∀ start steps, b.flow.Reaches entryBlock start.block → b.Lifetime l start steps → DiesOnce b l steps) ∧
      ((ofBody b).deathPoints l).Pairwise DeathPoint.Precedes ∧ ((ofBody b).deathPoints l).Nodup := by
  have hb := Body.complete_of_check hb
  refine ⟨?_, pairwise_deathPoints hb l, nodup_deathPoints hb l⟩
  intro start steps hreach hlife
  exact diesOnce_of_lifetime hb hapart ((mem_reached hb).2 hreach) hlife

/-- That no instruction reads and assigns a local, from the lists of a body. -/
theorem apart_of_lists (hstatements : ∀ x ∈ b.statements, l ∈ x.2.effects.uses → l ∉ x.2.effects.defs)
    (hterminators : ∀ x ∈ b.terminators, l ∈ x.2.effects.uses → l ∉ x.2.effects.defs) :
    ∀ loc i, b.instruction? loc = some i → i.Reads l → ¬ i.Assigns l := by
  intro loc i hi
  rw [Instruction.reads_iff, Instruction.assigns_iff]
  cases i with
  | statement s => exact hstatements _ (Body.mem_statements.2 hi)
  | terminator t => exact hterminators _ (Body.mem_terminators.2 hi)

/-- One turn of the loop, and out of it. -/
def fillingTurn : List Step :=
  [.exec ⟨0, 0⟩ (.statement (.assign (.ofLocal 1) (.alloc 0 0 false []))),
    .exec ⟨0, 1⟩ (.terminator (.goto 1)), .jump 0 1,
    .exec ⟨1, 0⟩ (.terminator (.switch (.const 0) [2] 3)), .jump 1 2,
    .exec ⟨2, 0⟩ (.statement (.assign { base := 1, projection := [.field 0] } (.use (.const 7)))),
    .exec ⟨2, 1⟩ (.terminator (.goto 1)), .jump 2 1,
    .exec ⟨1, 0⟩ (.terminator (.switch (.const 0) [2] 3)), .jump 1 3,
    .exec ⟨3, 0⟩ (.terminator .ret)]

/-- The local that the loop fills dies on the jump out of it, and not where it is written last. -/
theorem dies_once_filling : filling.check = .ok () ∧ filling.Lifetime 1 ⟨0, 0⟩ fillingTurn ∧
    DiesOnce filling 1 fillingTurn := by
  have hb : filling.check = .ok () := rfl
  have hapart := apart_of_lists (b := filling) (l := 1) (by decide) (by decide)
  have hway : filling.Way ⟨0, 0⟩ (fillingTurn.take 10) ⟨3, 0⟩ :=
    .next rfl (.jump rfl (by decide) (.jump rfl (by decide) (.next rfl (.jump rfl (by decide)
      (.jump rfl (by decide) .here)))))
  have hclear : Body.Unassigned 1 fillingTurn.tail := by
    simp only [fillingTurn, List.tail_cons, Body.unassigned_exec, Body.unassigned_jump]
    refine ⟨nofun, nofun, ?_, nofun, nofun, nofun, Body.unassigned_nil⟩
    rw [Instruction.assigns_iff]
    decide
  have hlife : filling.Lifetime 1 ⟨0, 0⟩ fillingTurn := .assigned rfl hway (.exit rfl rfl) rfl hclear
  exact ⟨hb, hlife, (dies_once hb 1 hapart).1 _ _ (.refl 0) hlife⟩

/-! ## Blocks that are not reached -/

/-- A body with a block that nothing leads to. It assigns a local that is read nowhere. -/
def stranded : Body where
  name := "stranded"
  locals := #[{ kind := .returnPlace }, { kind := .var }]
  paramCount := 0
  blocks := #[{ terminator := some .ret },
    { statements := [.assign (.ofLocal 1) (.use (.const 0))], terminator := some .ret }]

/-- In a block that the entry does not reach a value has a lifetime and no death. -/
theorem never_dies_unreached : stranded.check = .ok () ∧
    (∀ loc i, stranded.instruction? loc = some i → i.Reads 1 → ¬ i.Assigns 1) ∧
    ∃ steps, stranded.Lifetime 1 ⟨1, 0⟩ steps ∧ ∀ step ∈ steps, step.death ∉ (ofBody stranded).deathPoints 1 := by
  have hb : stranded.check = .ok () := rfl
  have hcomplete := Body.complete_of_check hb
  have hunreached : 1 ∉ (ofBody stranded).reached := by
    rw [mem_reached hcomplete]
    intro hreach
    cases hreach with
    | step hedge _ => exact absurd hedge.2.choose_spec List.not_mem_nil
  have hlife : stranded.Lifetime 1 ⟨1, 0⟩ [.exec ⟨1, 0⟩ (.statement (.assign (.ofLocal 1) (.use (.const 0)))),
      .exec ⟨1, 1⟩ (.terminator .ret)] :=
    .assigned rfl (.next rfl .here) (.exit rfl rfl) rfl (Body.unassigned_exec.2 ⟨nofun, Body.unassigned_nil⟩)
  refine ⟨hb, apart_of_lists (by decide) (by decide), _, hlife, ?_⟩
  intro step hstep hdeath
  obtain ⟨loc, hloc, hblock⟩ : ∃ loc, step.death = .after loc ∧ loc.block = 1 := by
    rcases List.mem_cons.1 hstep with rfl | hstep
    · exact ⟨_, rfl, rfl⟩
    · rw [List.mem_singleton.1 hstep]
      exact ⟨_, rfl, rfl⟩
  rw [hloc] at hdeath
  exact hunreached (hblock ▸ ((after_mem_deathPoints hcomplete).1 hdeath).1)

end Liveness

end Reclamation
