import Mathlib
import Reclamation.Program.Body

/-!
# Paths through a body

Control enters at the first block, executes the statements of a block in order and then its terminator,
and goes on at one of the blocks that the terminator names. `Body.Path` is this relation: the steps
made so far, and the position at which control stands; a `Body.Way` starts anywhere. Nothing here knows of
a plan or of what the statements do.
-/

set_option autoImplicit false

namespace Reclamation

/-! ## Instructions -/

/-- What stands at a position: a statement or, at the end of a block, its terminator. -/
inductive Instruction where
  | statement (s : Statement)
  | terminator (t : Terminator)
  deriving DecidableEq, Repr

def Instruction.effects : Instruction → Effects
  | .statement s => s.effects
  | .terminator t => t.effects

def Block.instructions (b : Block) : List Instruction :=
  b.statements.map .statement ++ (b.terminator.map .terminator).toList

theorem Block.map_effects_instructions (b : Block) :
    b.instructions.map Instruction.effects = b.effects := by
  cases h : b.terminator with
  | none => simp [instructions, effects, h, Function.comp_def, Instruction.effects]
  | some t => simp [instructions, effects, h, Function.comp_def, Instruction.effects]

/-- The position after a statement. -/
def Location.next (loc : Location) : Location :=
  ⟨loc.block, loc.index + 1⟩

namespace Body

def instruction? (b : Body) (loc : Location) : Option Instruction :=
  b.blocks[loc.block]?.bind fun data => data.instructions[loc.index]?

variable {b : Body}

theorem instruction?_eq_some {loc : Location} {i : Instruction} :
    b.instruction? loc = some i ↔
      ∃ data, b.blocks[loc.block]? = some data ∧ data.instructions[loc.index]? = some i :=
  Option.bind_eq_some_iff

theorem instruction?_eq_statement {loc : Location} {s : Statement} :
    b.instruction? loc = some (.statement s) ↔
      ∃ data, b.blocks[loc.block]? = some data ∧ data.statements[loc.index]? = some s := by
  rw [instruction?_eq_some]
  refine exists_congr fun data => and_congr_right fun _ => ?_
  rw [Block.instructions, List.getElem?_append]
  split
  · simp
  · next hlt =>
    have hnone : data.statements[loc.index]? = none := by
      simp only [List.length_map] at hlt
      exact List.getElem?_eq_none_iff.2 (by omega)
    rw [hnone]
    refine ⟨fun h => ?_, fun h => absurd h (by simp)⟩
    have hmem := List.mem_of_getElem? h
    simp at hmem

theorem instruction?_eq_terminator {loc : Location} {t : Terminator} :
    b.instruction? loc = some (.terminator t) ↔ ∃ data, b.blocks[loc.block]? = some data ∧
      data.terminator = some t ∧ loc.index = data.statements.length := by
  rw [instruction?_eq_some]
  refine exists_congr fun data => and_congr_right fun _ => ?_
  rw [Block.instructions, List.getElem?_append]
  split
  · next hlt =>
    simp only [List.length_map] at hlt
    simp only [List.getElem?_map, Option.map_eq_some_iff, reduceCtorEq, and_false, exists_false,
      false_iff, not_and]
    exact fun _ => Nat.ne_of_lt hlt
  · next hlt =>
    simp only [List.length_map] at hlt ⊢
    cases h : data.terminator with
    | none => simp
    | some t' =>
      simp only [Option.map_some, Option.toList_some, List.getElem?_singleton, Option.ite_none_right_eq_some,
        Option.some.injEq, Instruction.terminator.injEq]
      rw [and_comm]
      exact and_congr_right fun _ => by omega

theorem mem_numberedBlocks {id : BlockId} {data : Block} :
    (id, data) ∈ b.numberedBlocks ↔ b.blocks[id]? = some data := by
  simp [numberedBlocks, List.mem_zipIdx_iff_getElem?]

/-- The listed statements are those that stand at a position. -/
theorem mem_statements {loc : Location} {s : Statement} :
    (loc, s) ∈ b.statements ↔ b.instruction? loc = some (.statement s) := by
  rw [statements, List.mem_flatMap, instruction?_eq_statement]
  constructor
  · rintro ⟨⟨id, data⟩, hblock, h⟩
    obtain ⟨⟨s', i⟩, hs, he⟩ := List.mem_map.1 h
    obtain ⟨rfl, rfl⟩ := Prod.mk.inj he
    exact ⟨data, mem_numberedBlocks.1 hblock, List.mem_zipIdx_iff_getElem?.1 hs⟩
  · rintro ⟨data, hblock, hs⟩
    refine ⟨(loc.block, data), mem_numberedBlocks.2 hblock, List.mem_map.2 ⟨(s, loc.index), ?_, rfl⟩⟩
    exact List.mem_zipIdx_iff_getElem?.2 hs

/-- The listed terminators are those that stand at a position. -/
theorem mem_terminators {loc : Location} {t : Terminator} :
    (loc, t) ∈ b.terminators ↔ b.instruction? loc = some (.terminator t) := by
  rw [terminators, List.mem_filterMap, instruction?_eq_terminator]
  constructor
  · rintro ⟨⟨id, data⟩, hblock, h⟩
    obtain ⟨t', ht, he⟩ := Option.map_eq_some_iff.1 h
    obtain ⟨rfl, rfl⟩ := Prod.mk.inj he
    exact ⟨data, mem_numberedBlocks.1 hblock, ht, rfl⟩
  · rintro ⟨data, hblock, ht, hindex⟩
    refine ⟨(loc.block, data), mem_numberedBlocks.2 hblock, Option.map_eq_some_iff.2 ⟨t, ht, ?_⟩⟩
    rw [← hindex]

theorem nodup_numberedBlocks (b : Body) : (b.numberedBlocks.map (·.1)).Nodup := by
  have hrange : b.numberedBlocks.map (·.1) = List.range' 0 b.blocks.toList.length := by
    rw [← List.zipIdx_map_snd 0 b.blocks.toList, numberedBlocks, List.map_map]
    rfl
  rw [hrange]
  exact List.nodup_range'

/-- The positions of the statements are all different. -/
theorem nodup_statements_location (b : Body) : (b.statements.map (·.1)).Nodup := by
  rw [statements, List.map_flatMap]
  refine List.nodup_flatMap.2 ⟨fun entry _ => ?_, ?_⟩
  · have hindex : (entry.2.statements.zipIdx.map (·.2)).Nodup := by
      rw [List.zipIdx_map_snd]
      exact List.nodup_range'
    rw [List.map_map]
    refine List.Nodup.of_map Location.index ?_
    rw [List.map_map]
    exact hindex
  · refine (List.pairwise_map.1 b.nodup_numberedBlocks).imp fun {u v} hne => ?_
    intro loc hu hv
    simp only [List.map_map, List.mem_map] at hu hv
    obtain ⟨_, _, rfl⟩ := hu
    obtain ⟨_, _, he⟩ := hv
    exact hne (Location.mk.inj he).1.symm

theorem mem_returnLocations {loc : Location} :
    loc ∈ b.returnLocations ↔ b.instruction? loc = some (.terminator .ret) := by
  rw [← mem_terminators, returnLocations, List.mem_map]
  constructor
  · rintro ⟨⟨_, t⟩, hmem, rfl⟩
    obtain ⟨hmem, ht⟩ := List.mem_filter.1 hmem
    obtain rfl : t = .ret := by simpa using ht
    exact hmem
  · intro hmem
    exact ⟨_, List.mem_filter.2 ⟨hmem, by simp⟩, rfl⟩

/-- A body returns from a position once. -/
theorem nodup_returnLocations (b : Body) : b.returnLocations.Nodup := by
  have hblocks : ((b.numberedBlocks.map (·.1)).Pairwise (· ≠ ·)) := b.nodup_numberedBlocks
  refine List.Pairwise.map (R := fun x y => x.1.block ≠ y.1.block) _ (fun _ _ hne h => hne (congrArg _ h)) ?_
  refine List.Pairwise.filter _ (List.pairwise_filterMap.2 ((List.pairwise_map.1 hblocks).imp ?_))
  intro x y hne u hu v hv
  obtain ⟨_, _, rfl⟩ := Option.map_eq_some_iff.1 hu
  obtain ⟨_, _, rfl⟩ := Option.map_eq_some_iff.1 hv
  exact hne

theorem mem_successors_iff {loc : Location} {t : Terminator} {target : BlockId}
    (ht : b.instruction? loc = some (.terminator t)) :
    target ∈ b.successors loc.block ↔ target ∈ t.successors := by
  obtain ⟨data, hdata, hterm, -⟩ := instruction?_eq_terminator.1 ht
  simp [successors, hdata, Block.successors, hterm]

/-! ## Complete bodies -/

/-- A body that lacks nothing. -/
structure Complete (b : Body) : Prop where
  entry_lt : entryBlock < b.blocks.size
  terminated : ∀ (id : BlockId) (data : Block), b.blocks[id]? = some data →
    ∃ t : Terminator, data.terminator = some t ∧ ∀ target ∈ t.successors, target < b.blocks.size

theorem complete_of_check (h : b.check = .ok ()) : b.Complete := by
  have hnone : b.violation? = none := by
    cases hv : b.violation? with
    | none => rfl
    | some e => simp [check, hv] at h
  rw [violation?] at hnone
  split at hnone
  · exact absurd hnone (by simp)
  · next hempty =>
    have hblocks := List.findSome?_eq_none_iff.1 hnone
    refine ⟨?_, fun id data hdata => ?_⟩
    · rw [entryBlock]
      exact Nat.pos_of_ne_zero fun h0 => hempty (by simpa using Array.size_eq_zero_iff.1 h0)
    · have hblock : b.blockViolation? id data = none :=
        hblocks (id, data) (mem_numberedBlocks.2 hdata)
      rw [blockViolation?] at hblock
      cases ht : data.terminator with
      | none => simp [ht] at hblock
      | some t =>
        simp only [ht, Option.map_eq_none_iff, List.find?_eq_none, decide_eq_true_eq, Nat.not_le] at hblock
        exact ⟨t, rfl, hblock⟩

theorem check_of_complete (h : b.Complete) : b.check = .ok () := by
  have hempty : b.blocks.isEmpty = false := by
    rw [← Bool.not_eq_true, Array.isEmpty_iff_size_eq_zero]
    exact Nat.ne_of_gt (Nat.zero_lt_of_lt h.entry_lt)
  have hblocks : ∀ x ∈ b.numberedBlocks, b.blockViolation? x.1 x.2 = none := by
    rintro ⟨id, data⟩ hdata
    obtain ⟨t, ht, hlt⟩ := h.terminated id data (mem_numberedBlocks.1 hdata)
    simpa [blockViolation?, ht] using hlt
  have hnone : b.violation? = none := by
    rw [violation?, hempty, if_neg Bool.false_ne_true]
    exact List.findSome?_eq_none_iff.2 hblocks
  rw [check, hnone]

/-- A statement of a complete body is followed by an instruction. -/
theorem Complete.exists_next (h : b.Complete) {loc : Location} {s : Statement}
    (hs : b.instruction? loc = some (.statement s)) : ∃ i, b.instruction? loc.next = some i := by
  obtain ⟨data, hdata, hindex⟩ := instruction?_eq_statement.1 hs
  obtain ⟨t, ht, -⟩ := h.terminated _ _ hdata
  obtain ⟨hlt, -⟩ := List.getElem?_eq_some_iff.1 hindex
  have hlen : loc.index + 1 < data.instructions.length := by
    simp [Block.instructions, ht]
    omega
  exact ⟨_, instruction?_eq_some.2 ⟨data, hdata, List.getElem?_eq_getElem hlen⟩⟩

/-- A block of a complete body has a first instruction. -/
theorem Complete.exists_start (h : b.Complete) {id : BlockId} (hid : id < b.blocks.size) :
    ∃ i, b.instruction? ⟨id, 0⟩ = some i := by
  obtain ⟨t, ht, -⟩ := h.terminated id _ (Array.getElem?_eq_getElem hid)
  have hlen : 0 < b.blocks[id].instructions.length := by
    simp [Block.instructions, ht]
  exact ⟨_, instruction?_eq_some.2 ⟨_, Array.getElem?_eq_getElem hid, List.getElem?_eq_getElem hlen⟩⟩

/-- A terminator of a complete body leads along the edges of its graph. -/
theorem Complete.edge (h : b.Complete) {loc : Location} {t : Terminator} {target : BlockId}
    (ht : b.instruction? loc = some (.terminator t)) (htarget : target ∈ t.successors) :
    b.flow.Edge loc.block target := by
  obtain ⟨data, hdata, hterm, -⟩ := instruction?_eq_terminator.1 ht
  obtain ⟨t', ht', hlt⟩ := h.terminated _ _ hdata
  obtain rfl : t = t' := Option.some.inj (hterm.symm.trans ht')
  exact ⟨hlt target htarget, (), List.mem_map.2 ⟨target, (mem_successors_iff ht).2 htarget, rfl⟩⟩

/-! ## Paths -/

/-- A step of control. -/
inductive Step where
  | exec (loc : Location) (i : Instruction)
  | jump (source target : BlockId)
  deriving DecidableEq, Repr

/-- Control has made these steps and stands at this position. -/
inductive Path (b : Body) : List Step → Location → Prop
  | entry : Path b [] ⟨entryBlock, 0⟩
  | next {steps : List Step} {loc : Location} {s : Statement} :
      Path b steps loc → b.instruction? loc = some (.statement s) →
        Path b (steps ++ [.exec loc (.statement s)]) loc.next
  | jump {steps : List Step} {loc : Location} {t : Terminator} {target : BlockId} :
      Path b steps loc → b.instruction? loc = some (.terminator t) → target ∈ t.successors →
        Path b (steps ++ [.exec loc (.terminator t), .jump loc.block target]) ⟨target, 0⟩

/-- The steps lead from the entry through a return. -/
def Returns (b : Body) (steps : List Step) : Prop :=
  ∃ before loc, b.Path before loc ∧ b.instruction? loc = some (.terminator .ret) ∧
    steps = before ++ [.exec loc (.terminator .ret)]

/-- A member of two lists in a row, with what comes before it, is found in the first or in the second. -/
theorem split_of_append {α : Type} {xs ys pre post : List α} {x : α} (h : xs ++ ys = pre ++ x :: post) :
    (∃ rest, xs = pre ++ x :: rest) ∨ ∃ mid, pre = xs ++ mid ∧ ys = mid ++ x :: post := by
  rcases List.append_eq_append_iff.1 h with ⟨mid, hpre, hys⟩ | ⟨mid, hxs, hpost⟩
  · exact .inr ⟨mid, hpre, hys⟩
  · cases mid with
    | nil => exact .inr ⟨[], by simpa using hxs.symm, by simpa using hpost.symm⟩
    | cons y mid =>
      obtain ⟨rfl, -⟩ := List.cons.inj hpost
      exact .inl ⟨mid, hxs⟩

namespace Path

variable {steps : List Step} {loc : Location}

/-- Control stands in a block that the entry reaches. -/
theorem reaches (h : b.Path steps loc) (hb : b.Complete) : b.flow.Reaches entryBlock loc.block := by
  induction h with
  | entry => exact .refl _
  | next _ _ ih => exact ih
  | jump _ ht htarget ih => exact ih.trans (hb.edge ht htarget).reaches

theorem exists_instruction (h : b.Path steps loc) (hb : b.Complete) :
    ∃ i, b.instruction? loc = some i := by
  cases h with
  | entry => exact hb.exists_start hb.entry_lt
  | next _ hs => exact hb.exists_next hs
  | jump _ ht htarget => exact hb.exists_start (hb.edge ht htarget).1

/-- A step that was made was made from a position at which a shorter path stood. -/
theorem of_exec (h : b.Path steps loc) : ∀ {pre post : List Step} {d : Location} {i : Instruction},
    steps = pre ++ .exec d i :: post → b.Path pre d ∧ b.instruction? d = some i := by
  induction h with
  | entry =>
    intro pre post d i he
    simp at he
  | @next steps loc s hpath hs ih =>
    intro pre post d i he
    rcases split_of_append he with ⟨rest, he⟩ | ⟨mid, rfl, hmid⟩
    · exact ih he
    · cases mid with
      | nil =>
        obtain ⟨rfl, rfl⟩ := Step.exec.inj (List.cons.inj hmid).1
        exact ⟨by simpa using hpath, hs⟩
      | cons step mid => simp at hmid
  | @jump steps loc t target hpath ht htarget ih =>
    intro pre post d i he
    rcases split_of_append he with ⟨rest, he⟩ | ⟨mid, rfl, hmid⟩
    · exact ih he
    · -- of the last two steps only the first is an execution
      cases mid with
      | nil =>
        obtain ⟨rfl, rfl⟩ := Step.exec.inj (List.cons.inj hmid).1
        exact ⟨by simpa using hpath, ht⟩
      | cons step mid =>
        have hmem : Step.exec d i ∈ [Step.jump loc.block target] := by
          rw [(List.cons.inj hmid).2]
          simp
        simp at hmem

theorem instruction?_of_mem {d : Location} {i : Instruction} (h : b.Path steps loc)
    (hd : .exec d i ∈ steps) : b.instruction? d = some i := by
  obtain ⟨pre, post, he⟩ := List.append_of_mem hd
  exact (h.of_exec he).2

/-- Control that goes on has not returned. -/
theorem not_ret_of_mem {d : Location} {i : Instruction} (h : b.Path steps loc) (hd : .exec d i ∈ steps) :
    i ≠ .terminator .ret := by
  induction h with
  | entry => simp at hd
  | next _ _ ih =>
    rcases List.mem_append.1 hd with hd | hd
    · exact ih hd
    · obtain ⟨rfl, rfl⟩ := Step.exec.inj (List.mem_singleton.1 hd)
      simp
  | jump _ _ htarget ih =>
    rcases List.mem_append.1 hd with hd | hd
    · exact ih hd
    · rcases List.mem_cons.1 hd with hd | hd
      · obtain ⟨rfl, rfl⟩ := Step.exec.inj hd
        intro hret
        rw [Instruction.terminator.inj hret] at htarget
        simp [Terminator.successors] at htarget
      · simp at hd

/-- Of the first block all instructions have been executed once control has left it, and before that those
in front of the position. -/
theorem entry_executed (h : b.Path steps loc) {k : Nat} {i : Instruction}
    (hi : b.instruction? ⟨entryBlock, k⟩ = some i) (hk : loc.block ≠ entryBlock ∨ k < loc.index) :
    .exec ⟨entryBlock, k⟩ i ∈ steps := by
  -- at the step in question the instruction is the one that stands there
  have hhere : ∀ {d : Location} {j : Instruction}, b.instruction? d = some j → d.block = entryBlock →
      d.index = k → Step.exec ⟨entryBlock, k⟩ i = .exec d j := by
    rintro ⟨_, _⟩ j hj rfl rfl
    rw [Option.some.inj (hi.symm.trans hj)]
  induction h with
  | entry => simp at hk
  | @next steps loc s _ hs ih =>
    rw [List.mem_append, List.mem_singleton]
    by_cases hblock : loc.block = entryBlock
    · have hle : k < loc.index + 1 := hk.resolve_left fun hne => hne hblock
      rcases Nat.lt_succ_iff_lt_or_eq.1 hle with hlt | heq
      · exact .inl (ih (.inr hlt))
      · exact .inr (hhere hs hblock heq.symm)
    · exact .inl (ih (.inl hblock))
  | @jump steps loc t target _ ht _ ih =>
    rw [List.mem_append]
    by_cases hblock : loc.block = entryBlock
    · obtain ⟨data, hdata, hindex⟩ := instruction?_eq_some.1 hi
      obtain ⟨data', hdata', hterm, hend⟩ := instruction?_eq_terminator.1 ht
      rw [hblock] at hdata'
      obtain rfl := Option.some.inj (hdata.symm.trans hdata')
      obtain ⟨hlt, -⟩ := List.getElem?_eq_some_iff.1 hindex
      have hle : k < loc.index + 1 := by
        simpa [Block.instructions, hterm, ← hend] using hlt
      rcases Nat.lt_succ_iff_lt_or_eq.1 hle with hlt | heq
      · exact .inl (ih (.inr hlt))
      · exact .inr (List.mem_cons.2 (.inl (hhere ht hblock heq.symm)))
    · exact .inl (ih (.inl hblock))

/-- Where control stands it has once stood for the first time. -/
theorem exists_first (h : b.Path steps loc) :
    ∃ pre, b.Path pre loc ∧ ∀ i, .exec loc i ∉ pre := by
  by_cases hmem : ∃ i, .exec loc i ∈ steps
  · obtain ⟨i, hi⟩ := hmem
    obtain ⟨pre, post, he, hpre⟩ := List.eq_append_cons_of_mem hi
    obtain ⟨hpath, hinstr⟩ := h.of_exec he
    refine ⟨pre, hpath, fun j hj => ?_⟩
    have hsame := (hpath.instruction?_of_mem hj).symm.trans hinstr
    obtain rfl := Option.some.inj hsame
    exact hpre hj
  · exact ⟨steps, h, fun i hi => hmem ⟨i, hi⟩⟩

end Path

/-! ## Ways between positions -/

/-- Control goes from one position to another by these steps. -/
inductive Way (b : Body) : Location → List Step → Location → Prop
  | here {loc : Location} : Way b loc [] loc
  | next {start loc : Location} {s : Statement} {steps : List Step} :
      b.instruction? start = some (.statement s) → Way b start.next steps loc →
        Way b start (.exec start (.statement s) :: steps) loc
  | jump {start loc : Location} {t : Terminator} {target : BlockId} {steps : List Step} :
      b.instruction? start = some (.terminator t) → target ∈ t.successors → Way b ⟨target, 0⟩ steps loc →
        Way b start (.exec start (.terminator t) :: .jump start.block target :: steps) loc

/-- A way stays in the blocks that its first block reaches. -/
theorem Way.reaches {start loc : Location} {steps : List Step} (h : b.Way start steps loc)
    (hb : b.Complete) : b.flow.Reaches start.block loc.block := by
  induction h with
  | here => exact .refl _
  | next _ _ ih => exact ih
  | jump ht htarget _ ih => exact .step (hb.edge ht htarget) ih

end Body

end Reclamation
