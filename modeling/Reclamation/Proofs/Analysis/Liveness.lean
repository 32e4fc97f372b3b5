import Mathlib
import Reclamation.Proofs.Graph.Walk
import Reclamation.Proofs.Analysis.Sweep
import Reclamation.Proofs.Program.Paths

/-!
# What liveness says

`Liveness.liveAt` is liveness at a position, as the analysis computes it for the ends of blocks and carries
it back over their instructions. It obeys the equations of liveness (`liveAt_exec`, `liveAt_start`,
`isLiveOut_iff`), and a local is live only where some path from there reads it before it is assigned
(`readAhead_of_liveAt`). So a local that is read only after it has been assigned is not live before
(`ReadsAssigned.of_liveAt`).

The deaths are the instructions and jumps across which a local stops being live (`after_mem_deathPoints`,
`edge_mem_deathPoints`), each listed once.
-/

set_option autoImplicit false

namespace Reclamation

theorem getElem?_liveAlong {l : LocalId} {atEnd : Bool} : ∀ {effects : List Effects} {k : Nat},
    k ≤ effects.length → (liveAlong l atEnd effects)[k]? = some (liveBeforeAll l atEnd (effects.drop k))
  | [], 0, _ => rfl
  | fx :: effects, 0, _ => by
    have ih : (liveAlong l atEnd effects)[0]? = some (liveBeforeAll l atEnd effects) :=
      getElem?_liveAlong (Nat.zero_le effects.length)
    rw [liveAlong, List.getElem?_cons_zero, List.headD_eq_head?_getD, List.head?_eq_getElem?, ih]
    rfl
  | fx :: effects, k + 1, hk => by
    rw [liveAlong, List.getElem?_cons_succ, getElem?_liveAlong (Nat.le_of_succ_le_succ hk)]
    rfl

theorem after_mem_deathsAt {data : Block} {id : BlockId} {l : LocalId} {atEnd : Bool} {loc : Location} :
    .after loc ∈ data.deathsAt id l atEnd ↔ loc.block = id ∧ ∃ fx, data.effects[loc.index]? = some fx ∧
      fx.touches l = true ∧ liveBeforeAll l atEnd (data.effects.drop (loc.index + 1)) = false := by
  have hafter : ∀ {k : Nat} {fx : Effects}, data.effects[k]? = some fx →
      (liveAlong l atEnd data.effects).tail[k]? =
        some (liveBeforeAll l atEnd (data.effects.drop (k + 1))) := by
    intro k fx hk
    obtain ⟨hlt, -⟩ := List.getElem?_eq_some_iff.1 hk
    rw [List.getElem?_tail, getElem?_liveAlong hlt]
  simp only [Block.deathsAt, List.mem_map, List.mem_filter, Prod.exists, List.mem_zipIdx_iff_getElem?,
    List.getElem?_zip_eq_some, DeathPoint.after.injEq, Bool.and_eq_true, Bool.not_eq_true']
  constructor
  · rintro ⟨fx, live, k, ⟨⟨hfx, hlive⟩, htouch, hdead⟩, rfl⟩
    rw [hafter hfx] at hlive
    exact ⟨rfl, fx, hfx, htouch, Option.some.inj hlive ▸ hdead⟩
  · rintro ⟨rfl, fx, hfx, htouch, hdead⟩
    exact ⟨fx, _, loc.index, ⟨⟨hfx, hafter hfx⟩, htouch, hdead⟩, rfl⟩

theorem edge_notMem_deathsAt {data : Block} {id : BlockId} {l : LocalId} {atEnd : Bool}
    {source target : BlockId} : .edge source target ∉ data.deathsAt id l atEnd := by
  intro h
  obtain ⟨_, _, he⟩ := List.mem_map.1 h
  cases he

theorem nodup_deathsAt (data : Block) (id : BlockId) (l : LocalId) (atEnd : Bool) :
    (data.deathsAt id l atEnd).Nodup := by
  have hindex : ((data.effects.zip (liveAlong l atEnd data.effects).tail).zipIdx.map (·.2)).Nodup := by
    rw [List.zipIdx_map_snd]
    exact List.nodup_range'
  rw [Block.deathsAt]
  refine List.Nodup.of_map (fun d => (d.location?.map Location.index).getD 0) ?_
  rw [List.map_map]
  exact (List.filter_sublist.map Prod.snd).nodup hindex

theorem nodup_eraseDups : ∀ l : List Nat, l.eraseDups.Nodup
  | [] => List.nodup_nil
  | x :: l => by
    rw [List.eraseDups_cons, List.nodup_cons]
    refine ⟨fun hx => ?_, nodup_eraseDups _⟩
    have hne := (List.mem_filter.1 (List.mem_eraseDups.1 hx)).2
    simp at hne
termination_by l => l.length
decreasing_by
  exact Nat.lt_succ_of_le (List.length_filter_le ..)

theorem eraseDups_sublist : ∀ l : List Nat, l.eraseDups.Sublist l
  | [] => List.nil_sublist []
  | x :: l => by
    rw [List.eraseDups_cons]
    exact ((eraseDups_sublist _).trans List.filter_sublist).cons_cons x
termination_by l => l.length
decreasing_by
  exact Nat.lt_succ_of_le (List.length_filter_le ..)

theorem pairwise_lt_of_mergeSort {l l' : List Nat} (h : l'.Sublist l.mergeSort) (hnodup : l'.Nodup) :
    l'.Pairwise (· < ·) := by
  have hle : l'.Pairwise (· ≤ ·) := (List.pairwise_mergeSort' (· ≤ ·) l).sublist h
  exact (hle.and hnodup).imp fun hlt => Nat.lt_of_le_of_ne hlt.1 hlt.2

namespace Liveness

variable {b : Body} {l : LocalId}

/-! ## The equations of liveness -/

/-- Whether a local is live at a position. -/
def liveAt (v : Liveness) (l : LocalId) (loc : Location) : Bool :=
  match v.body.blocks[loc.block]? with
  | some data =>
    liveBeforeAll l (v.isLiveOut l loc.block) (data.effects.drop loc.index)
  | none => false

theorem getElem?_effects {data : Block} {loc : Location} {i : Instruction}
    (hdata : b.blocks[loc.block]? = some data) (hi : b.instruction? loc = some i) :
    data.effects[loc.index]? = some i.effects := by
  obtain ⟨data', hdata', hindex⟩ := Body.instruction?_eq_some.1 hi
  obtain rfl := Option.some.inj (hdata.symm.trans hdata')
  rw [← Block.map_effects_instructions, List.getElem?_map, hindex]
  rfl

/-- Liveness before an instruction follows from liveness after it. -/
theorem liveAt_exec {loc : Location} {i : Instruction} (hi : b.instruction? loc = some i) :
    (ofBody b).liveAt l loc = i.effects.liveBefore l ((ofBody b).liveAt l loc.next) := by
  obtain ⟨data, hdata, -⟩ := Body.instruction?_eq_some.1 hi
  obtain ⟨hlt, hfx⟩ := List.getElem?_eq_some_iff.1 (getElem?_effects hdata hi)
  have hdata' : (ofBody b).body.blocks[loc.block]? = some data := hdata
  have hnext : (ofBody b).body.blocks[loc.next.block]? = some data := hdata
  simp only [liveAt, hdata', hnext]
  rw [List.drop_eq_getElem_cons hlt, hfx]
  rfl

/-- After the terminator a local is live if it is at the end of the block. -/
theorem liveAt_end {loc : Location} {t : Terminator} (ht : b.instruction? loc = some (.terminator t)) :
    (ofBody b).liveAt l loc.next = (ofBody b).isLiveOut l loc.block := by
  obtain ⟨data, hdata, hterm, hindex⟩ := Body.instruction?_eq_terminator.1 ht
  have hnext : (ofBody b).body.blocks[loc.next.block]? = some data := hdata
  have hlen : data.effects.length = loc.next.index := by
    simp [Block.effects, hterm, hindex, Location.next]
  simp only [liveAt, hnext]
  rw [List.drop_eq_nil_of_le hlen.le]
  rfl

theorem mem_reached_iff {id : BlockId} : id ∈ (ofBody b).reached ↔ id ∈ b.reversePostorder :=
  List.mem_mergeSort

theorem mem_reached {id : BlockId} (hb : b.Complete) :
    id ∈ (ofBody b).reached ↔ b.flow.Reaches entryBlock id := by
  rw [mem_reached_iff, Body.reversePostorder, List.mem_reverse, Digraph.mem_postorder]
  simp [show entryBlock < b.flow.size from hb.entry_lt]

theorem nodup_reached (b : Body) : (ofBody b).reached.Nodup :=
  (List.mergeSort_perm ..).nodup_iff.2 (List.nodup_reverse.2 Digraph.postorder_nodup)

theorem reached_lt {id : BlockId} (hb : b.Complete) (h : id ∈ (ofBody b).reached) :
    id < b.blocks.size :=
  ((mem_reached hb).1 h).lt_size hb.entry_lt

theorem reached_of_reaches (hb : b.Complete) {id id' : BlockId} (h : id ∈ (ofBody b).reached)
    (hreach : b.flow.Reaches id id') : id' ∈ (ofBody b).reached :=
  (mem_reached hb).2 (((mem_reached hb).1 h).trans hreach)

theorem settled_sets {id : BlockId} (hid : id ∈ (ofBody b).reached) : LiveSets.Settled b (ofBody b).sets id :=
  b.settled_liveSets id (mem_reached_iff.1 hid)

theorem mem_liveIn_iff {id : BlockId} : id ∈ (ofBody b).liveIn l ↔ l ∈ (ofBody b).sets.before id := by
  rw [liveIn, List.mem_filter, List.mem_range, isLiveIn, Std.ExtTreeSet.contains_iff_mem]
  refine and_iff_right_of_imp fun hl => ?_
  have hid : id ∈ b.reversePostorder := (b.liveSets_below b.solves_reached).before id hl
  exact (Digraph.mem_postorder.1 (List.mem_reverse.1 hid)).elim fun r h => h.2.2.lt_size h.2.1

theorem isLiveIn_eq_false_iff {id : BlockId} : (ofBody b).isLiveIn l id = false ↔ id ∉ (ofBody b).liveIn l := by
  rw [mem_liveIn_iff, isLiveIn, ← Bool.not_eq_true, Std.ExtTreeSet.contains_iff_mem]

/-- A local is live at the start of reached blocks only. -/
theorem reached_of_mem_liveIn {id : BlockId} (h : id ∈ (ofBody b).liveIn l) : id ∈ (ofBody b).reached :=
  mem_reached_iff.2 ((b.liveSets_below b.solves_reached).before id (mem_liveIn_iff.1 h))

theorem isLiveOut_iff {id : BlockId} : (ofBody b).isLiveOut l id = true ↔
    id ∈ (ofBody b).reached ∧ ∃ target ∈ b.successors id, target ∈ (ofBody b).liveIn l := by
  rw [isLiveOut, Std.ExtTreeSet.contains_iff_mem]
  have hreached : l ∈ (ofBody b).sets.after id → id ∈ (ofBody b).reached := fun hl =>
    mem_reached_iff.2 ((b.liveSets_below b.solves_reached).after id hl)
  rw [← and_iff_right_of_imp hreached]
  refine and_congr_right fun hid => ?_
  simp only [mem_liveIn_iff]
  rw [← LiveSets.mem_beforeAny, Body.successors]
  cases hdata : b.blocks[id]? with
  | none =>
    obtain ⟨r, -, hr, hreach⟩ := Digraph.mem_postorder.1 (List.mem_reverse.1 (mem_reached_iff.1 hid))
    exact absurd (Array.getElem?_eq_none_iff.1 hdata) (Nat.not_le.2 (hreach.lt_size hr))
  | some data => rw [((settled_sets hid) data hdata).2]

/-- Nothing is live after a terminator that leads nowhere. -/
theorem liveAt_of_exit {loc : Location} {t : Terminator} (ht : b.instruction? loc = some (.terminator t))
    (hnone : t.successors = []) : (ofBody b).liveAt l loc.next = false := by
  rw [liveAt_end ht, ← Bool.not_eq_true, isLiveOut_iff]
  intro h
  obtain ⟨-, target, htarget, -⟩ := h
  rw [Body.mem_successors_iff ht, hnone] at htarget
  exact List.not_mem_nil htarget

/-- Nothing is live after a return. -/
theorem liveAt_ret {loc : Location} (ht : b.instruction? loc = some (.terminator .ret)) :
    (ofBody b).liveAt l loc.next = false :=
  liveAt_of_exit ht rfl

/-- At the start of a reached block liveness is what the analysis lists. -/
theorem liveAt_start (hb : b.Complete) {id : BlockId} (hid : id ∈ (ofBody b).reached) :
    (ofBody b).liveAt l ⟨id, 0⟩ = true ↔ id ∈ (ofBody b).liveIn l := by
  have hlt := reached_lt hb hid
  have hdata : b.blocks[id]? = some b.blocks[id] := Array.getElem?_eq_getElem hlt
  have hdata' : (ofBody b).body.blocks[id]? = some b.blocks[id] := hdata
  obtain ⟨hstart, hend⟩ := settled_sets hid b.blocks[id] hdata
  rw [mem_liveIn_iff, ← hstart, hend, Block.mem_transfer, liveAt, hdata']
  rfl

/-! ## A live local is read ahead -/

/-- Some path from a position reads a local before it assigns it. -/
inductive ReadAhead (b : Body) (l : LocalId) : Location → Prop
  | here {loc : Location} {i : Instruction} :
      b.instruction? loc = some i → l ∈ i.effects.uses → ReadAhead b l loc
  | next {loc : Location} {s : Statement} :
      b.instruction? loc = some (.statement s) → l ∉ s.effects.defs → ReadAhead b l loc.next →
        ReadAhead b l loc
  | jump {loc : Location} {t : Terminator} {target : BlockId} :
      b.instruction? loc = some (.terminator t) → l ∉ t.effects.defs → target ∈ t.successors →
        ReadAhead b l ⟨target, 0⟩ → ReadAhead b l loc

theorem readAhead_of_liveBeforeAll (hb : b.Complete) {id : BlockId} {data : Block}
    (hdata : b.blocks[id]? = some data) {atEnd : Bool}
    (hend : atEnd = true → ∃ target ∈ b.successors id, ReadAhead b l ⟨target, 0⟩) :
    ∀ (n k : Nat), n + k = data.effects.length → ∀ i, b.instruction? ⟨id, k⟩ = some i →
      liveBeforeAll l atEnd (data.effects.drop k) = true → ReadAhead b l ⟨id, k⟩ := by
  intro n
  induction n with
  | zero =>
    intro k hk i hi
    obtain ⟨hlt, -⟩ := List.getElem?_eq_some_iff.1 (getElem?_effects hdata hi)
    exact absurd hlt (by simp at hk ⊢; omega)
  | succ n ih =>
    intro k hk i hi hlive
    obtain ⟨hlt, hfx⟩ := List.getElem?_eq_some_iff.1 (getElem?_effects hdata hi)
    rw [List.drop_eq_getElem_cons hlt, hfx] at hlive
    change i.effects.liveBefore l (liveBeforeAll l atEnd (data.effects.drop (k + 1))) = true at hlive
    simp only [Effects.liveBefore, Bool.or_eq_true, Bool.and_eq_true, Bool.not_eq_true',
      List.contains_eq_mem, decide_eq_true_eq, decide_eq_false_iff_not] at hlive
    rcases hlive with huse | ⟨hafter, hdef⟩
    · exact .here hi huse
    · cases i with
      | statement s =>
        obtain ⟨j, hj⟩ := hb.exists_next hi
        exact .next hi hdef (ih (k + 1) (by omega) j hj hafter)
      | terminator t =>
        obtain ⟨data', hdata', hterm, hindex⟩ := Body.instruction?_eq_terminator.1 hi
        obtain rfl := Option.some.inj (hdata.symm.trans hdata')
        have hlen : data.effects.length = k + 1 := by
          simp only [Block.effects, hterm, List.length_append, List.length_map, Option.map_some,
            Option.toList_some, List.length_singleton]
          exact congrArg (· + 1) hindex.symm
        rw [List.drop_eq_nil_of_le hlen.le] at hafter
        obtain ⟨target, hsucc, htarget⟩ := hend hafter
        refine .jump hi hdef ?_ htarget
        simpa [Body.successors, hdata, Block.successors, hterm] using hsucc

/-- It is a solution that the locals are live that are read ahead. -/
theorem solves_readAhead (hb : b.Complete) : LiveAnswer.Solves ⟨fun id => {l | ReadAhead b l ⟨id, 0⟩},
    fun id => {l | ∃ target ∈ b.successors id, ReadAhead b l ⟨target, 0⟩}⟩ b where
  after _ _ target htarget _ hl := ⟨target, htarget, hl⟩
  before id _ data hdata live hlive l hl := by
    obtain ⟨t, ht, -⟩ := hb.terminated id data hdata
    have hlen : 0 < data.instructions.length := by
      simp [Block.instructions, ht]
    refine readAhead_of_liveBeforeAll hb hdata (fun hend => ?_) _ 0 (Nat.add_zero _) _
      (Body.instruction?_eq_some.2 ⟨data, hdata, List.getElem?_eq_getElem hlen⟩) (Block.mem_transfer.1 hl)
    exact hlive l (Std.ExtTreeSet.contains_iff_mem.1 hend)

theorem readAhead_of_mem_liveIn (hb : b.Complete) {id : BlockId} (h : id ∈ (ofBody b).liveIn l) :
    ReadAhead b l ⟨id, 0⟩ :=
  (b.liveSets_below (solves_readAhead hb)).before id (mem_liveIn_iff.1 h)

/-- A local is live only where it is read ahead. -/
theorem readAhead_of_liveAt (hb : b.Complete) {loc : Location} {i : Instruction}
    (hi : b.instruction? loc = some i) (h : (ofBody b).liveAt l loc = true) : ReadAhead b l loc := by
  obtain ⟨data, hdata, -⟩ := Body.instruction?_eq_some.1 hi
  obtain ⟨hlt, -⟩ := List.getElem?_eq_some_iff.1 (getElem?_effects hdata hi)
  have hdata' : (ofBody b).body.blocks[loc.block]? = some data := hdata
  simp only [liveAt, hdata'] at h
  refine readAhead_of_liveBeforeAll hb hdata (fun hout => ?_) (data.effects.length - loc.index) loc.index
    (by omega) i hi h
  obtain ⟨-, target, hsucc, htarget⟩ := isLiveOut_iff.1 hout
  exact ⟨target, hsucc, readAhead_of_mem_liveIn hb htarget⟩

end Liveness

/-! ## Locals that are read after they are assigned -/

namespace Body

variable {b : Body} {l : LocalId}

/-- Every path that comes to read the local has assigned it. -/
def ReadsAssigned (b : Body) (l : LocalId) : Prop :=
  ∀ steps loc i, b.Path steps loc → b.instruction? loc = some i → l ∈ i.effects.uses →
    ∃ d j, .exec d j ∈ steps ∧ l ∈ j.effects.defs

/-- A local that the first block assigns, and that is read in other blocks or later in the first. -/
theorem ReadsAssigned.of_entry {k : Nat} {i : Instruction} (hi : b.instruction? ⟨entryBlock, k⟩ = some i)
    (hdef : l ∈ i.effects.defs)
    (hstatements : ∀ x ∈ b.statements, l ∈ x.2.effects.uses → x.1.block ≠ entryBlock ∨ k < x.1.index)
    (hterminators : ∀ x ∈ b.terminators, l ∈ x.2.effects.uses → x.1.block ≠ entryBlock ∨ k < x.1.index) :
    b.ReadsAssigned l := by
  intro steps loc j hpath hj huse
  refine ⟨_, i, hpath.entry_executed hi ?_, hdef⟩
  cases j with
  | statement s => exact hstatements _ (mem_statements.2 hj) huse
  | terminator t => exact hterminators _ (mem_terminators.2 hj) huse

theorem ReadsAssigned.of_lists
    (hstatements : ∀ x ∈ b.statements, l ∈ x.2.effects.uses →
      ∃ y ∈ b.statements, y.1.block = entryBlock ∧ y.1.index < x.1.index ∧ l ∈ y.2.effects.defs)
    (hterminators : ∀ x ∈ b.terminators, l ∈ x.2.effects.uses →
      ∃ y ∈ b.statements, y.1.block = entryBlock ∧ y.1.index < x.1.index ∧ l ∈ y.2.effects.defs) :
    b.ReadsAssigned l := by
  intro steps loc i hpath hi huse
  obtain ⟨⟨⟨block, index⟩, s⟩, hmem, hblock, hlt, hdef⟩ : ∃ y ∈ b.statements, y.1.block = entryBlock ∧
      y.1.index < loc.index ∧ l ∈ y.2.effects.defs := by
    cases i with
    | statement s => exact hstatements _ (mem_statements.2 hi) huse
    | terminator t => exact hterminators _ (mem_terminators.2 hi) huse
  obtain rfl : block = entryBlock := hblock
  exact ⟨_, .statement s, hpath.entry_executed (mem_statements.1 hmem) (.inr hlt), hdef⟩

theorem ReadsAssigned.of_readAhead (h : b.ReadsAssigned l) {loc : Location}
    (hahead : Liveness.ReadAhead b l loc) : ∀ {steps : List Step}, b.Path steps loc →
      ∃ d j, .exec d j ∈ steps ∧ l ∈ j.effects.defs := by
  induction hahead with
  | here hi huse => exact fun hpath => h _ _ _ hpath hi huse
  | @next loc s hi hdef _ ih =>
    intro steps hpath
    obtain ⟨d, j, hmem, hj⟩ := ih (hpath.next hi)
    refine ⟨d, j, ?_, hj⟩
    rcases List.mem_append.1 hmem with hmem | hmem
    · exact hmem
    · obtain ⟨rfl, rfl⟩ := Step.exec.inj (List.mem_singleton.1 hmem)
      exact absurd hj hdef
  | @jump loc t target hi hdef htarget _ ih =>
    intro steps hpath
    obtain ⟨d, j, hmem, hj⟩ := ih (hpath.jump hi htarget)
    refine ⟨d, j, ?_, hj⟩
    rcases List.mem_append.1 hmem with hmem | hmem
    · exact hmem
    · simp only [List.mem_cons, Step.exec.injEq, reduceCtorEq, List.not_mem_nil, or_false] at hmem
      obtain ⟨rfl, rfl⟩ := hmem
      exact absurd hj hdef

/-- Where such a local is live it has been assigned. -/
theorem ReadsAssigned.of_liveAt (h : b.ReadsAssigned l) (hb : b.Complete) {steps : List Step}
    {loc : Location} (hpath : b.Path steps loc) (hlive : (Liveness.ofBody b).liveAt l loc = true) :
    ∃ d j, .exec d j ∈ steps ∧ l ∈ j.effects.defs := by
  obtain ⟨i, hi⟩ := hpath.exists_instruction hb
  exact h.of_readAhead (Liveness.readAhead_of_liveAt hb hi hlive) hpath

end Body

/-! ## Deaths -/

namespace Liveness

variable {b : Body} {l : LocalId}

/-- The deaths of a local after the instructions of a block. -/
def deathsWithin (v : Liveness) (l : LocalId) (id : BlockId) : List DeathPoint :=
  match v.body.blocks[id]? with
  | some data => data.deathsAt id l (v.isLiveOut l id)
  | none => []

theorem deathPoints_eq (v : Liveness) (l : LocalId) : v.deathPoints l =
    v.reached.flatMap (v.deathsWithin l) ++ v.reached.flatMap (v.edgeDeaths l) := rfl

theorem mem_deathsWithin {d : DeathPoint} {id : BlockId} :
    d ∈ (ofBody b).deathsWithin l id ↔ ∃ loc i, d = .after loc ∧ loc.block = id ∧
      b.instruction? loc = some i ∧ i.effects.touches l = true ∧ (ofBody b).liveAt l loc.next = false := by
  cases hdata : b.blocks[id]? with
  | none =>
    have hnone : (ofBody b).deathsWithin l id = [] := by
      have hdata' : (ofBody b).body.blocks[id]? = none := hdata
      rw [deathsWithin, hdata']
    rw [hnone]
    refine ⟨fun h => absurd h (by simp), ?_⟩
    rintro ⟨loc, i, -, rfl, hi, -⟩
    obtain ⟨data, hsome, -⟩ := Body.instruction?_eq_some.1 hi
    simp [hdata] at hsome
  | some data =>
    have hsome : (ofBody b).deathsWithin l id =
        data.deathsAt id l ((ofBody b).isLiveOut l id) := by
      have hdata' : (ofBody b).body.blocks[id]? = some data := hdata
      rw [deathsWithin, hdata']
    rw [hsome]
    constructor
    · intro h
      cases d with
      | edge source target => exact absurd h edge_notMem_deathsAt
      | after loc =>
        obtain ⟨rfl, fx, hfx, htouch, hdead⟩ := after_mem_deathsAt.1 h
        rw [← Block.map_effects_instructions, List.getElem?_map] at hfx
        obtain ⟨i, hi, rfl⟩ := Option.map_eq_some_iff.1 hfx
        refine ⟨loc, i, rfl, rfl, Body.instruction?_eq_some.2 ⟨data, hdata, hi⟩, htouch, ?_⟩
        have hnext : (ofBody b).body.blocks[loc.next.block]? = some data := hdata
        simp only [liveAt, hnext]
        exact hdead
    · rintro ⟨loc, i, rfl, rfl, hi, htouch, hdead⟩
      have hnext : (ofBody b).body.blocks[loc.next.block]? = some data := hdata
      simp only [liveAt, hnext] at hdead
      exact after_mem_deathsAt.2 ⟨rfl, _, getElem?_effects hdata hi, htouch, hdead⟩

theorem mem_edgeDeaths (hb : b.Complete) {d : DeathPoint} {id : BlockId} (hid : id ∈ (ofBody b).reached) :
    d ∈ (ofBody b).edgeDeaths l id ↔ ∃ target, d = .edge id target ∧
      target ∈ b.successors id ∧ (ofBody b).isLiveOut l id = true ∧
        target ∉ (ofBody b).liveIn l := by
  have hlt : ∀ target ∈ b.successors id, target < b.blocks.size := by
    intro target hsucc
    have hlt := reached_lt hb hid
    have hdata : b.blocks[id]? = some b.blocks[id] := Array.getElem?_eq_getElem hlt
    obtain ⟨t, ht, htargets⟩ := hb.terminated id _ hdata
    exact htargets target (by simpa only [Body.successors, hdata, Block.successors, ht] using hsucc)
  rw [edgeDeaths]
  split
  · next hout =>
    simp only [List.mem_map, List.mem_eraseDups, List.mem_mergeSort, List.mem_filter, Bool.and_eq_true,
      decide_eq_true_eq, Bool.not_eq_true', isLiveIn_eq_false_iff]
    constructor
    · rintro ⟨target, ⟨hsucc, -, hdead⟩, rfl⟩
      exact ⟨target, rfl, hsucc, hout, hdead⟩
    · rintro ⟨target, rfl, hsucc, -, hdead⟩
      exact ⟨target, ⟨hsucc, hlt target hsucc, hdead⟩, rfl⟩
  · next hout =>
    refine ⟨fun h => absurd h (by simp), ?_⟩
    rintro ⟨target, -, -, hlive, -⟩
    exact absurd hlive hout

theorem after_mem_deathPoints (hb : b.Complete) {loc : Location} :
    .after loc ∈ (ofBody b).deathPoints l ↔
      loc.block ∈ (ofBody b).reached ∧ ∃ i, b.instruction? loc = some i ∧
        i.effects.touches l = true ∧ (ofBody b).liveAt l loc.next = false := by
  rw [deathPoints_eq, List.mem_append, List.mem_flatMap, List.mem_flatMap]
  constructor
  · rintro (⟨id, hid, h⟩ | ⟨id, hid, h⟩)
    · obtain ⟨loc', i, he, rfl, hi, htouch, hdead⟩ := mem_deathsWithin.1 h
      obtain rfl := DeathPoint.after.inj he
      exact ⟨hid, i, hi, htouch, hdead⟩
    · obtain ⟨_, he, -⟩ := (mem_edgeDeaths hb hid).1 h
      cases he
  · rintro ⟨hid, i, hi, htouch, hdead⟩
    exact .inl ⟨loc.block, hid, mem_deathsWithin.2 ⟨loc, i, rfl, rfl, hi, htouch, hdead⟩⟩

theorem edge_mem_deathPoints (hb : b.Complete) {source target : BlockId} :
    .edge source target ∈ (ofBody b).deathPoints l ↔
      source ∈ (ofBody b).reached ∧ target ∈ b.successors source ∧
        (ofBody b).isLiveOut l source = true ∧ target ∉ (ofBody b).liveIn l := by
  rw [deathPoints_eq, List.mem_append, List.mem_flatMap, List.mem_flatMap]
  constructor
  · rintro (⟨id, hid, h⟩ | ⟨id, hid, h⟩)
    · obtain ⟨_, _, he, -⟩ := mem_deathsWithin.1 h
      cases he
    · obtain ⟨target', he, h⟩ := (mem_edgeDeaths hb hid).1 h
      obtain ⟨rfl, rfl⟩ := DeathPoint.edge.inj he
      exact ⟨hid, h⟩
  · rintro ⟨hid, h⟩
    exact .inr ⟨source, hid, (mem_edgeDeaths hb hid).2 ⟨target, rfl, h⟩⟩

/-- A local dies on a jump if it is live in front of it and not behind it. -/
theorem edge_mem_deathPoints_iff_liveAt (hb : b.Complete) {loc : Location} (hreached : loc.block ∈ (ofBody b).reached)
    {t : Terminator} (ht : b.instruction? loc = some (.terminator t)) {target : BlockId}
    (htarget : target ∈ t.successors) : .edge loc.block target ∈ (ofBody b).deathPoints l ↔
      (ofBody b).liveAt l loc.next = true ∧ (ofBody b).liveAt l ⟨target, 0⟩ = false := by
  have htarget' := reached_of_reaches hb hreached (hb.edge ht htarget).reaches
  rw [edge_mem_deathPoints hb, liveAt_end ht, ← Bool.not_eq_true, liveAt_start hb htarget']
  simp only [hreached, (Body.mem_successors_iff ht).2 htarget, true_and]

/-- A local dies at most once at each place. -/
theorem nodup_deathPoints (hb : b.Complete) (l : LocalId) : ((ofBody b).deathPoints l).Nodup := by
  rw [deathPoints_eq, List.nodup_append']
  refine ⟨List.nodup_flatMap.2 ⟨fun id _ => ?_, ?_⟩, List.nodup_flatMap.2 ⟨fun id _ => ?_, ?_⟩, ?_⟩
  · rw [deathsWithin]
    split
    · exact nodup_deathsAt ..
    · exact List.nodup_nil
  · refine (nodup_reached b).imp fun {u v} hne => ?_
    intro d hu hv
    obtain ⟨loc, _, rfl, hloc, -⟩ := mem_deathsWithin.1 hu
    obtain ⟨loc', _, he, hloc', -⟩ := mem_deathsWithin.1 hv
    obtain rfl := DeathPoint.after.inj he
    exact hne (hloc.symm.trans hloc')
  · rw [edgeDeaths]
    split
    · exact (nodup_eraseDups _).map fun _ _ e => (DeathPoint.edge.inj e).2
    · exact List.nodup_nil
  · refine (nodup_reached b).imp_of_mem fun {u v} hmem hmem' hne => ?_
    intro d hu hv
    obtain ⟨_, rfl, -⟩ := (mem_edgeDeaths hb hmem).1 hu
    obtain ⟨_, he, -⟩ := (mem_edgeDeaths hb hmem').1 hv
    exact hne (DeathPoint.edge.inj he).1
  · intro d hd hd'
    obtain ⟨id, hid, hd⟩ := List.mem_flatMap.1 hd
    obtain ⟨id', hid', hd'⟩ := List.mem_flatMap.1 hd'
    obtain ⟨_, _, rfl, -⟩ := mem_deathsWithin.1 hd
    obtain ⟨_, he, -⟩ := (mem_edgeDeaths hb hid').1 hd'
    cases he

end Liveness

end Reclamation
