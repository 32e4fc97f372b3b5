import Mathlib
import Reclamation.Proofs.Analysis.Liveness

/-!
# A live local is read first

`Instruction.Reads` and `Instruction.Assigns` say in the words of the language what an instruction does to a
local: it reads the local where an operand or a reference starts from it, where it writes a part of its value,
and where it returns it; it assigns the local where it writes the local itself. The lists that the analysis
works with say the same (`Instruction.reads_iff`, `Instruction.assigns_iff`).

A local is *read first* from a position if control can come from there to an instruction that reads it without
assigning it on the way (`Body.ReadFirst`). In the blocks that the entry reaches this is what liveness finds,
at every position (`Liveness.liveAt_iff_readFirst`), and so `Liveness.live_iff_read_first` tells of the sets with
which the sweeps end, for each block at its start and at its end, which locals are in them. In the other blocks none
is live.
-/

set_option autoImplicit false

namespace Reclamation

/-! ## What an instruction reads and assigns -/

/-- The operands of the right side of an assignment. -/
def Rvalue.operands : Rvalue → List Operand
  | .use op => [op]
  | .alloc _ _ _ fields => fields
  | .closure captures => captures
  | .ref _ => []
  | .binary _ left right => [left, right]

namespace Instruction

/-- The operands of an instruction. -/
def operands : Instruction → List Operand
  | .statement (.assign _ value) => value.operands
  | .statement (.storeGlobal _ value) => [value]
  | .statement (.send channel value) => [channel, value]
  | .statement (.spawn captures) => captures
  | .terminator (.switch discriminant _ _) => [discriminant]
  | .terminator (.call _ args _ _) => args
  | _ => []

/-- The place that an instruction writes: that of an assignment, or that of the result of a call. -/
def written? : Instruction → Option Place
  | .statement (.assign p _) => some p
  | .terminator (.call _ _ dest _) => some dest
  | _ => none

/-- An instruction reads a local. -/
inductive Reads (l : LocalId) : Instruction → Prop
  | operand {i : Instruction} {op : Operand} {p : Place} :
      op ∈ i.operands → op.place? = some p → p.base = l → Reads l i
  | ref {p q : Place} : q.base = l → Reads l (.statement (.assign p (.ref q)))
  /-- A part of its value is written. -/
  | part {i : Instruction} {p : Place} :
      i.written? = some p → p.projection ≠ [] → p.base = l → Reads l i
  | ret : l = returnLocal → Reads l (.terminator .ret)

/-- An instruction assigns a local as a whole. -/
def Assigns (l : LocalId) (i : Instruction) : Prop :=
  i.written? = some (.ofLocal l)

variable {i : Instruction} {l : LocalId}

theorem mem_operandBases {ops : List Operand} :
    l ∈ operandBases ops ↔ ∃ op ∈ ops, ∃ p, op.place? = some p ∧ p.base = l := by
  simp [operandBases, Operand.base?]

theorem mem_uses_rvalue {value : Rvalue} :
    l ∈ value.uses ↔ l ∈ operandBases value.operands ∨ ∃ q, value = .ref q ∧ q.base = l := by
  cases value with
  | ref q => simp [Rvalue.uses, Rvalue.operands, operandBases, eq_comm]
  | _ => simp [Rvalue.uses, Rvalue.operands]

theorem mem_uses_write {uses : List LocalId} {p : Place} :
    l ∈ (Effects.write uses p).uses ↔ l ∈ uses ∨ p.projection ≠ [] ∧ p.base = l := by
  cases hp : p.projection with
  | nil => simp [Effects.write, Place.local?, hp]
  | cons => simp [Effects.write, Place.local?, hp, eq_comm]

theorem mem_defs_write {uses : List LocalId} {p : Place} :
    l ∈ (Effects.write uses p).defs ↔ p = .ofLocal l := by
  obtain ⟨base, projection⟩ := p
  cases projection with
  | nil => simp [Effects.write, Place.local?, Place.ofLocal, eq_comm]
  | cons => simp [Effects.write, Place.local?, Place.ofLocal]

theorem assigns_iff : i.Assigns l ↔ l ∈ i.effects.defs := by
  cases i with
  | statement s =>
    cases s with
    | assign p value => simpa [Assigns, written?, effects, Statement.effects] using mem_defs_write.symm
    | _ => simp [Assigns, written?, effects, Statement.effects]
  | terminator t =>
    cases t with
    | call callee args dest target =>
      simpa [Assigns, written?, effects, Terminator.effects] using mem_defs_write.symm
    | _ => simp [Assigns, written?, effects, Terminator.effects]

/-- Of an instruction that is no return, the reads are those of its operands, of a reference that it makes and
of the place that it writes. -/
theorem reads_iff_of_ne_ret (hi : i ≠ .terminator .ret) : Reads l i ↔ l ∈ operandBases i.operands ∨
    (∃ p q, i = .statement (.assign p (.ref q)) ∧ q.base = l) ∨
      ∃ p, i.written? = some p ∧ p.projection ≠ [] ∧ p.base = l := by
  rw [mem_operandBases]
  constructor
  · intro h
    cases h with
    | operand hop hp hl => exact .inl ⟨_, hop, _, hp, hl⟩
    | ref hl => exact .inr (.inl ⟨_, _, rfl, hl⟩)
    | part hp hpart hl => exact .inr (.inr ⟨_, hp, hpart, hl⟩)
    | ret => exact absurd rfl hi
  · intro h
    rcases h with ⟨op, hop, p, hp, hl⟩ | ⟨p, q, rfl, hl⟩ | ⟨p, hp, hpart, hl⟩
    · exact .operand hop hp hl
    · exact .ref hl
    · exact .part hp hpart hl

theorem reads_iff : Reads l i ↔ l ∈ i.effects.uses := by
  by_cases hi : i = .terminator .ret
  · subst hi
    constructor
    · intro h
      cases h with
      | operand hop => exact absurd hop List.not_mem_nil
      | part hp => exact absurd hp (by simp [written?])
      | ret hl => exact List.mem_singleton.2 hl
    · intro h
      exact .ret (List.mem_singleton.1 h)
  · rw [reads_iff_of_ne_ret hi]
    cases i with
    | statement s =>
      cases s with
      | assign p value =>
        rw [effects, Statement.effects, mem_uses_write, mem_uses_rvalue]
        simp [operands, written?, or_assoc]
      | _ => simp [operands, written?, effects, Statement.effects, operandBases]
    | terminator t =>
      cases t with
      | call callee args dest target =>
        rw [effects, Terminator.effects, mem_uses_write]
        simp [operands, written?]
      | ret => exact absurd rfl hi
      | _ => simp [operands, written?, effects, Terminator.effects, operandBases]

end Instruction

/-! ## Reads ahead -/

namespace Body

/-- None of the steps assigns a local. -/
def Unassigned (l : LocalId) (steps : List Step) : Prop :=
  ∀ d i, .exec d i ∈ steps → ¬ i.Assigns l

/-- Control can come from a position to an instruction that reads a local, without assigning it on the way. -/
def ReadFirst (b : Body) (l : LocalId) (start : Location) : Prop :=
  ∃ steps loc i, b.Way start steps loc ∧ Unassigned l steps ∧ b.instruction? loc = some i ∧ i.Reads l

variable {l : LocalId} {steps : List Step}

theorem unassigned_nil : Unassigned l [] :=
  fun _ _ hmem => absurd hmem List.not_mem_nil

theorem unassigned_exec {loc : Location} {i : Instruction} :
    Unassigned l (.exec loc i :: steps) ↔ ¬ i.Assigns l ∧ Unassigned l steps := by
  simp only [Unassigned, List.mem_cons, Step.exec.injEq]
  constructor
  · intro h
    exact ⟨h loc i (.inl ⟨rfl, rfl⟩), fun d j hmem => h d j (.inr hmem)⟩
  · intro h d j hmem
    rcases hmem with ⟨rfl, rfl⟩ | hmem
    · exact h.1
    · exact h.2 d j hmem

theorem unassigned_append {rest : List Step} :
    Unassigned l (steps ++ rest) ↔ Unassigned l steps ∧ Unassigned l rest := by
  simp only [Unassigned, List.mem_append, or_imp, forall_and]

theorem unassigned_jump {source target : BlockId} :
    Unassigned l (.jump source target :: steps) ↔ Unassigned l steps := by
  simp [Unassigned]

end Body

namespace Liveness

variable {b : Body} {l : LocalId} {loc : Location}

open Body in
theorem readFirst_of_readAhead (h : ReadAhead b l loc) : b.ReadFirst l loc := by
  induction h with
  | here hi huse => exact ⟨[], _, _, .here, unassigned_nil, hi, Instruction.reads_iff.2 huse⟩
  | next hs hdef _ ih =>
    obtain ⟨steps, d, i, hway, hclear, hi, hread⟩ := ih
    refine ⟨_, d, i, .next hs hway, unassigned_exec.2 ⟨?_, hclear⟩, hi, hread⟩
    rwa [Instruction.assigns_iff]
  | jump ht hdef htarget _ ih =>
    obtain ⟨steps, d, i, hway, hclear, hi, hread⟩ := ih
    refine ⟨_, d, i, .jump ht htarget hway, unassigned_exec.2 ⟨?_, unassigned_jump.2 hclear⟩, hi, hread⟩
    rwa [Instruction.assigns_iff]

theorem liveAt_of_reads {i : Instruction} (hi : b.instruction? loc = some i) (hread : i.Reads l) :
    (ofBody b).liveAt l loc = true := by
  rw [liveAt_exec hi, Effects.liveBefore, List.contains_iff_mem.2 (Instruction.reads_iff.1 hread), Bool.true_or]

/-- What is live after an instruction that does not assign it is live before. -/
theorem liveAt_of_next {i : Instruction} (hi : b.instruction? loc = some i) (hdef : ¬ i.Assigns l)
    (h : (ofBody b).liveAt l loc.next = true) : (ofBody b).liveAt l loc = true := by
  rw [Instruction.assigns_iff] at hdef
  rw [liveAt_exec hi, h]
  simp [Effects.liveBefore, hdef]

/-- What is live where a terminator leads is live after the terminator. -/
theorem liveAt_of_target (hb : b.Complete) (hreached : loc.block ∈ (ofBody b).reached) {t : Terminator}
    (ht : b.instruction? loc = some (.terminator t)) {target : BlockId} (htarget : target ∈ t.successors)
    (h : (ofBody b).liveAt l ⟨target, 0⟩ = true) : (ofBody b).liveAt l loc.next = true := by
  have htarget' := reached_of_reaches hb hreached (hb.edge ht htarget).reaches
  rw [liveAt_end ht, isLiveOut_iff]
  exact ⟨hreached, target, (Body.mem_successors_iff ht).2 htarget, (liveAt_start hb htarget').1 h⟩

/-- Liveness goes back along a way on which the local is not assigned. -/
theorem liveAt_of_way (hb : b.Complete) {start : Location} {steps : List Body.Step}
    (hway : b.Way start steps loc) (hreached : start.block ∈ (ofBody b).reached)
    (hclear : Body.Unassigned l steps) (h : (ofBody b).liveAt l loc = true) :
    (ofBody b).liveAt l start = true := by
  induction hway with
  | here => exact h
  | next hs _ ih =>
    obtain ⟨hdef, hclear⟩ := Body.unassigned_exec.1 hclear
    exact liveAt_of_next hs hdef (ih hreached hclear h)
  | jump ht htarget _ ih =>
    obtain ⟨hdef, hclear⟩ := Body.unassigned_exec.1 hclear
    have hlive := ih (reached_of_reaches hb hreached (hb.edge ht htarget).reaches)
      (Body.unassigned_jump.1 hclear) h
    exact liveAt_of_next ht hdef (liveAt_of_target hb hreached ht htarget hlive)

/-- In a reached block a local is live exactly where it is read first. -/
theorem liveAt_iff_readFirst (hb : b.Complete) (hreached : loc.block ∈ (ofBody b).reached) {i : Instruction}
    (hi : b.instruction? loc = some i) : (ofBody b).liveAt l loc = true ↔ b.ReadFirst l loc := by
  constructor
  · intro h
    exact readFirst_of_readAhead (readAhead_of_liveAt hb hi h)
  · intro h
    obtain ⟨steps, d, j, hway, hclear, hj, hread⟩ := h
    exact liveAt_of_way hb hway hreached hclear (liveAt_of_reads hj hread)

theorem mem_liveOut {id : BlockId} : id ∈ (ofBody b).liveOut l ↔
    id ∈ (ofBody b).reached ∧ ∃ target ∈ b.successors id, target ∈ (ofBody b).liveIn l := by
  rw [liveOut, List.mem_filter, isLiveOut_iff, List.mem_range]
  refine and_iff_right_of_imp fun h => ?_
  obtain ⟨r, -, hr, hreach⟩ := Digraph.mem_postorder.1 (List.mem_reverse.1 (mem_reached_iff.1 h.1))
  exact hreach.lt_size hr

theorem mem_liveOut_iff {id : BlockId} : id ∈ (ofBody b).liveOut l ↔ l ∈ (ofBody b).sets.after id := by
  rw [mem_liveOut, ← isLiveOut_iff, isLiveOut, Std.ExtTreeSet.contains_iff_mem]

/-! ## Main result -/

/-- Liveness is exact. After some sweeps over a complete body there is one that changes nothing, and the sets that it
leaves are the least that give all that the body asks of them. At the start of a block that the entry reaches those
locals are live that are read first from there, at its end those that are live at the start of a block to which it
leads, and in a block that the entry does not reach none is. -/
theorem live_iff_read_first (hb : b.check = .ok ()) :
    (∃ n, (fun s => (LiveSets.sweep b b.reversePostorder.reverse s).1)^[n] (.unknown b.blocks.size) = b.liveSets ∧
      LiveSets.sweep b b.reversePostorder.reverse b.liveSets = (b.liveSets, false)) ∧
    b.liveSets.answer.Solves b ∧ (∀ x : LiveAnswer, x.Solves b → b.liveSets.answer.Below x) ∧ ∀ id l,
      (id ∈ (ofBody b).liveIn l ↔ l ∈ b.liveSets.before id) ∧ (id ∈ (ofBody b).liveOut l ↔ l ∈ b.liveSets.after id) ∧
      (b.flow.Reaches entryBlock id → (l ∈ b.liveSets.before id ↔ b.ReadFirst l ⟨id, 0⟩) ∧
        (l ∈ b.liveSets.after id ↔ ∃ target ∈ b.successors id, l ∈ b.liveSets.before target)) ∧
      (¬ b.flow.Reaches entryBlock id → l ∉ b.liveSets.before id ∧ l ∉ b.liveSets.after id) := by
  have hb := Body.complete_of_check hb
  refine ⟨LiveSets.exists_iterate_settle _, b.solves_liveSets, fun x hx => b.liveSets_below hx, fun id l => ?_⟩
  have hstart : id ∈ (ofBody b).liveIn l ↔ l ∈ b.liveSets.before id := mem_liveIn_iff
  have hend : id ∈ (ofBody b).liveOut l ↔ l ∈ b.liveSets.after id := mem_liveOut_iff
  refine ⟨hstart, hend, ?_⟩
  rw [← hstart, ← hend, ← mem_reached hb]
  constructor
  · intro hreached
    obtain ⟨i, hi⟩ := hb.exists_start (reached_lt hb hreached)
    constructor
    · rw [← liveAt_start hb hreached]
      exact liveAt_iff_readFirst hb hreached hi
    · rw [mem_liveOut]
      simp only [hreached, true_and, mem_liveIn_iff]
      rfl
  · intro hunreached
    constructor
    · intro h
      exact hunreached (reached_of_mem_liveIn h)
    · intro h
      exact hunreached (mem_liveOut.1 h).1

/-- A loop that writes a field of a local in each turn: the local is set before the loop, and another block,
which nothing leads to, reads it. -/
def filling : Body where
  name := "filling"
  locals := #[{ kind := .returnPlace }, { kind := .var, type := some 0 }]
  paramCount := 0
  blocks := #[
    { statements := [.assign (.ofLocal 1) (.alloc 0 0 false [])], terminator := some (.goto 1) },
    { terminator := some (.switch (.const 0) [2] 3) },
    { statements := [.assign { base := 1, projection := [.field 0] } (.use (.const 7))]
      terminator := some (.goto 1) },
    { terminator := some .ret },
    { statements := [.assign (.ofLocal 0) (.use (.copy (.ofLocal 1)))], terminator := some .ret }]

/-- The local is live around the loop, because a turn may follow that reads it to find the field, and not in
the block that is not reached. -/
theorem filling_live : filling.check = .ok () ∧ filling.flow.Reaches entryBlock 1 ∧
    ¬ filling.flow.Reaches entryBlock 4 ∧
      1 ∈ filling.liveSets.before 1 ∧ 1 ∈ filling.liveSets.after 0 ∧ 1 ∉ filling.liveSets.before 4 := by
  have hb : filling.check = .ok () := rfl
  have hedge : filling.flow.Edge 0 1 := ⟨by decide, (), by decide⟩
  have hjumps : ∀ u < 4, ∀ v ∈ filling.successors u, v < 4 := by decide
  have hstays : ∀ {u v}, filling.flow.Reaches u v → u < 4 → v < 4 := fun h => by
    induction h with
    | refl => exact id
    | step huv _ ih =>
      obtain ⟨-, e, hout⟩ := huv
      obtain ⟨v, hv, he⟩ := List.mem_map.1 hout
      obtain ⟨-, rfl⟩ := Prod.mk.inj he
      exact fun hu => ih (hjumps _ hu v hv)
  have hunreached : ¬ filling.flow.Reaches entryBlock 4 := fun h =>
    absurd (hstays h (by decide)) (Nat.lt_irrefl 4)
  obtain ⟨-, -, -, hlive⟩ := live_iff_read_first hb
  have hhead : 1 ∈ filling.liveSets.before 1 := by
    refine ((hlive 1 1).2.2.1 hedge.reaches).1.2
      ⟨_, ⟨2, 0⟩, _, .jump rfl (List.mem_cons_self ..) .here, ?_, rfl, ?_⟩
    · exact Body.unassigned_exec.2 ⟨nofun, Body.unassigned_jump.2 Body.unassigned_nil⟩
    · exact .part rfl (List.cons_ne_nil _ _) rfl
  have hentry := ((hlive 0 1).2.2.1 (.refl 0)).2.2 ⟨1, by decide, hhead⟩
  exact ⟨hb, hedge.reaches, hunreached, hhead, hentry, ((hlive 4 1).2.2.2 hunreached).1⟩

end Liveness

end Reclamation
