import Mathlib
import Reclamation.Proofs.Analysis.Detours

/-!
# Escape analysis answers no more than it must

What a body demands of an answer is read off its instructions (`Body.Demands`, `Body.DemandsCrossing`): a value
that is put into a place escapes as far as what is in the place already, and so on. An answer that gives all
that is demanded of it is a solution (`EscapeAnswer.Solves`). The conditions that the analysis collects say
neither more nor less (`Body.demanded_of_mem`, `Body.Demands.exists_constraint`).

The answer of the analysis is the least solution (`Body.escape_least`), and what does not depend on how it is
found does not depend on the order in which it is looked for: an answer that starts below the least solution,
and is raised to what is demanded of it as long as something is missing, ends after finitely many times with
the answer of the analysis, however the next demand is chosen (`EscapeAnswer.Raises`).
-/

set_option autoImplicit false

namespace Reclamation

theorem EscapeState.rank_le_global (s : EscapeState) : s.rank ≤ EscapeState.global.rank := by
  cases s <;> decide

/-! ## What a body demands -/

/-- How far each local escapes, and whether it crosses to another thread. -/
@[ext]
structure EscapeAnswer where
  state : LocalId → EscapeState
  crosses : LocalId → Bool

/-- What the analysis answers. -/
def EscapeFacts.answer (f : EscapeFacts) : EscapeAnswer where
  state := f.state
  crosses := f.crosses

/-- How far a value escapes by being put into a place. Behind a pointer there may be anything. -/
def EscapeAnswer.place (x : EscapeAnswer) (p : Place) : EscapeState :=
  if p.isIndirect then .global else x.state p.base

namespace Body

/-- A body demands of an answer that a local escapes at least so far. -/
inductive Demands (b : Body) (o : AnalysisOptions) (x : EscapeAnswer) : LocalId → EscapeState → Prop
  | returned : Demands b o x returnLocal .global
  | param {l : LocalId} : l ∈ b.params → Demands b o x l .arg
  | assigned {p : Place} {value : Rvalue} {l : LocalId} :
      b.Has (.statement (.assign p value)) → l ∈ value.sources → Demands b o x l (x.place p)
  | captured {p : Place} {captures : List Operand} {l : LocalId} :
      b.Has (.statement (.assign p (.closure captures))) → l ∈ operandBases captures → Demands b o x l .global
  | stored {target : GlobalId} {value : Operand} {l : LocalId} :
      b.Has (.statement (.storeGlobal target value)) → value.base? = some l → Demands b o x l .global
  | sent {channel value : Operand} {l : LocalId} :
      b.Has (.statement (.send channel value)) → value.base? = some l → Demands b o x l .global
  | spawned {captures : List Operand} {l : LocalId} :
      b.Has (.statement (.spawn captures)) → l ∈ operandBases captures → Demands b o x l .global
  /-- What the called function does with the argument decides. -/
  | passed {callee : Callee} {args : List Operand} {dest : Place} {target : Option BlockId} {index : Nat}
      {arg : Operand} {l : LocalId} :
      b.Has (.terminator (.call callee args dest target)) → args[index]? = some arg → arg.base? = some l →
        Demands b o x l (callee.escape o.unknownCallee index)

/-- A body demands of an answer that a local crosses to another thread. -/
inductive DemandsCrossing (b : Body) (x : EscapeAnswer) : LocalId → Prop
  | assigned {p : Place} {value : Rvalue} {l : LocalId} :
      b.Has (.statement (.assign p value)) → l ∈ value.sources → x.crosses p.base = true →
        DemandsCrossing b x l
  | sent {channel value : Operand} {l : LocalId} :
      b.Has (.statement (.send channel value)) → value.base? = some l → DemandsCrossing b x l
  | spawned {captures : List Operand} {l : LocalId} :
      b.Has (.statement (.spawn captures)) → l ∈ operandBases captures → DemandsCrossing b x l

/-- What escape analysis looks at in one body is in the other as well, wherever it stands there: the parameters,
the statements, and the calls. Where a call puts its result and goes on does not matter. -/
structure Within (b b' : Body) : Prop where
  params : b.paramCount ≤ b'.paramCount
  statements : ∀ s, b.Has (.statement s) → b'.Has (.statement s)
  calls : ∀ callee args dest target, b.Has (.terminator (.call callee args dest target)) →
    ∃ dest' target', b'.Has (.terminator (.call callee args dest' target'))

end Body

namespace EscapeAnswer

/-- An answer that gives what a body demands of it. -/
structure Solves (x : EscapeAnswer) (b : Body) (o : AnalysisOptions) : Prop where
  state : ∀ l s, b.Demands o x l s → s.rank ≤ (x.state l).rank
  crossing : ∀ l, b.DemandsCrossing x l → x.crosses l = true

/-- One answer says no more than the other. -/
structure Below (x y : EscapeAnswer) : Prop where
  state : ∀ l, (x.state l).rank ≤ (y.state l).rank
  crossing : ∀ l, x.crosses l = true → y.crosses l = true

/-- An answer is raised to something that is demanded of it and that it does not give. -/
inductive Raises (b : Body) (o : AnalysisOptions) (x : EscapeAnswer) : EscapeAnswer → Prop
  | state {l : LocalId} {s : EscapeState} : b.Demands o x l s → (x.state l).rank < s.rank →
      Raises b o x { x with state := Function.update x.state l s }
  | crossing {l : LocalId} : b.DemandsCrossing x l → x.crosses l = false →
      Raises b o x { x with crosses := Function.update x.crosses l true }

variable {x y z : EscapeAnswer}

theorem Below.refl (x : EscapeAnswer) : x.Below x :=
  ⟨fun _ => le_rfl, fun _ h => h⟩

theorem Below.antisymm (hxy : x.Below y) (hyx : y.Below x) : x = y := by
  ext l
  · exact EscapeState.rank_injective (le_antisymm (hxy.state l) (hyx.state l))
  · exact Bool.eq_iff_iff.2 ⟨hxy.crossing l, hyx.crossing l⟩

theorem Below.place (h : x.Below y) (p : Place) : (x.place p).rank ≤ (y.place p).rank := by
  rw [EscapeAnswer.place, EscapeAnswer.place]
  split
  · exact le_rfl
  · exact h.state p.base

end EscapeAnswer

namespace Body

variable {b b' : Body} {o : AnalysisOptions} {x y : EscapeAnswer} {l : LocalId} {s : EscapeState}

/-- Of an answer that says more, more is demanded. -/
theorem Demands.mono (h : b.Demands o x l s) (hb : b.Within b') (hxy : x.Below y) :
    ∃ t, b'.Demands o y l t ∧ s.rank ≤ t.rank := by
  cases h with
  | returned => exact ⟨_, .returned, le_rfl⟩
  | param hl =>
    refine ⟨_, .param ?_, le_rfl⟩
    obtain ⟨n, hn, rfl⟩ := List.mem_map.1 hl
    exact List.mem_map.2 ⟨n, List.mem_range.2 ((List.mem_range.1 hn).trans_le hb.params), rfl⟩
  | @assigned p value _ hhas hl => exact ⟨_, .assigned (hb.statements _ hhas) hl, hxy.place p⟩
  | captured hhas hl => exact ⟨_, .captured (hb.statements _ hhas) hl, le_rfl⟩
  | stored hhas hl => exact ⟨_, .stored (hb.statements _ hhas) hl, le_rfl⟩
  | sent hhas hl => exact ⟨_, .sent (hb.statements _ hhas) hl, le_rfl⟩
  | spawned hhas hl => exact ⟨_, .spawned (hb.statements _ hhas) hl, le_rfl⟩
  | passed hhas harg hl =>
    obtain ⟨dest', target', hhas'⟩ := hb.calls _ _ _ _ hhas
    exact ⟨_, .passed hhas' harg hl, le_rfl⟩

theorem DemandsCrossing.mono (h : b.DemandsCrossing x l) (hb : b.Within b') (hxy : x.Below y) :
    b'.DemandsCrossing y l := by
  cases h with
  | assigned hhas hl hbase => exact .assigned (hb.statements _ hhas) hl (hxy.crossing _ hbase)
  | sent hhas hl => exact .sent (hb.statements _ hhas) hl
  | spawned hhas hl => exact .spawned (hb.statements _ hhas) hl

theorem Within.refl (b : Body) : b.Within b :=
  ⟨le_rfl, fun _ h => h, fun _ _ dest target h => ⟨dest, target, h⟩⟩

/-- A body is within the body that a further statement makes of it. -/
theorem within_addStatement (b : Body) (block : BlockId) (s : Statement) :
    b.Within (b.addStatement block s).1 := by
  have hhas : ∀ i, b.Has i → (b.addStatement block s).1.Has i := by
    intro i hi
    obtain ⟨id, data, hdata, hmem⟩ := has_iff.1 hi
    rw [addStatement]
    split
    · next data' hdata' =>
      rw [has_iff]
      by_cases hid : block = id
      · subst hid
        obtain rfl : data = data' := Option.some.inj (hdata.symm.trans hdata')
        refine ⟨block, { data with statements := data.statements ++ [s] }, ?_, ?_⟩
        · simp [Array.getElem?_modify, hdata]
        · -- the statement stands between the other statements and the terminator
          rw [Block.instructions, List.mem_append] at hmem ⊢
          refine hmem.imp_left fun h => ?_
          rw [List.map_append]
          exact List.mem_append_left _ h
      · exact ⟨id, data, by simp [Array.getElem?_modify, hid, hdata], hmem⟩
    · exact hi
  have hcount : (b.addStatement block s).1.paramCount = b.paramCount := by
    rw [addStatement]
    split <;> rfl
  exact ⟨hcount.ge, fun s' h => hhas _ h, fun _ _ dest target h => ⟨dest, target, hhas _ h⟩⟩

end Body

/-- What solves a body solves what is within it. -/
theorem EscapeAnswer.Solves.within {b b' : Body} {o : AnalysisOptions} {x : EscapeAnswer} (h : x.Solves b' o)
    (hb : b.Within b') : x.Solves b o where
  state l s hs := by
    obtain ⟨t, ht, hle⟩ := hs.mono hb (.refl x)
    exact hle.trans (h.state l t ht)
  crossing l hl := h.crossing l (hl.mono hb (.refl x))

/-! ## Demands and conditions -/

namespace Statement

open EscapeConstraint

variable {p : Place} {value : Rvalue} {l : LocalId}

/-- What an assignment says of a local whose value it hands on. -/
theorem constraints_of_mem_sources (hl : l ∈ value.sources) :
    (atLeast l .global ∈ (assign p value).escapeConstraints ∨
        p.isIndirect = false ∧ follows l p.base ∈ (assign p value).escapeConstraints) ∧
      crossesWith l p.base ∈ (assign p value).escapeConstraints := by
  have hholds : (∀ c ∈ p.holds l, c ∈ (assign p value).escapeConstraints) →
      (atLeast l .global ∈ (assign p value).escapeConstraints ∨
          p.isIndirect = false ∧ follows l p.base ∈ (assign p value).escapeConstraints) ∧
        crossesWith l p.base ∈ (assign p value).escapeConstraints := by
    intro h
    refine ⟨?_, h _ (by simp [Place.holds])⟩
    cases hp : p.isIndirect with
    | true => exact .inl (h _ (by simp [Place.holds, hp]))
    | false => exact .inr ⟨rfl, h _ (by simp [Place.holds, hp])⟩
  cases value with
  | use op => exact hholds fun c hc => List.mem_flatMap.2 ⟨l, hl, hc⟩
  | alloc site type frozen contents => exact hholds fun c hc => List.mem_flatMap.2 ⟨l, hl, hc⟩
  | closure captures =>
    have hmem : ∀ c ∈ [atLeast l .global, crossesWith l p.base],
        c ∈ (assign p (.closure captures)).escapeConstraints := fun c hc => List.mem_flatMap.2 ⟨l, hl, hc⟩
    exact ⟨.inl (hmem _ (by simp)), hmem _ (by simp)⟩
  | ref q =>
    obtain rfl := List.mem_singleton.1 hl
    exact hholds fun c hc => hc
  | binary => exact absurd hl List.not_mem_nil

/-- An assignment says no more than that. -/
theorem cases_of_mem_constraints {c : EscapeConstraint} (hc : c ∈ (assign p value).escapeConstraints) :
    ∃ l ∈ value.sources, c = crossesWith l p.base ∨
      (c = atLeast l .global ∧ (p.isIndirect = true ∨ ∃ captures, value = .closure captures)) ∨
        (c = follows l p.base ∧ p.isIndirect = false) := by
  have hholds : c ∈ value.sources.flatMap p.holds → ∃ l ∈ value.sources, c = crossesWith l p.base ∨
      (c = atLeast l .global ∧ (p.isIndirect = true ∨ ∃ captures, value = .closure captures)) ∨
        (c = follows l p.base ∧ p.isIndirect = false) := by
    intro h
    obtain ⟨l, hl, h⟩ := List.mem_flatMap.1 h
    refine ⟨l, hl, ?_⟩
    rcases List.mem_pair.1 h with rfl | rfl
    · cases hp : p.isIndirect with
      | true => exact .inr (.inl ⟨rfl, .inl rfl⟩)
      | false => exact .inr (.inr ⟨rfl, rfl⟩)
    · exact .inl rfl
  cases value with
  | use | alloc => exact hholds hc
  | closure captures =>
    obtain ⟨l, hl, h⟩ := List.mem_flatMap.1 hc
    refine ⟨l, hl, ?_⟩
    rcases List.mem_pair.1 h with rfl | rfl
    · exact .inr (.inl ⟨rfl, .inr ⟨captures, rfl⟩⟩)
    · exact .inl rfl
  | ref q => exact hholds (by simpa [Rvalue.sources, escapeConstraints] using hc)
  | binary => exact absurd hc List.not_mem_nil

end Statement

namespace Body

variable {b : Body} {o : AnalysisOptions} {x : EscapeAnswer} {l : LocalId} {s : EscapeState}

open EscapeConstraint

theorem mem_operandBases_singleton {op : Operand} : l ∈ operandBases [op] ↔ op.base? = some l := by
  simp [operandBases]

theorem mem_escapeConstraints_of_has {i : Instruction} {c : EscapeConstraint} (hi : b.Has i)
    (hc : c ∈ i.escapeConstraints o) : c ∈ b.escapeConstraints o :=
  mem_escapeConstraints_iff.2 (.inr ⟨i, hi, hc⟩)

/-- What is demanded is a condition, or follows from one. -/
theorem Demands.exists_constraint (h : b.Demands o x l s) :
    (∃ t, atLeast l t ∈ b.escapeConstraints o ∧ s.rank ≤ t.rank) ∨
      ∃ other, follows l other ∈ b.escapeConstraints o ∧ s.rank ≤ (x.state other).rank := by
  cases h with
  | returned => exact .inl ⟨_, mem_escapeConstraints_iff.2 (.inl List.mem_cons_self), le_rfl⟩
  | param hl =>
    exact .inl ⟨_, mem_escapeConstraints_iff.2 (.inl (List.mem_cons_of_mem _ (List.mem_map_of_mem hl))), le_rfl⟩
  | @assigned p _ _ hhas hl =>
    rcases (Statement.constraints_of_mem_sources (p := p) hl).1 with hc | ⟨hdirect, hc⟩
    · exact .inl ⟨_, mem_escapeConstraints_of_has hhas hc, EscapeState.rank_le_global _⟩
    · refine .inr ⟨_, mem_escapeConstraints_of_has hhas hc, ?_⟩
      simp [EscapeAnswer.place, hdirect]
  | captured hhas hl =>
    refine .inl ⟨_, mem_escapeConstraints_of_has hhas ?_, le_rfl⟩
    exact List.mem_flatMap.2 ⟨l, hl, List.mem_cons_self⟩
  | stored hhas hl =>
    refine .inl ⟨_, mem_escapeConstraints_of_has hhas ?_, le_rfl⟩
    exact List.mem_map_of_mem (mem_operandBases_singleton.2 hl)
  | sent hhas hl =>
    refine .inl ⟨_, mem_escapeConstraints_of_has hhas ?_, le_rfl⟩
    exact List.mem_flatMap.2 ⟨l, mem_operandBases_singleton.2 hl, List.mem_cons_self⟩
  | spawned hhas hl =>
    refine .inl ⟨_, mem_escapeConstraints_of_has hhas ?_, le_rfl⟩
    exact List.mem_flatMap.2 ⟨l, hl, List.mem_cons_self⟩
  | @passed callee args dest target index arg _ hhas harg hl =>
    refine .inl ⟨_, mem_escapeConstraints_of_has hhas ?_, le_rfl⟩
    refine List.mem_filterMap.2 ⟨(arg, index), List.mem_zipIdx_iff_getElem?.2 harg, ?_⟩
    exact Option.map_eq_some_iff.2 ⟨l, hl, rfl⟩

theorem DemandsCrossing.exists_constraint (h : b.DemandsCrossing x l) : crosses l ∈ b.escapeConstraints o ∨
    ∃ other, crossesWith l other ∈ b.escapeConstraints o ∧ x.crosses other = true := by
  have hhanded : ∀ {ls : List LocalId}, l ∈ ls → crosses l ∈ ls.flatMap handedOver := by
    intro ls hl
    exact List.mem_flatMap.2 ⟨l, hl, by simp [handedOver]⟩
  cases h with
  | @assigned p _ _ hhas hl hbase =>
    exact .inr ⟨_, mem_escapeConstraints_of_has hhas (Statement.constraints_of_mem_sources hl).2, hbase⟩
  | sent hhas hl => exact .inl (mem_escapeConstraints_of_has hhas (hhanded (mem_operandBases_singleton.2 hl)))
  | spawned hhas hl => exact .inl (mem_escapeConstraints_of_has hhas (hhanded hl))

end Body

/-- What a condition demands of an answer. -/
def EscapeConstraint.Demanded (b : Body) (o : AnalysisOptions) (x : EscapeAnswer) : EscapeConstraint → Prop
  | atLeast l s => b.Demands o x l s
  | follows l other => b.Demands o x l (x.state other)
  | crosses l => b.DemandsCrossing x l
  | crossesWith l other => x.crosses other = true → b.DemandsCrossing x l

namespace Body

variable {b : Body} {o : AnalysisOptions} {x : EscapeAnswer}

/-- Each condition is demanded. -/
theorem demanded_of_mem {c : EscapeConstraint} (hc : c ∈ b.escapeConstraints o) : c.Demanded b o x := by
  rcases mem_escapeConstraints_iff.1 hc with hc | ⟨i, hi, hc⟩
  · rcases List.mem_cons.1 hc with rfl | hc
    · exact Demands.returned
    · obtain ⟨l, hl, rfl⟩ := List.mem_map.1 hc
      exact Demands.param hl
  · cases i with
    | statement s =>
      cases s with
      | assign p value =>
        obtain ⟨l, hl, hcase⟩ := Statement.cases_of_mem_constraints hc
        have hplace : b.Demands o x l (x.place p) := .assigned hi hl
        rcases hcase with rfl | ⟨rfl, hindirect | ⟨captures, rfl⟩⟩ | ⟨rfl, hdirect⟩
        · exact DemandsCrossing.assigned hi hl
        · rwa [EscapeAnswer.place, if_pos hindirect] at hplace
        · exact Demands.captured hi hl
        · rwa [EscapeAnswer.place, hdirect, if_neg Bool.false_ne_true] at hplace
      | storeGlobal target value =>
        obtain ⟨l, hl, rfl⟩ := List.mem_map.1 hc
        exact Demands.stored hi (mem_operandBases_singleton.1 hl)
      | send channel value =>
        obtain ⟨l, hl, h⟩ := List.mem_flatMap.1 hc
        rcases List.mem_pair.1 h with rfl | rfl
        · exact Demands.sent hi (mem_operandBases_singleton.1 hl)
        · exact DemandsCrossing.sent hi (mem_operandBases_singleton.1 hl)
      | spawn captures =>
        obtain ⟨l, hl, h⟩ := List.mem_flatMap.1 hc
        rcases List.mem_pair.1 h with rfl | rfl
        · exact Demands.spawned hi hl
        · exact DemandsCrossing.spawned hi hl
      | storageLive | storageDead | nop => exact absurd hc List.not_mem_nil
    | terminator t =>
      cases t with
      | call callee args dest target =>
        obtain ⟨⟨arg, index⟩, harg, h⟩ := List.mem_filterMap.1 hc
        obtain ⟨l, hl, rfl⟩ := Option.map_eq_some_iff.1 h
        exact Demands.passed hi (List.mem_zipIdx_iff_getElem?.1 harg) hl
      | goto | switch | ret | unreachable => exact absurd hc List.not_mem_nil

end Body

/-! ## The least solution -/

namespace Body

variable {b b' : Body} {o : AnalysisOptions} {x y : EscapeAnswer} {l : LocalId} {s : EscapeState}

/-- The locals that are found to escape at least so far. -/
theorem le_rank_escape (hs : s ≠ .none) :
    s.rank ≤ ((b.escape o).state l).rank ↔ l ∈ EscapeConstraint.reached (b.escapeConstraints o) s := by
  cases s with
  | none => exact absurd rfl hs
  | global => exact EscapeFacts.rank_state
  | arg =>
    refine EscapeFacts.rank_state_arg.trans (or_iff_right_of_imp ?_)
    -- what escapes globally also escapes as an argument
    intro h
    refine EscapeConstraint.of_mem_reached ?_ ?_ h
    · intro l t hc hle
      exact EscapeConstraint.mem_reached_of_atLeast hc (Nat.le_of_succ_le hle)
    · intro l other hc hother
      exact EscapeConstraint.mem_reached_of_follows hc hother

theorem crosses_escape : (b.escape o).crosses l = true ↔ l ∈ EscapeConstraint.crossing (b.escapeConstraints o) :=
  List.contains_iff_mem

theorem solves_escape (b : Body) (o : AnalysisOptions) : (b.escape o).answer.Solves b o where
  state l s h := by
    by_cases hs : s = .none
    · exact hs ▸ Nat.zero_le _
    · change s.rank ≤ ((b.escape o).state l).rank
      rw [le_rank_escape hs]
      rcases h.exists_constraint with ⟨t, hc, hle⟩ | ⟨other, hc, hle⟩
      · exact EscapeConstraint.mem_reached_of_atLeast hc hle
      · exact EscapeConstraint.mem_reached_of_follows hc ((le_rank_escape hs).1 hle)
  crossing l h := by
    apply crosses_escape.2
    rcases h.exists_constraint (o := o) with hc | ⟨other, hc, hother⟩
    · exact EscapeConstraint.mem_crossing_of_crosses hc
    · exact EscapeConstraint.mem_crossing_of_crossesWith hc (crosses_escape.1 hother)

theorem escape_below (h : x.Solves b o) : (b.escape o).answer.Below x where
  state l := by
    change ((b.escape o).state l).rank ≤ _
    by_cases hs : (b.escape o).state l = .none
    · exact hs ▸ Nat.zero_le _
    · refine EscapeConstraint.of_mem_reached (P := fun l' => _ ≤ (x.state l').rank) ?_ ?_
        ((le_rank_escape hs).1 le_rfl)
      · intro l' t hc hle
        exact hle.trans (h.state l' t (demanded_of_mem hc))
      · intro l' other hc hle
        exact hle.trans (h.state l' _ (demanded_of_mem hc))
  crossing l hl := by
    refine EscapeConstraint.of_mem_crossing (P := fun l' => x.crosses l' = true) ?_ ?_ (crosses_escape.1 hl)
    · intro l' hc
      exact h.crossing l' (demanded_of_mem hc)
    · intro l' other hc hother
      exact h.crossing l' (demanded_of_mem hc hother)

/-- More instructions do not lower an answer. -/
theorem Within.escape_below (hb : b.Within b') : (b.escape o).answer.Below (b'.escape o).answer :=
  Body.escape_below ((solves_escape b' o).within hb)

/-- What crosses to another thread escapes globally: an answer in which only that crosses is a solution. -/
theorem global_of_crosses (hl : (b.escape o).crosses l = true) : (b.escape o).state l = .global := by
  let x : EscapeAnswer :=
    { state := (b.escape o).state
      crosses := fun l => (b.escape o).crosses l && (b.escape o).state l == .global }
  have hglobal : ∀ l, EscapeState.global.rank ≤ ((b.escape o).state l).rank → (b.escape o).state l = .global :=
    fun l h => EscapeState.rank_injective (le_antisymm (EscapeState.rank_le_global _) h)
  have hbelow : x.Below (b.escape o).answer := ⟨fun _ => le_rfl, fun l h => (Bool.and_eq_true_iff.1 h).1⟩
  have hsolves : x.Solves b o := by
    refine ⟨fun l s h => ?_, fun l h => ?_⟩
    · obtain ⟨t, ht, hle⟩ := h.mono (.refl b) hbelow
      exact hle.trans ((solves_escape b o).state l t ht)
    · refine Bool.and_eq_true_iff.2 ⟨(solves_escape b o).crossing l (h.mono (.refl b) hbelow), ?_⟩
      rw [beq_iff_eq]
      refine hglobal l ?_
      cases h with
      | @assigned p _ _ hhas hl hbase =>
        -- the value is behind a pointer, or where a global one is
        refine le_trans ?_ ((solves_escape b o).state l _ (.assigned hhas hl))
        have hstate : (b.escape o).state p.base = .global := by
          simpa using (Bool.and_eq_true_iff.1 hbase).2
        rw [EscapeAnswer.place]
        split
        · exact le_rfl
        · exact hstate ▸ le_rfl
      | sent hhas hl => exact (solves_escape b o).state l _ (.sent hhas hl)
      | spawned hhas hl => exact (solves_escape b o).state l _ (.spawned hhas hl)
  simpa using (Bool.and_eq_true_iff.1 ((Body.escape_below hsolves).crossing l hl)).2

theorem global_of_isCaptured (hl : (b.escape o).isCaptured l = true) : (b.escape o).state l = .global := by
  obtain ⟨⟨closure, captures⟩, hclosure, hmem⟩ := List.any_eq_true.1 hl
  obtain ⟨⟨loc, s⟩, hs, hcase⟩ := List.mem_filterMap.1 hclosure
  have hhas : b.Has (.statement s) := ⟨loc, mem_statements.1 hs⟩
  dsimp only at hcase
  split at hcase
  · obtain ⟨-, rfl⟩ := Prod.mk.inj (Option.some.inj hcase)
    have hdemand : b.Demands o (b.escape o).answer l .global := .captured hhas (List.contains_iff_mem.1 hmem)
    exact EscapeState.rank_injective
      (le_antisymm (EscapeState.rank_le_global _) ((solves_escape b o).state l _ hdemand))
  · cases hcase

end Body

/-! ## Raising an answer -/

namespace EscapeAnswer

variable {b : Body} {o : AnalysisOptions} {x y z : EscapeAnswer} {l : LocalId}

/-- An answer that is below a solution stays below it. -/
theorem Raises.below (h : x.Raises b o y) (hz : z.Solves b o) (hx : x.Below z) : y.Below z := by
  cases h with
  | @state l s hs _ =>
    refine ⟨fun l' => ?_, hx.crossing⟩
    obtain ⟨t, ht, hle⟩ := hs.mono (.refl b) hx
    change (Function.update x.state l s l').rank ≤ _
    rw [Function.update_apply]
    split
    · next heq =>
      subst heq
      exact hle.trans (hz.state _ t ht)
    · exact hx.state l'
  | @crossing l hl _ =>
    refine ⟨hx.state, fun l' h => ?_⟩
    change Function.update x.crosses l true l' = true at h
    rw [Function.update_apply] at h
    split at h
    · next heq =>
      subst heq
      exact hz.crossing _ (hl.mono (.refl b) hx)
    · exact hx.crossing l' h

/-- An answer that cannot be raised gives all that is demanded. -/
theorem Solves.of_not_raises (h : ∀ y, ¬ x.Raises b o y) : x.Solves b o where
  state l s hs := Nat.le_of_not_lt fun hlt => h _ (.state hs hlt)
  crossing l hl := by
    cases hcross : x.crosses l with
    | true => rfl
    | false => exact absurd (.crossing hl hcross) (h _)

/-- How often an answer can be raised at most at a local. -/
def roomAt (x : EscapeAnswer) (l : LocalId) : Nat :=
  (EscapeState.global.rank - (x.state l).rank) + (!x.crosses l).toNat

/-- How often an answer can be raised at most at the first locals. -/
def room (n : Nat) (x : EscapeAnswer) : Nat :=
  ∑ l ∈ Finset.range n, x.roomAt l

theorem room_lt {n : Nat} (hl : l < n) (hlt : y.roomAt l < x.roomAt l) (hne : ∀ l' ≠ l, y.roomAt l' = x.roomAt l') :
    y.room n < x.room n := by
  refine Finset.sum_lt_sum (fun l' _ => ?_) ⟨l, Finset.mem_range.2 hl, hlt⟩
  by_cases h : l' = l
  · exact h ▸ hlt.le
  · exact (hne l' h).le

/-- Each time an answer is raised there is less room left. -/
theorem Raises.room_lt (h : x.Raises b o y) :
    y.room (EscapeConstraint.bound (b.escapeConstraints o)) < x.room (EscapeConstraint.bound (b.escapeConstraints o)) := by
  cases h with
  | @state l s hs hlt =>
    have hl : l < EscapeConstraint.bound (b.escapeConstraints o) := by
      rcases hs.exists_constraint with ⟨t, hc, -⟩ | ⟨other, hc, -⟩
      · exact EscapeConstraint.lt_bound hc (by simp [EscapeConstraint.locals])
      · exact EscapeConstraint.lt_bound hc (by simp [EscapeConstraint.locals])
    have hle := s.rank_le_global
    refine EscapeAnswer.room_lt hl ?_ fun l' hne => ?_
    · simp only [roomAt, Function.update_self]
      omega
    · simp only [roomAt, Function.update_of_ne hne]
  | @crossing l hdemand hcross =>
    have hl : l < EscapeConstraint.bound (b.escapeConstraints o) := by
      rcases hdemand.exists_constraint (o := o) with hc | ⟨other, hc, -⟩
      · exact EscapeConstraint.lt_bound hc (by simp [EscapeConstraint.locals])
      · exact EscapeConstraint.lt_bound hc (by simp [EscapeConstraint.locals])
    refine EscapeAnswer.room_lt hl ?_ fun l' hne => ?_
    · simp [roomAt, hcross]
    · simp only [roomAt, Function.update_of_ne hne]

/-- An answer cannot be raised for ever. -/
theorem wellFounded_raises (b : Body) (o : AnalysisOptions) : WellFounded fun y x => Raises b o x y :=
  Subrelation.wf (fun h => h.room_lt) (measure (room (EscapeConstraint.bound (b.escapeConstraints o)))).wf

theorem below_of_raises (hx : x.Below z) (hz : z.Solves b o) (h : Relation.ReflTransGen (Raises b o) x y) :
    y.Below z := by
  induction h with
  | refl => exact hx
  | tail _ hstep ih => exact hstep.below hz ih

/-- An answer that is raised from below the least solution until it cannot be raised is the least solution. -/
theorem eq_escape_of_raises (hx : x.Below (b.escape o).answer) (h : Relation.ReflTransGen (Raises b o) x y)
    (hend : ∀ z, ¬ y.Raises b o z) : y = (b.escape o).answer :=
  (below_of_raises hx (Body.solves_escape b o) h).antisymm (Body.escape_below (Solves.of_not_raises hend))

end EscapeAnswer

/-! ## Main result -/

/-- Escape analysis answers no more than it must. Its answer is the least solution, and every way of raising a
smaller answer ends, and ends there. So the answer does not depend on where the instructions of a body stand,
further instructions do not lower it, and what crosses to another thread or is captured by a closure escapes
globally. -/
theorem Body.escape_least (b : Body) (o : AnalysisOptions) :
    (b.escape o).answer.Solves b o ∧ (∀ x : EscapeAnswer, x.Solves b o → (b.escape o).answer.Below x) ∧
    (WellFounded fun y x => EscapeAnswer.Raises b o x y) ∧
    (∀ x y : EscapeAnswer, x.Below (b.escape o).answer → Relation.ReflTransGen (EscapeAnswer.Raises b o) x y →
      (∀ z, ¬ y.Raises b o z) → y = (b.escape o).answer) ∧
    (∀ b', b.Within b' → (b.escape o).answer.Below (b'.escape o).answer) ∧
    (∀ block s, b.Within (b.addStatement block s).1) ∧
    (∀ b', b.Within b' → b'.Within b → (b'.escape o).answer = (b.escape o).answer) ∧
    ∀ l, (b.escape o).crosses l = true ∨ (b.escape o).isCaptured l = true → (b.escape o).state l = .global := by
  refine ⟨solves_escape b o, fun x h => escape_below h, EscapeAnswer.wellFounded_raises b o,
    fun x y hx hsteps hend => EscapeAnswer.eq_escape_of_raises hx hsteps hend, fun b' hb => hb.escape_below,
    b.within_addStatement, fun b' hb hb' => hb'.escape_below.antisymm hb.escape_below, fun l hl => ?_⟩
  rcases hl with hl | hl
  · exact global_of_crosses hl
  · exact global_of_isCaptured hl

end Reclamation
