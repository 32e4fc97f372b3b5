import Mathlib
import Reclamation.Proofs.Analysis.Escape
import Reclamation.Proofs.Program.Paths

/-!
# Going by way of a local

An object can be made right where it is to be kept, or it can be made for a local of its own and moved there
(`Body.viaLocal`). The two bodies differ in one statement (`Body.has_viaLocal`), and what they tell escape
analysis differs in what that statement says (`Body.detour_viaLocal`). The least solution is the same for all
other locals. The new one escapes as far as what is put into the place, globally if a pointer is followed and
else as far as the local from which the place is found (`EscapeConstraint.Detour.mem_reached_iff`).
-/

set_option autoImplicit false

namespace Reclamation

/-! ## What is put into a place by way of a local -/

namespace EscapeConstraint

variable {p : Place} {ls : List LocalId} {l other : LocalId} {u : EscapeState}

theorem atLeast_mem_holds : atLeast l u ∈ ls.flatMap p.holds ↔ l ∈ ls ∧ p.isIndirect = true ∧ u = .global := by
  simp only [List.mem_flatMap, Place.holds, List.mem_cons, List.not_mem_nil, or_false, reduceCtorEq]
  constructor
  · rintro ⟨l', hl', h⟩
    split at h
    · next hindirect =>
      obtain ⟨rfl, rfl⟩ := EscapeConstraint.atLeast.inj h
      exact ⟨hl', hindirect, rfl⟩
    · cases h
  · rintro ⟨hl, hindirect, rfl⟩
    exact ⟨l, hl, by rw [if_pos hindirect]⟩

theorem follows_mem_holds :
    follows l other ∈ ls.flatMap p.holds ↔ l ∈ ls ∧ p.isIndirect = false ∧ other = p.base := by
  simp only [List.mem_flatMap, Place.holds, List.mem_cons, List.not_mem_nil, or_false, reduceCtorEq]
  constructor
  · rintro ⟨l', hl', h⟩
    split at h
    · cases h
    · next hdirect =>
      obtain ⟨rfl, rfl⟩ := EscapeConstraint.follows.inj h
      exact ⟨hl', by simpa using hdirect, rfl⟩
  · rintro ⟨hl, hdirect, rfl⟩
    exact ⟨l, hl, by rw [hdirect, if_neg Bool.false_ne_true]⟩

theorem crosses_notMem_holds : crosses l ∉ ls.flatMap p.holds := by
  simp only [List.mem_flatMap, Place.holds, List.mem_cons, List.not_mem_nil, or_false, reduceCtorEq,
    not_exists, not_and]
  intro l' _
  split <;> simp

theorem crossesWith_mem_holds : crossesWith l other ∈ ls.flatMap p.holds ↔ l ∈ ls ∧ other = p.base := by
  simp only [List.mem_flatMap, Place.holds, List.mem_cons, List.not_mem_nil, or_false]
  constructor
  · rintro ⟨l', hl', h | h⟩
    · split at h <;> cases h
    · obtain ⟨rfl, rfl⟩ := EscapeConstraint.crossesWith.inj h
      exact ⟨hl', rfl⟩
  · rintro ⟨hl, rfl⟩
    exact ⟨l, hl, .inr rfl⟩

/-- The second conditions say of a local what the first say of the contents of a place, and that the local is put
into the place. Otherwise they are the same, and do not mention the local. -/
structure Detour (p : Place) (ls : List LocalId) (t : LocalId) (cs cs' : List EscapeConstraint) : Prop where
  contents : ∀ c ∈ ls.flatMap p.holds, c ∈ cs
  filled : ∀ c ∈ ls.flatMap (Place.ofLocal t).holds, c ∈ cs'
  moved : ∀ c ∈ [t].flatMap p.holds, c ∈ cs'
  kept : ∀ c ∈ cs, c ∈ ls.flatMap p.holds ∨ c ∈ cs'
  added : ∀ c ∈ cs', c ∈ ls.flatMap (Place.ofLocal t).holds ∨ c ∈ [t].flatMap p.holds ∨ c ∈ cs ∧ t ∉ c.locals
  notMem : t ∉ ls
  ne_base : p.base ≠ t

namespace Detour

variable {t : LocalId} {cs cs' : List EscapeConstraint} {s : EscapeState}

theorem mem_reached_local (h : Detour p ls t cs cs') (hp : p.isIndirect = true ∨ p.base ∈ reached cs' s) :
    t ∈ reached cs' s := by
  cases hindirect : p.isIndirect with
  | true =>
    refine mem_reached_of_atLeast (t := .global) (h.moved _ (atLeast_mem_holds.2 ⟨by simp, hindirect, rfl⟩)) ?_
    cases s <;> decide
  | false =>
    have hbase := hp.resolve_left (by simp [hindirect])
    exact mem_reached_of_follows (h.moved _ (follows_mem_holds.2 ⟨by simp, hindirect, rfl⟩)) hbase

theorem mem_reached_contents (h : Detour p ls t cs cs') (hl : l ∈ ls) (ht : t ∈ reached cs' s) :
    l ∈ reached cs' s :=
  mem_reached_of_follows (h.filled _ (follows_mem_holds.2 ⟨hl, rfl, rfl⟩)) ht

/-- By way of the local no local escapes less far. -/
theorem mem_reached (h : Detour p ls t cs cs') (hl : l ∈ reached cs s) : l ∈ reached cs' s := by
  refine of_mem_reached (P := (· ∈ reached cs' s)) (fun l u hc hle => ?_) (fun l other hc hother => ?_) hl
  · rcases h.kept _ hc with hc | hc
    · obtain ⟨hl, hindirect, -⟩ := atLeast_mem_holds.1 hc
      exact h.mem_reached_contents hl (h.mem_reached_local (.inl hindirect))
    · exact mem_reached_of_atLeast hc hle
  · rcases h.kept _ hc with hc | hc
    · obtain ⟨hl, -, rfl⟩ := follows_mem_holds.1 hc
      exact h.mem_reached_contents hl (h.mem_reached_local (.inr hother))
    · exact mem_reached_of_follows hc hother

/-- By way of the local no other local escapes farther, and it escapes itself as what is put into the place. -/
theorem of_mem_reached (h : Detour p ls t cs cs') (hl : l ∈ reached cs' s) :
    (l = t → p.isIndirect = true ∨ p.base ∈ reached cs s) ∧ (l ≠ t → l ∈ reached cs s) := by
  refine EscapeConstraint.of_mem_reached
    (P := fun l => (l = t → p.isIndirect = true ∨ p.base ∈ reached cs s) ∧ (l ≠ t → l ∈ reached cs s))
    (fun l u hc hle => ?_) (fun l other hc hother => ?_) hl
  · rcases h.added _ hc with hc | hc | ⟨hc, hfresh⟩
    · exact absurd (atLeast_mem_holds.1 hc).2.1 (by simp [Place.isIndirect, Place.ofLocal])
    · obtain ⟨hmem, hindirect, -⟩ := atLeast_mem_holds.1 hc
      exact ⟨fun _ => .inl hindirect, fun hne => absurd (List.mem_singleton.1 hmem) hne⟩
    · exact ⟨fun heq => absurd (by simp [locals, heq]) hfresh, fun _ => mem_reached_of_atLeast hc hle⟩
  · rcases h.added _ hc with hc | hc | ⟨hc, hfresh⟩
    · -- what the local holds escapes as far as what is put into the place
      obtain ⟨hmem, -, rfl⟩ := follows_mem_holds.1 hc
      refine ⟨fun heq => absurd (heq ▸ hmem) h.notMem, fun _ => ?_⟩
      cases hindirect : p.isIndirect with
      | true =>
        refine mem_reached_of_atLeast (h.contents _ (atLeast_mem_holds.2 ⟨hmem, hindirect, rfl⟩)) ?_
        cases s <;> decide
      | false =>
        have hbase := (hother.1 rfl).resolve_left (by simp [hindirect])
        exact mem_reached_of_follows (h.contents _ (follows_mem_holds.2 ⟨hmem, hindirect, rfl⟩)) hbase
    · obtain ⟨hmem, -, rfl⟩ := follows_mem_holds.1 hc
      exact ⟨fun _ => .inr (hother.2 h.ne_base), fun hne => absurd (List.mem_singleton.1 hmem) hne⟩
    · simp only [locals, List.mem_cons, List.not_mem_nil, or_false, not_or] at hfresh
      exact ⟨fun heq => absurd heq.symm hfresh.1,
        fun _ => mem_reached_of_follows hc (hother.2 (Ne.symm hfresh.2))⟩

/-- The local escapes as far as what is put into the place. -/
theorem mem_reached_iff (h : Detour p ls t cs cs') :
    t ∈ reached cs' s ↔ p.isIndirect = true ∨ p.base ∈ reached cs s :=
  ⟨fun ht => (h.of_mem_reached ht).1 rfl, fun hp => h.mem_reached_local (hp.imp_right h.mem_reached)⟩

theorem mem_crossing_local (h : Detour p ls t cs cs') (hp : p.base ∈ crossing cs') : t ∈ crossing cs' :=
  mem_crossing_of_crossesWith (h.moved _ (crossesWith_mem_holds.2 ⟨by simp, rfl⟩)) hp

theorem mem_crossing (h : Detour p ls t cs cs') (hl : l ∈ crossing cs) : l ∈ crossing cs' := by
  refine of_mem_crossing (P := (· ∈ crossing cs')) (fun l hc => ?_) (fun l other hc hother => ?_) hl
  · exact mem_crossing_of_crosses ((h.kept _ hc).resolve_left crosses_notMem_holds)
  · rcases h.kept _ hc with hc | hc
    · obtain ⟨hl, rfl⟩ := crossesWith_mem_holds.1 hc
      exact mem_crossing_of_crossesWith (h.filled _ (crossesWith_mem_holds.2 ⟨hl, rfl⟩))
        (h.mem_crossing_local hother)
    · exact mem_crossing_of_crossesWith hc hother

theorem of_mem_crossing (h : Detour p ls t cs cs') (hl : l ∈ crossing cs') :
    (l = t → p.base ∈ crossing cs) ∧ (l ≠ t → l ∈ crossing cs) := by
  refine EscapeConstraint.of_mem_crossing (P := fun l => (l = t → p.base ∈ crossing cs) ∧ (l ≠ t → l ∈ crossing cs))
    (fun l hc => ?_) (fun l other hc hother => ?_) hl
  · rcases h.added _ hc with hc | hc | ⟨hc, hfresh⟩
    · exact absurd hc crosses_notMem_holds
    · exact absurd hc crosses_notMem_holds
    · exact ⟨fun heq => absurd (by simp [locals, heq]) hfresh, fun _ => mem_crossing_of_crosses hc⟩
  · rcases h.added _ hc with hc | hc | ⟨hc, hfresh⟩
    · obtain ⟨hmem, rfl⟩ := crossesWith_mem_holds.1 hc
      refine ⟨fun heq => absurd (heq ▸ hmem) h.notMem, fun _ => ?_⟩
      exact mem_crossing_of_crossesWith (h.contents _ (crossesWith_mem_holds.2 ⟨hmem, rfl⟩)) (hother.1 rfl)
    · obtain ⟨hmem, rfl⟩ := crossesWith_mem_holds.1 hc
      exact ⟨fun _ => hother.2 h.ne_base, fun hne => absurd (List.mem_singleton.1 hmem) hne⟩
    · simp only [locals, List.mem_cons, List.not_mem_nil, or_false, not_or] at hfresh
      exact ⟨fun heq => absurd heq.symm hfresh.1,
        fun _ => mem_crossing_of_crossesWith hc (hother.2 (Ne.symm hfresh.2))⟩

/-- The local crosses to another thread if that does from which the place is found. -/
theorem mem_crossing_iff (h : Detour p ls t cs cs') : t ∈ crossing cs' ↔ p.base ∈ crossing cs :=
  ⟨fun ht => (h.of_mem_crossing ht).1 rfl, fun hp => h.mem_crossing_local (h.mem_crossing hp)⟩

end Detour

end EscapeConstraint

/-! ## What the instructions of a body say -/

namespace Instruction

/-- The conditions on locals that an instruction sets. -/
def escapeConstraints (o : AnalysisOptions) : Instruction → List EscapeConstraint
  | .statement s => s.escapeConstraints
  | .terminator t => t.escapeConstraints o.unknownCallee

end Instruction

theorem Effects.touches_write {uses : List LocalId} {p : Place} {l : LocalId} :
    (Effects.write uses p).touches l = true ↔ l ∈ uses ∨ l = p.base := by
  rw [Effects.write, Place.local?]
  split
  · next hlocal =>
    split at hlocal
    · obtain rfl := Option.some.inj hlocal
      simp [touches]
    · exact absurd hlocal (by simp)
  · simp [touches]

namespace EscapeConstraint

variable {c : EscapeConstraint} {p : Place} {ls : List LocalId} {l : LocalId}

theorem locals_of_mem_holds (hc : c ∈ ls.flatMap p.holds) (hl : l ∈ c.locals) : l ∈ ls ∨ l = p.base := by
  cases c with
  | atLeast =>
    obtain rfl := List.mem_singleton.1 hl
    exact .inl (atLeast_mem_holds.1 hc).1
  | follows =>
    obtain ⟨hmem, -, rfl⟩ := follows_mem_holds.1 hc
    rcases List.mem_pair.1 hl with rfl | rfl
    · exact .inl hmem
    · exact .inr rfl
  | crosses => exact absurd hc crosses_notMem_holds
  | crossesWith =>
    obtain ⟨hmem, rfl⟩ := crossesWith_mem_holds.1 hc
    rcases List.mem_pair.1 hl with rfl | rfl
    · exact .inl hmem
    · exact .inr rfl

end EscapeConstraint

theorem Statement.touches_of_mem {s : Statement} {c : EscapeConstraint} {l : LocalId} (hc : c ∈ s.escapeConstraints)
    (hl : l ∈ c.locals) : s.effects.touches l = true := by
  have hhanded : ∀ {ops : List Operand}, c ∈ (operandBases ops).flatMap handedOver → l ∈ operandBases ops := by
    intro ops hc
    obtain ⟨l', hl', hc⟩ := List.mem_flatMap.1 hc
    simp only [handedOver, List.mem_cons, List.not_mem_nil, or_false] at hc
    rcases hc with rfl | rfl <;> exact List.mem_singleton.1 hl ▸ hl'
  cases s with
  | assign p value =>
    refine Effects.touches_write.2 ?_
    cases value with
    | use | alloc => exact EscapeConstraint.locals_of_mem_holds hc hl
    | ref q =>
      have hq : c ∈ [q.base].flatMap p.holds := by simpa [escapeConstraints] using hc
      exact EscapeConstraint.locals_of_mem_holds hq hl
    | closure captures =>
      obtain ⟨l', hl', hc⟩ := List.mem_flatMap.1 hc
      simp only [List.mem_cons, List.not_mem_nil, or_false] at hc
      rcases hc with rfl | rfl
      · exact .inl (List.mem_singleton.1 hl ▸ hl')
      · rcases List.mem_pair.1 hl with rfl | rfl
        · exact .inl hl'
        · exact .inr rfl
    | binary => exact absurd hc (by simp [escapeConstraints])
  | storeGlobal target value =>
    obtain ⟨l', hl', rfl⟩ := List.mem_map.1 hc
    obtain rfl := List.mem_singleton.1 hl
    simp [effects, Effects.touches, hl']
  | send channel value =>
    have hvalue : l ∈ operandBases [value] := hhanded hc
    have huses : l ∈ operandBases [channel, value] :=
      ((List.sublist_cons_self channel [value]).filterMap _).subset hvalue
    simp [effects, Effects.touches, huses]
  | spawn captures =>
    have huses : l ∈ operandBases captures := hhanded hc
    simp [effects, Effects.touches, huses]
  | storageLive | storageDead | nop => exact absurd hc (by simp [escapeConstraints])

theorem Terminator.touches_of_mem {t : Terminator} {unknown : EscapeState} {c : EscapeConstraint} {l : LocalId}
    (hc : c ∈ t.escapeConstraints unknown) (hl : l ∈ c.locals) : t.effects.touches l = true := by
  cases t with
  | call callee args dest target =>
    obtain ⟨⟨arg, i⟩, harg, hc⟩ := List.mem_filterMap.1 hc
    obtain ⟨l', hl', rfl⟩ := Option.map_eq_some_iff.1 hc
    obtain rfl := List.mem_singleton.1 hl
    have hmem := List.mem_of_getElem? (List.mem_zipIdx_iff_getElem?.1 harg)
    exact Effects.touches_write.2 (.inl (List.mem_filterMap.2 ⟨arg, hmem, hl'⟩))
  | goto | switch | ret | unreachable => exact absurd hc (by simp [escapeConstraints])

/-- An instruction only says something about locals that it reads or assigns. -/
theorem Instruction.touches_of_mem {i : Instruction} {o : AnalysisOptions} {c : EscapeConstraint} {l : LocalId}
    (hc : c ∈ i.escapeConstraints o) (hl : l ∈ c.locals) : i.effects.touches l = true := by
  cases i with
  | statement s => exact Statement.touches_of_mem hc hl
  | terminator t => exact Terminator.touches_of_mem hc hl

namespace Body

variable {b : Body} {i : Instruction}

/-- An instruction stands somewhere in a body. -/
def Has (b : Body) (i : Instruction) : Prop :=
  ∃ loc, b.instruction? loc = some i

theorem has_iff : b.Has i ↔ ∃ (id : BlockId) (data : Block), b.blocks[id]? = some data ∧ i ∈ data.instructions := by
  constructor
  · rintro ⟨loc, hi⟩
    obtain ⟨data, hdata, hindex⟩ := instruction?_eq_some.1 hi
    exact ⟨_, data, hdata, List.mem_of_getElem? hindex⟩
  · rintro ⟨id, data, hdata, hmem⟩
    obtain ⟨index, hindex⟩ := List.mem_iff_getElem?.1 hmem
    exact ⟨⟨id, index⟩, instruction?_eq_some.2 ⟨data, hdata, hindex⟩⟩

/-- The conditions of a body are those on what is returned and on the parameters, and those that its instructions
set. -/
theorem mem_escapeConstraints_iff {o : AnalysisOptions} {c : EscapeConstraint} : c ∈ b.escapeConstraints o ↔
    c ∈ .atLeast returnLocal .global :: b.params.map (.atLeast · .arg) ∨ ∃ i, b.Has i ∧ c ∈ i.escapeConstraints o := by
  rw [escapeConstraints, List.mem_append, List.mem_append, or_assoc]
  refine or_congr_right ?_
  simp only [List.mem_flatMap, Prod.exists, mem_statements, mem_terminators]
  constructor
  · rintro (⟨loc, s, hs, hc⟩ | ⟨loc, t, ht, hc⟩)
    · exact ⟨_, ⟨loc, hs⟩, hc⟩
    · exact ⟨_, ⟨loc, ht⟩, hc⟩
  · rintro ⟨i, ⟨loc, hi⟩, hc⟩
    cases i with
    | statement s => exact .inl ⟨loc, s, hi, hc⟩
    | terminator t => exact .inr ⟨loc, t, hi, hc⟩

end Body

/-! ## Bodies that go by way of a local -/

/-- Make the object for a local and move it from there to its place, in place of making it there. -/
def Statement.viaLocal (t : LocalId) : Statement → List Statement
  | .assign p (.alloc site type frozen contents) =>
    [.assign (.ofLocal t) (.alloc site type frozen contents), .assign p (.use (.move (.ofLocal t)))]
  | s => [s]

/-- A block in which one statement goes by way of a local. -/
def Block.viaLocal (data : Block) (index : Nat) (t : LocalId) : Block :=
  { data with
    statements := data.statements.take index ++ data.statements[index]?.toList.flatMap (Statement.viaLocal t) ++
      data.statements.drop (index + 1) }

/-- A body in which one statement goes by way of a local. It is declared, if it is not yet. -/
def Body.viaLocal (b : Body) (loc : Location) (t : LocalId) : Body :=
  { b with
    locals := b.locals ++ Array.replicate (t + 1 - b.locals.size) { kind := .temp }
    blocks := b.blocks.modify loc.block (·.viaLocal loc.index t) }

/-- A local that a body does not use. -/
structure Body.Fresh (b : Body) (t : LocalId) : Prop where
  ne_return : t ≠ returnLocal
  notMem_params : t ∉ b.params
  untouched : ∀ i, b.Has i → i.effects.touches t = false

section

variable {b : Body} {loc : Location} {t : LocalId} {p : Place} {site : SiteId} {type : TypeId} {frozen : Bool}
  {contents : List Operand} {i : Instruction}

theorem Block.viaLocal_split {data : Block} {index : Nat}
    (h : data.statements[index]? = some (.assign p (.alloc site type frozen contents))) :
    ∃ before after, before.length = index ∧
      data.statements = before ++ .assign p (.alloc site type frozen contents) :: after ∧
      (data.viaLocal index t).statements = before ++ .assign (.ofLocal t) (.alloc site type frozen contents) ::
        .assign p (.use (.move (.ofLocal t))) :: after := by
  obtain ⟨hlt, hget⟩ := List.getElem?_eq_some_iff.1 h
  refine ⟨data.statements.take index, data.statements.drop (index + 1), ?_, ?_, ?_⟩
  · rw [List.length_take, Nat.min_eq_left hlt.le]
  · rw [← hget, ← List.drop_eq_getElem_cons hlt, List.take_append_drop]
  · simp [viaLocal, h, Statement.viaLocal]

namespace Body

theorem getElem?_viaLocal (id : BlockId) : (b.viaLocal loc t).blocks[id]? =
    if loc.block = id then b.blocks[id]?.map (·.viaLocal loc.index t) else b.blocks[id]? :=
  Array.getElem?_modify ..

theorem Complete.viaLocal (h : b.Complete) : (b.viaLocal loc t).Complete where
  entry_lt := by simpa [Body.viaLocal] using h.entry_lt
  terminated id data hdata := by
    have hsize : (b.viaLocal loc t).blocks.size = b.blocks.size := Array.size_modify ..
    rw [getElem?_viaLocal] at hdata
    rw [hsize]
    split at hdata
    · obtain ⟨data', hdata', rfl⟩ := Option.map_eq_some_iff.1 hdata
      exact h.terminated id data' hdata'
    · exact h.terminated id data hdata

variable (hloc : b.instruction? loc = some (.statement (.assign p (.alloc site type frozen contents))))
include hloc

/-- Where the object is made it is made for the local. -/
theorem instruction?_viaLocal : (b.viaLocal loc t).instruction? loc =
    some (.statement (.assign (.ofLocal t) (.alloc site type frozen contents))) := by
  obtain ⟨data, hdata, hindex⟩ := instruction?_eq_statement.1 hloc
  obtain ⟨before, after, hlength, -, hvia⟩ := Block.viaLocal_split (t := t) hindex
  refine instruction?_eq_statement.2 ⟨data.viaLocal loc.index t, ?_, ?_⟩
  · rw [getElem?_viaLocal, if_pos rfl, hdata]
    rfl
  · rw [hvia, ← hlength]
    simp

/-- Going by way of the local replaces one statement. -/
theorem has_viaLocal : ((b.viaLocal loc t).Has i →
      i = .statement (.assign (.ofLocal t) (.alloc site type frozen contents)) ∨
        i = .statement (.assign p (.use (.move (.ofLocal t)))) ∨ b.Has i) ∧
    (b.viaLocal loc t).Has (.statement (.assign p (.use (.move (.ofLocal t))))) ∧
    (b.Has i → i = .statement (.assign p (.alloc site type frozen contents)) ∨ (b.viaLocal loc t).Has i) := by
  obtain ⟨data, hdata, hindex⟩ := instruction?_eq_statement.1 hloc
  obtain ⟨before, after, -, hstatements, hvia⟩ := Block.viaLocal_split (t := t) hindex
  have hterminator : (data.viaLocal loc.index t).terminator = data.terminator := rfl
  have hblock : (b.viaLocal loc t).blocks[loc.block]? = some (data.viaLocal loc.index t) := by
    rw [getElem?_viaLocal, if_pos rfl, hdata]
    rfl
  refine ⟨fun hi => ?_, has_iff.2 ⟨_, _, hblock, by simp [Block.instructions, hvia]⟩, fun hi => ?_⟩
  · obtain ⟨id, data', hdata', hmem⟩ := has_iff.1 hi
    by_cases hid : loc.block = id
    · subst hid
      obtain rfl := Option.some.inj (hblock.symm.trans hdata')
      simp only [Block.instructions, hvia, hterminator, List.map_append, List.map_cons, List.mem_append,
        List.mem_cons] at hmem
      have hhas : i ∈ data.instructions → b.Has i := fun hmem => has_iff.2 ⟨_, _, hdata, hmem⟩
      simp only [Block.instructions, hstatements, List.map_append, List.map_cons, List.mem_append,
        List.mem_cons] at hhas
      tauto
    · rw [getElem?_viaLocal, if_neg hid] at hdata'
      exact .inr (.inr (has_iff.2 ⟨id, data', hdata', hmem⟩))
  · obtain ⟨id, data', hdata', hmem⟩ := has_iff.1 hi
    by_cases hid : loc.block = id
    · subst hid
      obtain rfl := Option.some.inj (hdata.symm.trans hdata')
      have hhas : i ∈ (data.viaLocal loc.index t).instructions → (b.viaLocal loc t).Has i :=
        fun hmem => has_iff.2 ⟨_, _, hblock, hmem⟩
      simp only [Block.instructions, hvia, hterminator, List.map_append, List.map_cons, List.mem_append,
        List.mem_cons] at hhas
      simp only [Block.instructions, hstatements, List.map_append, List.map_cons, List.mem_append,
        List.mem_cons] at hmem
      tauto
    · refine .inr (has_iff.2 ⟨id, data', ?_, hmem⟩)
      rw [getElem?_viaLocal, if_neg hid]
      exact hdata'

/-- What escape analysis is told by way of a fresh local. -/
theorem detour_viaLocal (ht : b.Fresh t) (o : AnalysisOptions) :
    EscapeConstraint.Detour p (operandBases contents) t (b.escapeConstraints o)
      ((b.viaLocal loc t).escapeConstraints o) := by
  have huntouched := ht.untouched _ ⟨loc, hloc⟩
  have hbases : ¬ (t ∈ operandBases contents ∨ t = p.base) := fun h =>
    absurd (Effects.touches_write.2 h) (by simpa [Instruction.effects, Statement.effects, Rvalue.uses] using huntouched)
  rw [not_or] at hbases
  have hhas : ∀ i, _ := fun i => has_viaLocal (t := t) (i := i) hloc
  refine ⟨fun c hc => ?_, fun c hc => ?_, fun c hc => ?_, fun c hc => ?_, fun c hc => ?_, hbases.1, Ne.symm hbases.2⟩
  · exact mem_escapeConstraints_iff.2 (.inr ⟨_, ⟨loc, hloc⟩, hc⟩)
  · exact mem_escapeConstraints_iff.2 (.inr ⟨_, ⟨loc, instruction?_viaLocal hloc⟩, hc⟩)
  · exact mem_escapeConstraints_iff.2 (.inr ⟨_, (hhas (.terminator .ret)).2.1, hc⟩)
  · rcases mem_escapeConstraints_iff.1 hc with hc | ⟨i, hi, hc⟩
    · exact .inr (mem_escapeConstraints_iff.2 (.inl hc))
    · rcases (hhas i).2.2 hi with rfl | hi
      · exact .inl hc
      · exact .inr (mem_escapeConstraints_iff.2 (.inr ⟨i, hi, hc⟩))
  · rcases mem_escapeConstraints_iff.1 hc with hc | ⟨i, hi, hc⟩
    · refine .inr (.inr ⟨mem_escapeConstraints_iff.2 (.inl hc), ?_⟩)
      rcases List.mem_cons.1 hc with rfl | hc
      · simpa [EscapeConstraint.locals] using ht.ne_return
      · obtain ⟨l, hl, rfl⟩ := List.mem_map.1 hc
        rintro hmem
        exact ht.notMem_params (List.mem_singleton.1 hmem ▸ hl)
    · rcases (hhas i).1 hi with rfl | rfl | hi
      · exact .inl hc
      · exact .inr (.inl hc)
      · refine .inr (.inr ⟨mem_escapeConstraints_iff.2 (.inr ⟨i, hi, hc⟩), fun hmem => ?_⟩)
        exact absurd (Instruction.touches_of_mem hc hmem) (by simp [ht.untouched i hi])

end Body

end

end Reclamation
