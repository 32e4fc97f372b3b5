import Mathlib
import Reclamation.Proofs.Analysis.Escape
import Reclamation.Proofs.Plan.Balance

/-!
# What escapes, and what the analysis sees of it

Escape analysis goes by locals: what is put into a local, or into a part of what it refers to, escapes as far
as the local does. It does not see that two locals refer to one object. So an object that is stored through
one of them may be returned by way of the other and still be held to stay in the body
(`escape_misses_alias`).

The analysis is right about bodies in which fields are assigned through locals that escape globally
themselves, or through locals whose objects are known to be other ones (`StoresApart`): then an object that
the caller can reach has an owner that escapes globally (`escape_covers_returned`). The invariant is that
what can be reached from a local that escapes was made for such a local (`Shielded`).
-/

set_option autoImplicit false

namespace Reclamation

/-! ## Assignments that the analysis sees -/

/-- The value is a new object, or what a local of a set refers to, or no object. -/
def Rvalue.StaysIn (own : LocalId → Prop) : Rvalue → Prop
  | .use op => ∀ p, op.place? = some p → ∃ l, p.local? = some l ∧ own l
  | .ref p => ∃ l, p.local? = some l ∧ own l
  | .alloc _ _ _ _ | .binary _ _ _ => True
  | .closure _ => False

namespace Body

/-- A field is assigned behind a pointer, through a local that escapes globally, or through a local of a set.
Those of the set do not escape globally and get their values from one another or from allocations. -/
structure StoresApart (b : Body) (global : List LocalId) (own : LocalId → Prop) : Prop where
  not_global : ∀ l, own l → l ∉ global
  not_param : ∀ l, own l → b.paramCount < l
  assigned : ∀ loc p value l, b.instruction? loc = some (.statement (.assign p value)) →
    p.local? = some l → own l → value.StaysIn own
  stored : ∀ loc p value, b.instruction? loc = some (.statement (.assign p value)) → p.local? = none →
    p.isIndirect = true ∨ p.base ∈ global ∨ own p.base ∧ p.projection.length = 1

theorem mem_escapeConstraints {b : Body} {o : AnalysisOptions} {loc : Location} {s : Statement}
    (hs : b.instruction? loc = some (.statement s)) {c : EscapeConstraint} (hc : c ∈ s.escapeConstraints) :
    c ∈ b.escapeConstraints o := by
  rw [escapeConstraints, List.mem_append, List.mem_append]
  exact .inl (.inr (List.mem_flatMap.2 ⟨(loc, s), mem_statements.2 hs, hc⟩))

theorem returnLocal_mem_global (b : Body) (o : AnalysisOptions) : returnLocal ∈ (b.escape o).global := by
  refine EscapeConstraint.mem_reached_of_atLeast (t := .global) ?_ (Nat.le_refl _)
  simp [escapeConstraints]

/-- What is put where everything escapes escapes too. -/
theorem mem_global_of_assign {b : Body} {o : AnalysisOptions} {loc : Location} {p : Place} {value : Rvalue}
    (hs : b.instruction? loc = some (.statement (.assign p value))) {l : LocalId} (hl : l ∈ value.sources)
    (hp : p.isIndirect = true ∨ p.base ∈ (b.escape o).global) : l ∈ (b.escape o).global := by
  let c : EscapeConstraint := if p.isIndirect then .atLeast l .global else .follows l p.base
  have hc : c ∈ p.holds l := List.mem_cons_self
  have hholds : c ∈ (Statement.assign p value).escapeConstraints → l ∈ (b.escape o).global := by
    intro hmem
    replace hmem := mem_escapeConstraints (o := o) hs hmem
    simp only [c] at hmem
    split at hmem
    · exact EscapeConstraint.mem_reached_of_atLeast hmem (Nat.le_refl _)
    · next hdirect => exact EscapeConstraint.mem_reached_of_follows hmem (hp.resolve_left hdirect)
  cases value with
  | use op => exact hholds (List.mem_flatMap.2 ⟨l, hl, hc⟩)
  | alloc site type frozen contents => exact hholds (List.mem_flatMap.2 ⟨l, hl, hc⟩)
  | closure captures =>
    refine EscapeConstraint.mem_reached_of_atLeast (t := .global) (mem_escapeConstraints hs ?_) (Nat.le_refl _)
    exact List.mem_flatMap.2 ⟨l, hl, List.mem_cons_self⟩
  | ref q =>
    rw [Rvalue.sources, List.mem_singleton] at hl
    subst hl
    exact hholds hc
  | binary => simp [Rvalue.sources] at hl

theorem mem_global_of_capture {b : Body} {o : AnalysisOptions} {loc : Location} {p : Place}
    {captures : List Operand} (hs : b.instruction? loc = some (.statement (.assign p (.closure captures))))
    {l : LocalId} (hl : l ∈ operandBases captures) : l ∈ (b.escape o).global := by
  refine EscapeConstraint.mem_reached_of_atLeast (t := .global) (mem_escapeConstraints hs ?_) (Nat.le_refl _)
  exact List.mem_flatMap.2 ⟨l, hl, List.mem_cons_self⟩

end Body

/-! ## The invariant -/

/-- A store as a body finds it: only the parameters refer to objects. -/
structure Store.Entered (σ : Store) (b : Body) : Prop extends Store.Initial σ where
  locals_none : ∀ l, b.paramCount < l → σ.locals l = none

/-- An object may be reached by the caller: if the body has made it, then for a local that escapes globally
or behind a pointer. -/
def Store.Exposed (σ : Store) (b : Body) (global : List LocalId) (x : Nat) : Prop :=
  ∀ d p site type frozen contents, σ.origin x = some d →
    b.instruction? d = some (.statement (.assign p (.alloc site type frozen contents))) →
    p.isIndirect = true ∨ p.base ∈ global

/-- What can be reached from a local that escapes globally is exposed, and what the locals of the set refer
to is not. -/
structure Store.Shielded (σ : Store) (b : Body) (global : List LocalId) (own : LocalId → Prop) : Prop where
  sound : σ.Sound
  local_exposed : ∀ l ∈ global, ∀ x, σ.locals l = some x → σ.Exposed b global x
  field_exposed : ∀ x < σ.size, σ.Exposed b global x → ∀ i y, σ.fields x i = some y → σ.Exposed b global y
  own_hidden : ∀ l, own l → ∀ x, σ.locals l = some x → ¬ σ.Exposed b global x

namespace Store

variable {σ τ : Store} {b : Body} {global : List LocalId} {own : LocalId → Prop}

theorem exposed_congr {x : Nat} (h : τ.origin x = σ.origin x) :
    τ.Exposed b global x ↔ σ.Exposed b global x := by
  simp only [Exposed, h]

namespace Shielded

theorem read (h : σ.Shielded b global own) {p : Place} (hp : p.base ∈ global) {x : Nat}
    (hx : σ.read p = some x) : σ.Exposed b global x := by
  have hfold : ∀ (steps : List Projection) (v : Option Nat),
      (∀ y, v = some y → y < σ.size ∧ σ.Exposed b global y) →
        ∀ y, steps.foldl σ.follow v = some y → y < σ.size ∧ σ.Exposed b global y := by
    intro steps
    induction steps with
    | nil => exact fun v hv => hv
    | cons step steps ih =>
      intro v hv
      refine ih _ fun y hy => ?_
      cases step with
      | field i =>
        obtain ⟨z, hz, hy⟩ := Option.bind_eq_some_iff.1 hy
        obtain ⟨hlt, hexposed⟩ := hv z hz
        exact ⟨h.sound.fields_lt z i y hy, h.field_exposed z hlt hexposed i y hy⟩
      | deref => exact hv y hy
  exact (hfold _ _ (fun y hy => ⟨h.sound.locals_lt _ y hy, h.local_exposed _ hp y hy⟩) x hx).2

theorem operand (h : σ.Shielded b global own) {ops : List Operand}
    (hops : ∀ l ∈ operandBases ops, l ∈ global) {op : Operand} (hop : op ∈ ops) {x : Nat}
    (hx : σ.operand op = some x) : σ.Exposed b global x := by
  obtain ⟨p, hp, hx⟩ := Option.bind_eq_some_iff.1 hx
  refine h.read (hops p.base (List.mem_filterMap.2 ⟨op, hop, ?_⟩)) hx
  rw [Operand.base?, hp]
  rfl

/-- Making an object whose contents are exposed if it is. -/
theorem make (h : σ.Shielded b global own) {origin : Option Location} {contents : List (Option Nat)}
    (hsound : (σ.make origin contents).Sound)
    (hcontents : (σ.make origin contents).Exposed b global σ.size →
      ∀ y, some y ∈ contents → σ.Exposed b global y)
    (hlt : ∀ y, some y ∈ contents → y < σ.size) : (σ.make origin contents).Shielded b global own := by
  have hold : ∀ {x}, x < σ.size → ((σ.make origin contents).Exposed b global x ↔ σ.Exposed b global x) :=
    fun hx => exposed_congr (Function.update_of_ne (Nat.ne_of_lt hx) ..)
  refine ⟨hsound, fun l hl x hx => ?_, fun x hx hexposed i y hy => ?_, fun l hl x hx => ?_⟩
  · exact (hold (h.sound.locals_lt l x hx)).2 (h.local_exposed l hl x hx)
  · simp only [Store.make, Function.update_apply] at hy
    split at hy
    · next hnew =>
      have hmem := List.mem_of_getElem? (Option.join_eq_some_iff.1 hy)
      exact (hold (hlt y hmem)).2 (hcontents (hnew ▸ hexposed) y hmem)
    · next hne =>
      have hxlt : x < σ.size := Nat.lt_of_le_of_ne (Nat.le_of_lt_succ hx) hne
      exact (hold (h.sound.fields_lt x i y hy)).2 (h.field_exposed x hxlt ((hold hxlt).1 hexposed) i y hy)
  · exact fun hexposed => h.own_hidden l hl x hx ((hold (h.sound.locals_lt l x hx)).1 hexposed)

/-- Putting a value into a place. Through a local of the set only what is not exposed gets a value that may
not be either. -/
theorem write (h : σ.Shielded b global own) {p : Place} {v : Option Nat} (hlt : ∀ x, v = some x → x < σ.size)
    (hglobal : p.isIndirect = true ∨ p.base ∈ global → ∀ x, v = some x → σ.Exposed b global x)
    (hown : ∀ l, p.local? = some l → own l → ∀ x, v = some x → ¬ σ.Exposed b global x)
    (hpart : p.local? = none →
      (∀ x, v = some x → σ.Exposed b global x) ∨ own p.base ∧ p.projection.length = 1) :
    (σ.write p v).Shielded b global own := by
  have hold : ∀ {x}, (σ.write p v).Exposed b global x ↔ σ.Exposed b global x :=
    exposed_congr (congrFun (origin_write ..) _)
  refine ⟨h.sound.write hlt, fun l hl x hx => ?_, fun x hx hexposed i y hy => ?_, fun l hl x hx => ?_⟩
  · rw [hold]
    cases hp : p.local? with
    | none => exact h.local_exposed l hl x ((congrFun (locals_write_of_part hp v) l).symm.trans hx)
    | some l' =>
      rw [write_of_local? hp] at hx
      simp only [setLocal, Function.update_apply] at hx
      split at hx
      · next he =>
        refine hglobal (.inr ?_) x hx
        rw [Place.eq_ofLocal hp]
        exact he ▸ hl
      · exact h.local_exposed l hl x hx
  · rw [size_write] at hx
    rw [hold] at hexposed ⊢
    have hkeep : σ.fields x i = some y → σ.Exposed b global y := h.field_exposed x hx hexposed i y
    rw [Store.write] at hy
    split at hy
    · exact hkeep hy
    · next j hlast =>
      split at hy
      · next z hz =>
        simp only [setField, Function.update_apply] at hy
        split at hy
        · next hxz =>
          rw [Function.update_apply] at hy
          split at hy
          · have hnotLocal : p.local? = none := by
              rw [Place.local?, if_neg]
              intro hempty
              rw [List.isEmpty_iff.1 hempty] at hlast
              exact absurd hlast (by simp)
            rcases hpart hnotLocal with hv | ⟨hbase, hlen⟩
            · exact hv y hy
            · -- the object is the one to which the local itself refers
              have hdrop : p.projection.dropLast = [] :=
                List.eq_nil_of_length_eq_zero (by simp [hlen])
              rw [hdrop] at hz
              exact absurd (hxz ▸ hexposed) (h.own_hidden p.base hbase z hz)
          · exact hkeep (hxz ▸ hy)
        · exact hkeep hy
      · exact hkeep hy
    · exact hkeep hy
  · rw [hold]
    cases hp : p.local? with
    | none => exact h.own_hidden l hl x ((congrFun (locals_write_of_part hp v) l).symm.trans hx)
    | some l' =>
      rw [write_of_local? hp] at hx
      simp only [setLocal, Function.update_apply] at hx
      split at hx
      · next he => exact hown l' hp (he ▸ hl) x hx
      · exact h.own_hidden l hl x hx

theorem read_of_local? {p : Place} {l : LocalId} (h : p.local? = some l) : σ.read p = σ.locals l := by
  rw [Place.eq_ofLocal h]
  rfl

/-- Evaluating the right side of an assignment: the value is exposed if the place is, and it is not if a
local of the set is to hold it. -/
theorem eval {o : AnalysisOptions} (hstores : b.StoresApart (b.escape o).global own)
    (h : σ.Shielded b (b.escape o).global own) {loc : Location} {p : Place} {value : Rvalue}
    (hs : b.instruction? loc = some (.statement (.assign p value))) :
    (σ.eval loc value).1.Shielded b (b.escape o).global own ∧
      (p.isIndirect = true ∨ p.base ∈ (b.escape o).global →
        ∀ x, (σ.eval loc value).2 = some x → (σ.eval loc value).1.Exposed b (b.escape o).global x) ∧
      ∀ l, p.local? = some l → own l →
        ∀ x, (σ.eval loc value).2 = some x → ¬ (σ.eval loc value).1.Exposed b (b.escape o).global x := by
  have hsources : p.isIndirect = true ∨ p.base ∈ (b.escape o).global →
      ∀ l ∈ value.sources, l ∈ (b.escape o).global := fun hp l hl => Body.mem_global_of_assign hs hl hp
  have hstays : ∀ l, p.local? = some l → own l → value.StaysIn own := fun l hl hown =>
    hstores.assigned loc p value l hs hl hown
  have hsound := h.sound.eval loc value
  cases value with
  | use op =>
    refine ⟨h, fun hp x hx => h.operand (hsources hp) List.mem_cons_self hx, fun l hl hown x hx => ?_⟩
    obtain ⟨q, hq, hread⟩ := Option.bind_eq_some_iff.1 hx
    obtain ⟨l', hl', hown'⟩ := hstays l hl hown q hq
    rw [read_of_local? hl'] at hread
    exact h.own_hidden l' hown' x hread
  | alloc site type frozen contents =>
    have horigin : (σ.make (some loc) (contents.map σ.operand)).origin σ.size = some loc :=
      Function.update_self ..
    have hnew : (σ.make (some loc) (contents.map σ.operand)).Exposed b (b.escape o).global σ.size ↔
        p.isIndirect = true ∨ p.base ∈ (b.escape o).global := by
      constructor
      · exact fun hexposed => hexposed loc p site type frozen contents horigin hs
      · intro hp d p' site' type' frozen' contents' hd hi
        rw [horigin] at hd
        obtain rfl := Option.some.inj hd
        have hsame := hs.symm.trans hi
        simp only [Option.some.injEq, Instruction.statement.injEq, Statement.assign.injEq] at hsame
        exact hsame.1 ▸ hp
    refine ⟨h.make hsound.1 (fun hexposed y hy => ?_) fun y hy => ?_, fun hp x hx => ?_, fun l hl hown x hx => ?_⟩
    · obtain ⟨op, hop, hy⟩ := List.mem_map.1 hy
      exact h.operand (hsources (hnew.1 hexposed)) hop hy
    · obtain ⟨op, -, hy⟩ := List.mem_map.1 hy
      exact operand_lt h.sound hy
    · obtain rfl := Option.some.inj hx
      exact hnew.2 hp
    · obtain rfl := Option.some.inj hx
      rw [Place.eq_ofLocal hl] at hnew
      rw [show (σ.eval loc (.alloc site type frozen contents)).1 =
        σ.make (some loc) (contents.map σ.operand) from rfl, hnew]
      rintro (hindirect | hbase)
      · exact absurd hindirect (by simp [Place.isIndirect, Place.ofLocal])
      · exact hstores.not_global l hown hbase
  | closure captures =>
    have hnew : (σ.make none (captures.map σ.operand)).Exposed b (b.escape o).global σ.size := by
      intro d _ _ _ _ _ hd
      rw [show (σ.make none (captures.map σ.operand)).origin σ.size = none from Function.update_self ..] at hd
      exact absurd hd (by simp)
    refine ⟨h.make hsound.1 (fun _ y hy => ?_) fun y hy => ?_, fun _ x hx => ?_, fun l hl hown => ?_⟩
    · obtain ⟨op, hop, hy⟩ := List.mem_map.1 hy
      exact h.operand (fun l hl => Body.mem_global_of_capture hs hl) hop hy
    · obtain ⟨op, -, hy⟩ := List.mem_map.1 hy
      exact operand_lt h.sound hy
    · obtain rfl := Option.some.inj hx
      exact hnew
    · exact absurd (hstays l hl hown) not_false
  | ref q =>
    refine ⟨h, fun hp x hx => h.read (hsources hp q.base List.mem_cons_self) hx, fun l hl hown x hx => ?_⟩
    obtain ⟨l', hl', hown'⟩ := hstays l hl hown
    exact h.own_hidden l' hown' x ((read_of_local? hl').symm.trans hx)
  | binary => exact ⟨h, fun _ x hx => absurd hx (by simp [Store.eval]), fun _ _ _ x hx => absurd hx (by simp [Store.eval])⟩

theorem exec {o : AnalysisOptions} (hstores : b.StoresApart (b.escape o).global own)
    (h : σ.Shielded b (b.escape o).global own) {loc : Location} {i : Instruction}
    (hi : b.instruction? loc = some i) : (σ.exec loc i).Shielded b (b.escape o).global own := by
  cases i with
  | statement s =>
    cases s with
    | assign p value =>
      obtain ⟨heval, hglobal, hown⟩ := h.eval hstores hi
      refine heval.write (h.sound.eval loc value).2 hglobal hown fun hp => ?_
      rcases hstores.stored loc p value hi hp with hindirect | hbase | hbase
      · exact .inl (hglobal (.inl hindirect))
      · exact .inl (hglobal (.inr hbase))
      · exact .inr hbase
    | _ => exact h
  | terminator t =>
    cases t with
    | call callee args dest target =>
      exact h.write (by simp) (fun _ x hx => absurd hx (by simp)) (fun _ _ _ x hx => absurd hx (by simp))
        fun _ => .inl fun x hx => absurd hx (by simp)
    | _ => exact h

theorem after {o : AnalysisOptions} (hstores : b.StoresApart (b.escape o).global own)
    (h : σ.Shielded b (b.escape o).global own) {steps : List Body.Step} {loc : Location}
    (hpath : b.Path steps loc) : (σ.after steps).Shielded b (b.escape o).global own := by
  induction hpath with
  | entry => exact h
  | next _ hs ih =>
    rw [after_exec]
    exact ih.exec hstores hs
  | jump _ ht _ ih =>
    rw [after_jump]
    exact ih.exec hstores ht

theorem start {o : AnalysisOptions} (hstores : b.StoresApart (b.escape o).global own) (hσ : σ.Entered b) :
    σ.Shielded b (b.escape o).global own where
  sound := hσ.toSound
  local_exposed _ _ x _ := fun d _ _ _ _ _ hd _ => absurd (hσ.origin_none x ▸ hd) (by simp)
  field_exposed _ _ _ _ y _ := fun d _ _ _ _ _ hd _ => absurd (hσ.origin_none y ▸ hd) (by simp)
  own_hidden l hl x hx := by
    rw [hσ.locals_none l (hstores.not_param l hl)] at hx
    exact absurd hx (by simp)

/-- From an exposed object only exposed ones are reached. -/
theorem reaches (h : σ.Shielded b global own) {x y : Nat} (hx : x < σ.size) (hexposed : σ.Exposed b global x)
    (hreach : σ.Reaches x y) : σ.Exposed b global y := by
  have hboth : y < σ.size ∧ σ.Exposed b global y := by
    induction hreach with
    | refl => exact ⟨hx, hexposed⟩
    | tail _ hstep ih =>
      obtain ⟨i, hi⟩ := hstep
      exact ⟨h.sound.fields_lt _ i _ hi, h.field_exposed _ ih.1 ih.2 i _ hi⟩
  exact hboth.2

end Shielded

end Store

/-! ## What the caller can reach -/

/-- In a body whose assignments to fields the analysis sees, an object that was made for a local, and that the
caller can reach by what the body returns, is planned as one that escapes globally. -/
theorem TypeGraph.escape_covers_returned {g : TypeGraph} {b : Body} {o : AnalysisOptions} {p : Plan}
    (hp : g.plan b o = .ok p) {own : LocalId → Prop} (hstores : b.StoresApart (b.escape o).global own)
    {σ : Store} (hσ : σ.Entered b) {steps : List Body.Step} (hreturn : b.Returns steps)
    {s : AllocationSite} (hs : s ∈ p.sites) {root : LocalId} (hroot : s.place.local? = some root) {r x : Nat}
    (hr : (σ.after steps).locals returnLocal = some r) (hreach : (σ.after steps).Reaches r x)
    (hx : (σ.after steps).origin x = some s.loc) : s.escape = .global := by
  obtain ⟨a, ha, hplan⟩ := (TypeGraph.plan_eq_ok hp).site s hs
  obtain ⟨contents, halloc⟩ := Body.mem_allocations.1 ha
  obtain ⟨before, loc, hpath, hret, rfl⟩ := hreturn
  have hshielded : (σ.after (before ++ [.exec loc (.terminator .ret)])).Shielded b (b.escape o).global own := by
    rw [Store.after_exec]
    exact ((Store.Shielded.start hstores hσ).after hstores hpath).exec hstores hret
  have hexposed := hshielded.reaches (hshielded.sound.locals_lt _ r hr)
    (hshielded.local_exposed _ (b.returnLocal_mem_global o) r hr) hreach
  rw [hplan.place] at hroot
  rw [hplan.loc] at hx
  have hglobal := hexposed _ _ _ _ _ _ hx halloc
  rw [Place.eq_ofLocal hroot] at hglobal
  have hmem : root ∈ (b.escape o).global :=
    hglobal.resolve_left (by simp [Place.isIndirect, Place.ofLocal])
  have howner : root ∈ s.owners := by
    rw [hplan.owners]
    exact Ownership.mem_ownersOf.2 ⟨root, hroot, .refl⟩
  rw [hplan.escape]
  exact (BodyFacts.escapeOf_eq_global_iff (List.ne_nil_of_mem howner)).2 ⟨root, howner, hmem⟩

/-- A type without fields, and one with a reference to it. -/
def boxes : TypeGraph where
  nodes := #[{ name := "A" }, { name := "B", fields := #[.declare "a" (.type 0) none] }]

/-- A box is returned, and what is in it has also been put into another box that stays in the body. -/
def twoBoxes : Body where
  name := "twoBoxes"
  locals := Array.replicate 4 { kind := .temp }
  paramCount := 0
  blocks := #[{
    statements := [.assign (.ofLocal 1) (.alloc 0 1 false []), .assign (.ofLocal 2) (.alloc 1 0 false []),
      .assign (.ofLocal 3) (.alloc 2 1 false []), .assign ⟨3, [.field 0]⟩ (.use (.copy (.ofLocal 2))),
      .assign ⟨1, [.field 0]⟩ (.use (.copy (.ofLocal 2))), .assign (.ofLocal 0) (.use (.copy (.ofLocal 1)))]
    terminator := some .ret }]

theorem twoBoxes_statements : twoBoxes.statements =
    [(⟨0, 0⟩, .assign (.ofLocal 1) (.alloc 0 1 false [])), (⟨0, 1⟩, .assign (.ofLocal 2) (.alloc 1 0 false [])),
      (⟨0, 2⟩, .assign (.ofLocal 3) (.alloc 2 1 false [])),
      (⟨0, 3⟩, .assign ⟨3, [.field 0]⟩ (.use (.copy (.ofLocal 2)))),
      (⟨0, 4⟩, .assign ⟨1, [.field 0]⟩ (.use (.copy (.ofLocal 2)))),
      (⟨0, 5⟩, .assign (.ofLocal 0) (.use (.copy (.ofLocal 1))))] := rfl

theorem twoBoxes_constraints : twoBoxes.escapeConstraints {} = [.atLeast 0 .global, .follows 2 3,
    .crossesWith 2 3, .follows 2 1, .crossesWith 2 1, .follows 1 0, .crossesWith 1 0] := rfl

theorem twoBoxes_storesApart : twoBoxes.StoresApart (twoBoxes.escape {}).global (· = 3) where
  not_global l hl hglobal := by
    have hne : l ≠ 3 := by
      refine EscapeConstraint.of_mem_reached (P := (· ≠ 3)) (fun l t hmem _ => ?_) (fun l l' hmem _ => ?_) hglobal
      · rw [twoBoxes_constraints] at hmem
        simp at hmem
        exact hmem.1 ▸ by decide
      · rw [twoBoxes_constraints] at hmem
        simp at hmem
        rcases hmem with ⟨rfl, -⟩ | ⟨rfl, -⟩ | ⟨rfl, -⟩ <;> decide
    exact hne hl
  not_param l hl := hl ▸ by decide
  assigned loc p value l hi hp hl := by
    have hmem := Body.mem_statements.2 hi
    simp [twoBoxes_statements] at hmem
    rcases hmem with ⟨-, rfl, rfl⟩ | ⟨-, rfl, rfl⟩ | ⟨-, rfl, rfl⟩ | ⟨-, rfl, rfl⟩ | ⟨-, rfl, rfl⟩ | ⟨-, rfl, rfl⟩
    · trivial
    · trivial
    · trivial
    · exact absurd hp (by simp [Place.local?])
    · exact absurd hp (by simp [Place.local?])
    · obtain rfl := Option.some.inj hp
      exact absurd hl (by decide)
  stored loc p value hi hp := by
    have hmem := Body.mem_statements.2 hi
    simp [twoBoxes_statements] at hmem
    rcases hmem with ⟨-, rfl, rfl⟩ | ⟨-, rfl, rfl⟩ | ⟨-, rfl, rfl⟩ | ⟨-, rfl, rfl⟩ | ⟨-, rfl, rfl⟩ | ⟨-, rfl, rfl⟩
    · exact absurd hp (by simp)
    · exact absurd hp (by simp)
    · exact absurd hp (by simp)
    · exact .inr (.inr ⟨rfl, rfl⟩)
    · refine .inr (.inl ?_)
      have hreturn : 0 ∈ (twoBoxes.escape {}).global := twoBoxes.returnLocal_mem_global {}
      exact EscapeConstraint.mem_reached_of_follows (by rw [twoBoxes_constraints]; simp) hreturn
    · exact absurd hp (by simp)

theorem Store.entered_bare (b : Body) : Store.bare.Entered b where
  toInitial := initial_bare
  locals_none _ _ := rfl

/-- The steps of a body of one block without jumps, up to its return. -/
def Body.straightSteps (b : Body) : List Body.Step :=
  b.statements.map (fun x => .exec x.1 (.statement x.2)) ++
    b.terminators.map fun x => .exec x.1 (.terminator x.2)

theorem twoBoxes_returns : twoBoxes.Returns twoBoxes.straightSteps := by
  refine ⟨_, ⟨0, 6⟩, ?_, rfl, rfl⟩
  exact ((((((Body.Path.entry.next rfl).next rfl).next rfl).next rfl).next rfl).next rfl)

/-- What is in the returned box escapes globally. -/
theorem TypeGraph.escape_covers_returned_twoBoxes : ∃ p s, boxes.plan twoBoxes {} = .ok p ∧ s ∈ p.sites ∧
    s.loc = ⟨0, 1⟩ ∧ twoBoxes.StoresApart (twoBoxes.escape {}).global (· = 3) ∧ Store.bare.Entered twoBoxes ∧
    twoBoxes.Returns twoBoxes.straightSteps ∧ s.place.local? = some 2 ∧
    (Store.bare.after twoBoxes.straightSteps).locals returnLocal = some 0 ∧
    (Store.bare.after twoBoxes.straightSteps).Reaches 0 1 ∧
    (Store.bare.after twoBoxes.straightSteps).origin 1 = some s.loc ∧ s.escape = .global := by
  obtain ⟨p, hp⟩ := TypeGraph.exists_plan (g := boxes) (b := twoBoxes) {} (by decide) (by decide)
  have ha : ⟨⟨0, 1⟩, .ofLocal 2, 1, 0, false⟩ ∈ twoBoxes.allocations := by decide
  obtain ⟨s, hs, hplan⟩ := (TypeGraph.plan_eq_ok hp).planned _ ha
  have hroot : s.place.local? = some 2 := congrArg Place.local? hplan.place
  have hreach : (Store.bare.after twoBoxes.straightSteps).Reaches 0 1 := .single ⟨0, rfl⟩
  have horigin : (Store.bare.after twoBoxes.straightSteps).origin 1 = some s.loc := by
    rw [hplan.loc]
    rfl
  exact ⟨p, s, hp, hs, hplan.loc, twoBoxes_storesApart, Store.entered_bare _, twoBoxes_returns, hroot, rfl,
    hreach, horigin, TypeGraph.escape_covers_returned hp twoBoxes_storesApart (Store.entered_bare _)
      twoBoxes_returns hs hroot rfl hreach horigin⟩

/-- A box is returned, and something is put into it by way of a copy that is not. -/
def aliasedBox : Body where
  name := "aliasedBox"
  locals := Array.replicate 4 { kind := .temp }
  paramCount := 0
  blocks := #[{
    statements := [.assign (.ofLocal 1) (.alloc 0 1 false []), .assign (.ofLocal 2) (.alloc 1 0 false []),
      .assign (.ofLocal 3) (.use (.copy (.ofLocal 1))), .assign ⟨3, [.field 0]⟩ (.use (.copy (.ofLocal 2))),
      .assign (.ofLocal 0) (.use (.copy (.ofLocal 1)))]
    terminator := some .ret }]

/-- What is in the returned box can be reached by the caller, and the analysis holds that it stays. -/
theorem TypeGraph.escape_misses_alias : ∃ p s, boxes.plan aliasedBox {} = .ok p ∧ s ∈ p.sites ∧
    s.place.local? = some 2 ∧ Store.bare.Entered aliasedBox ∧ aliasedBox.Returns aliasedBox.straightSteps ∧
    (Store.bare.after aliasedBox.straightSteps).locals returnLocal = some 0 ∧
    (Store.bare.after aliasedBox.straightSteps).Reaches 0 1 ∧
    (Store.bare.after aliasedBox.straightSteps).origin 1 = some s.loc ∧ s.escape ≠ .global := by
  obtain ⟨p, hp⟩ := TypeGraph.exists_plan (g := boxes) (b := aliasedBox) {} (by decide) (by decide)
  have ha : ⟨⟨0, 1⟩, .ofLocal 2, 1, 0, false⟩ ∈ aliasedBox.allocations := by decide
  obtain ⟨s, hs, hplan⟩ := (TypeGraph.plan_eq_ok hp).planned _ ha
  have hreturns : aliasedBox.Returns aliasedBox.straightSteps :=
    ⟨_, ⟨0, 5⟩, (((((Body.Path.entry.next rfl).next rfl).next rfl).next rfl).next rfl), rfl, rfl⟩
  have horigin : (Store.bare.after aliasedBox.straightSteps).origin 1 = some s.loc := by
    rw [hplan.loc]
    rfl
  refine ⟨p, s, hp, hs, congrArg Place.local? hplan.place, Store.entered_bare _, hreturns, rfl,
    .single ⟨0, rfl⟩, horigin, ?_⟩
  -- the only owner is the local it was made for, and nothing that escapes leads to this local
  have hconstraints : aliasedBox.escapeConstraints {} = [.atLeast 0 .global, .follows 1 3, .crossesWith 1 3,
    .follows 2 3, .crossesWith 2 3, .follows 1 0, .crossesWith 1 0] := rfl
  have hsources : ∀ t ∈ aliasedBox.ownership.transfers, t.source ≠ 2 := by decide
  have howners : ∀ l ∈ s.owners, l = 2 := by
    intro l hl
    rw [hplan.owners] at hl
    exact Ownership.of_mem_ownersOf (P := (· = 2)) hl rfl fun t ht h => absurd h (hsources t ht)
  have howner : 2 ∈ s.owners := by
    rw [hplan.owners]
    exact Ownership.mem_ownersOf.2 ⟨2, rfl, .refl⟩
  rw [hplan.escape, Ne, BodyFacts.escapeOf_eq_global_iff (List.ne_nil_of_mem howner)]
  rintro ⟨l, hl, hglobal⟩
  have hle : l < 2 := by
    refine EscapeConstraint.of_mem_reached (P := (· < 2)) (fun l t hmem _ => ?_) (fun l l' hmem hl' => ?_) hglobal
    · rw [hconstraints] at hmem
      simp at hmem
      exact hmem.1 ▸ by decide
    · rw [hconstraints] at hmem
      simp at hmem
      rcases hmem with ⟨rfl, -⟩ | ⟨-, rfl⟩ | ⟨rfl, -⟩
      · decide
      · exact absurd hl' (by decide)
      · decide
  rw [howners l hl] at hle
  exact absurd hle (by decide)

end Reclamation
