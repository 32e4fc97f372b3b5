import Mathlib
import Reclamation.Proofs.Plan.Balance

/-!
# Objects that only their owners refer to

The owners of an allocation are found by looking at moves and copies between whole locals. What else gets
hold of a reference is not looked at: a field to which an owner is moved, the contents of a new object, a
closure. Where an owner's reference goes nowhere else (`HandedOn`), no field refers to an object of the
allocation, no other local does, and the owners refer to nothing else (`Confined`). Every instruction keeps
this (`Confined.exec`).

Then the owners of different allocations are different locals (`Tracked.loc_eq_of_mem`), if locals are
assigned at most once.
-/

set_option autoImplicit false

namespace Reclamation

/-- The places whose references the value of the right side is, or is made from. -/
def Rvalue.places : Rvalue → List Place
  | .use op => op.place?.toList
  | .ref p => [p]
  | .alloc _ _ _ contents => contents.filterMap (·.place?)
  | .closure captures => captures.filterMap (·.place?)
  | .binary _ _ _ => []

/-- An assignment that takes the reference that an owner holds is a move or a copy to another owner. -/
def AllocationSite.HandedOn (s : AllocationSite) (b : Body) : Prop :=
  ∀ loc p value, b.instruction? loc = some (.statement (.assign p value)) → ∀ q ∈ value.places,
    q.base ∈ s.owners → (∀ step ∈ q.projection, step = .deref) →
      ∃ t ∈ b.ownership.transfers, t.loc = loc ∧ t.source = q.base

/-- The owners refer to objects of the allocation, and nothing else does. -/
structure AllocationSite.Confined (s : AllocationSite) (σ : Store) : Prop where
  sound : σ.Sound
  owners : ∀ l ∈ s.owners, ∀ x, σ.locals l = some x → σ.origin x = some s.loc
  locals : ∀ l x, σ.locals l = some x → σ.origin x = some s.loc → l ∈ s.owners
  fields : ∀ x i y, σ.fields x i = some y → σ.origin y ≠ some s.loc

namespace AllocationSite

variable {s : AllocationSite} {b : Body} {root : LocalId} {σ : Store} {loc : Location}

namespace Confined

theorem start (hσ : σ.Initial) (howners : ∀ l ∈ s.owners, σ.locals l = none) : s.Confined σ where
  sound := hσ.toSound
  owners l hl x hx := by
    rw [howners l hl] at hx
    exact absurd hx (by simp)
  locals _ x _ hx := absurd (hσ.origin_none x ▸ hx) (by simp)
  fields _ _ y _ hy := absurd (hσ.origin_none y ▸ hy) (by simp)

/-- An object of the allocation is only read off an owner itself. -/
theorem read (h : s.Confined σ) {p : Place} {x : Nat} (hx : σ.read p = some x)
    (horigin : σ.origin x = some s.loc) : p.base ∈ s.owners ∧ ∀ step ∈ p.projection, step = .deref := by
  have hfold : ∀ (steps : List Projection) (v : Option Nat), steps.foldl σ.follow v = some x →
      (∀ step ∈ steps, step = .deref) ∧ v = some x := by
    intro steps
    induction steps with
    | nil => exact fun v hv => ⟨by simp, hv⟩
    | cons step steps ih =>
      intro v hv
      obtain ⟨hsteps, hfollow⟩ := ih _ hv
      cases step with
      | field i =>
        obtain ⟨y, -, hy⟩ := Option.bind_eq_some_iff.1 hfollow
        exact absurd horigin (h.fields y i x hy)
      | deref => exact ⟨by simpa using hsteps, hfollow⟩
  obtain ⟨hsteps, hlocal⟩ := hfold _ _ hx
  exact ⟨h.locals _ x hlocal horigin, hsteps⟩

/-- Making an object from objects of other allocations. -/
theorem make (h : s.Confined σ) {origin : Option Location} {contents : List (Option Nat)}
    (hsound : (σ.make origin contents).Sound)
    (hcontents : ∀ y, some y ∈ contents → σ.origin y ≠ some s.loc)
    (hlt : ∀ y, some y ∈ contents → y < σ.size) : s.Confined (σ.make origin contents) := by
  have hold : ∀ {x}, x < σ.size → (σ.make origin contents).origin x = σ.origin x :=
    fun hx => Function.update_of_ne (Nat.ne_of_lt hx) ..
  refine ⟨hsound, fun l hl x hx => ?_, fun l x hx => ?_, fun x i y hy => ?_⟩
  · rw [hold (h.sound.locals_lt l x hx)]
    exact h.owners l hl x hx
  · rw [hold (h.sound.locals_lt l x hx)]
    exact h.locals l x hx
  · simp only [Store.make, Function.update_apply] at hy
    split at hy
    · have hmem := List.mem_of_getElem? (Option.join_eq_some_iff.1 hy)
      rw [hold (hlt y hmem)]
      exact hcontents y hmem
    · rw [hold (h.sound.fields_lt x i y hy)]
      exact h.fields x i y hy

/-- Writing an object of the allocation to an owner, or another one elsewhere. -/
theorem write (h : s.Confined σ) {p : Place} {v : Option Nat} (hlt : ∀ x, v = some x → x < σ.size)
    (hv : ∀ x, v = some x → (σ.origin x = some s.loc ↔ ∃ l ∈ s.owners, p.local? = some l)) :
    s.Confined (σ.write p v) := by
  have hsound := h.sound.write (p := p) hlt
  cases hp : p.local? with
  | some l' =>
    rw [Store.write_of_local? hp] at hsound ⊢
    refine ⟨hsound, fun l hl x hx => ?_, fun l x hx horigin => ?_, h.fields⟩
    · simp only [Store.setLocal, Function.update_apply] at hx
      split at hx
      · next he => exact (hv x hx).2 ⟨l', he ▸ hl, hp⟩
      · exact h.owners l hl x hx
    · simp only [Store.setLocal, Function.update_apply] at hx
      split at hx
      · next he =>
        obtain ⟨l'', hl'', hp'⟩ := (hv x hx).1 horigin
        obtain rfl := Option.some.inj (hp.symm.trans hp')
        exact he ▸ hl''
      · exact h.locals l x hx horigin
  | none =>
    have hother : ∀ x, v = some x → σ.origin x ≠ some s.loc := by
      intro x hx horigin
      obtain ⟨l, -, hl⟩ := (hv x hx).1 horigin
      exact absurd (hp.symm.trans hl) (by simp)
    have hlocals := Store.locals_write_of_part hp v (σ := σ)
    refine ⟨hsound, fun l hl x hx => ?_, fun l x hx horigin => ?_, fun x i y hy => ?_⟩
    · rw [Store.origin_write]
      exact h.owners l hl x (congrFun hlocals l ▸ hx)
    · rw [Store.origin_write] at horigin
      exact h.locals l x (congrFun hlocals l ▸ hx) horigin
    · rw [Store.origin_write]
      rw [Store.write] at hy
      split at hy
      · exact h.fields x i y hy
      · split at hy
        · simp only [Store.setField, Function.update_apply] at hy
          split at hy
          · rw [Function.update_apply] at hy
            split at hy
            · exact hother y hy
            · exact h.fields _ i y hy
          · exact h.fields x i y hy
        · exact h.fields x i y hy
      · exact h.fields x i y hy

/-- Where no owner's reference is handed on, none of the places that an assignment reads has an object of the
allocation. -/
theorem not_origin_of_mem (h : s.Confined σ) (hhanded : s.HandedOn b) {p : Place} {value : Rvalue}
    (hi : b.instruction? loc = some (.statement (.assign p value)))
    (hother : ¬ ∃ t ∈ b.ownership.transfers, t.source ∈ s.owners ∧ t.loc = loc) {q : Place}
    (hq : q ∈ value.places) {x : Nat} (hx : σ.read q = some x) : σ.origin x ≠ some s.loc := by
  intro horigin
  obtain ⟨howner, hsteps⟩ := h.read hx horigin
  obtain ⟨t, ht, hloc, hsource⟩ := hhanded loc p value hi q hq howner hsteps
  exact hother ⟨t, ht, hsource ▸ howner, hloc⟩

/-- An assignment evaluates to an object of the allocation if an owner is assigned. -/
theorem eval (h : s.Confined σ) (ht : s.Tracked b root) (hhanded : s.HandedOn b) {p : Place} {value : Rvalue}
    (hi : b.instruction? loc = some (.statement (.assign p value))) :
    s.Confined (σ.eval loc value).1 ∧ ∀ x, (σ.eval loc value).2 = some x →
      ((σ.eval loc value).1.origin x = some s.loc ↔ ∃ l ∈ s.owners, p.local? = some l) := by
  have hsound := h.sound.eval loc value
  by_cases htransfer : ∃ t ∈ b.ownership.transfers, t.source ∈ s.owners ∧ t.loc = loc
  · -- the reference goes from one owner to another
    obtain ⟨t, htmem, hsource, rfl⟩ := htransfer
    obtain ⟨st, hst, his⟩ := Body.mem_transfers.1 htmem
    rw [hi, Option.some.injEq, Instruction.statement.injEq, his.eq, Statement.assign.injEq] at hst
    obtain ⟨rfl, rfl⟩ := hst
    refine ⟨h, fun x hx => iff_of_true (h.owners _ hsource x ?_) ⟨t.dest, ht.dest_mem htmem hsource, rfl⟩⟩
    cases hmove : t.isMove with
    | true =>
      rw [hmove] at hx
      exact hx
    | false =>
      rw [hmove] at hx
      exact hx
  have hcontents : ∀ ops : List Operand, value.places = ops.filterMap (·.place?) → ∀ y,
      some y ∈ ops.map σ.operand → σ.origin y ≠ some s.loc ∧ y < σ.size := by
    intro ops hops y hy
    obtain ⟨op, hop, hy⟩ := List.mem_map.1 hy
    obtain ⟨q, hq, hread⟩ := Option.bind_eq_some_iff.1 hy
    have hplace : q ∈ value.places := hops ▸ List.mem_filterMap.2 ⟨op, hop, hq⟩
    exact ⟨h.not_origin_of_mem hhanded hi htransfer hplace hread, Store.operand_lt h.sound hy⟩
  have hassigned : (∃ l ∈ s.owners, p.local? = some l) → loc = s.loc := by
    intro hl
    obtain ⟨l, hl, hp⟩ := hl
    refine ((ht.def_cases hi hl ?_).resolve_right fun ⟨t, htmem, hsource, _, hloc⟩ =>
      htransfer ⟨t, htmem, hsource, hloc⟩).1
    simp [Instruction.effects, Statement.effects, Effects.write, hp]
  have hallocated : loc = s.loc → p = s.place ∧ ∃ site type frozen contents,
      value = .alloc site type frozen contents := by
    rintro rfl
    obtain ⟨site, type, frozen, contents, halloc⟩ := ht.alloc
    rw [hi, Option.some.injEq, Instruction.statement.injEq, Statement.assign.injEq] at halloc
    exact ⟨halloc.1, site, type, frozen, contents, halloc.2⟩
  cases value with
  | use op =>
    have hplaces : (Rvalue.use op).places = [op].filterMap (·.place?) := by
      rw [Rvalue.places]
      cases h : op.place? <;> simp [h]
    refine ⟨h, fun x hx => iff_of_false (hcontents _ hplaces x ?_).1 fun hl => ?_⟩
    · exact List.mem_map.2 ⟨op, List.mem_cons_self, hx⟩
    obtain ⟨-, _, _, _, _, hvalue⟩ := hallocated (hassigned hl)
    exact absurd hvalue (by simp)
  | ref q =>
    refine ⟨h, fun x hx => iff_of_false (h.not_origin_of_mem hhanded hi htransfer List.mem_cons_self hx) fun hl => ?_⟩
    obtain ⟨-, _, _, _, _, hvalue⟩ := hallocated (hassigned hl)
    exact absurd hvalue (by simp)
  | binary op left right => exact ⟨h, fun x hx => absurd hx (by simp [Store.eval])⟩
  | closure captures =>
    have hmade := hcontents captures rfl
    refine ⟨h.make hsound.1 (fun y hy => (hmade y hy).1) fun y hy => (hmade y hy).2, fun x hx => ?_⟩
    obtain rfl := Option.some.inj hx
    have horigin : (σ.make none (captures.map σ.operand)).origin σ.size = none := Function.update_self ..
    refine iff_of_false (fun hsame => absurd (horigin.symm.trans hsame) (by simp)) fun hl => ?_
    obtain ⟨-, _, _, _, _, hvalue⟩ := hallocated (hassigned hl)
    exact absurd hvalue (by simp)
  | alloc site type frozen contents =>
    have hmade := hcontents contents rfl
    refine ⟨h.make hsound.1 (fun y hy => (hmade y hy).1) fun y hy => (hmade y hy).2, fun x hx => ?_⟩
    obtain rfl := Option.some.inj hx
    have horigin : (σ.make (some loc) (contents.map σ.operand)).origin σ.size = some loc :=
      Function.update_self ..
    refine ⟨fun hsame => ⟨root, ht.root_mem, ?_⟩, fun hl => horigin.trans (congrArg some (hassigned hl))⟩
    have hloc : loc = s.loc := Option.some.inj (horigin.symm.trans hsame)
    rw [(hallocated hloc).1, ht.place]
    rfl

/-- Every instruction of the body keeps the objects confined. -/
theorem exec (h : s.Confined σ) (ht : s.Tracked b root) (hhanded : s.HandedOn b) {i : Instruction}
    (hi : b.instruction? loc = some i) : s.Confined (σ.exec loc i) := by
  cases i with
  | statement st =>
    cases st with
    | assign p value =>
      obtain ⟨heval, hvalue⟩ := h.eval ht hhanded hi
      exact heval.write (h.sound.eval loc value).2 hvalue
    | _ => exact h
  | terminator t =>
    cases t with
    | call callee args dest target =>
      exact h.write (fun x hx => absurd hx (by simp)) fun x hx => absurd hx (by simp)
    | _ => exact h

end Confined

/-! ## Owners of different allocations -/

/-- A local that owns objects of two allocations is made to refer to both by one instruction. -/
theorem Tracked.loc_eq_of_mem {s' : AllocationSite} {root' : LocalId} (h : s.Tracked b root)
    (hplace' : s'.place = .ofLocal root') (howners' : s'.owners = b.ownership.ownersOf s'.place)
    (halloc' : ∃ site type frozen contents,
      b.instruction? s'.loc = some (.statement (.assign s'.place (.alloc site type frozen contents))))
    {l : LocalId} (hl : l ∈ s.owners) (hl' : l ∈ s'.owners) : s'.loc = s.loc := by
  rw [howners', Ownership.mem_ownersOf] at hl'
  obtain ⟨root'', hroot'', hreach⟩ := hl'
  rw [hplace', Place.local?_ofLocal, Option.some.injEq] at hroot''
  subst hroot''
  induction hreach with
  | refl =>
    obtain ⟨_, _, _, _, halloc⟩ := halloc'
    rcases h.def_cases halloc hl (by simp [Instruction.effects, Statement.effects, Effects.write, hplace']) with
      hloc | ⟨t, ht, -, -, hloc⟩
    · exact hloc.1
    · obtain ⟨st, hst, his⟩ := Body.mem_transfers.1 ht
      rw [hloc, halloc, his.eq] at hst
      simp at hst
  | tail _ hpass ih =>
    obtain ⟨t, ht, rfl, rfl⟩ := hpass
    obtain ⟨st, hst, his⟩ := Body.mem_transfers.1 ht
    have hdef : t.dest ∈ (Instruction.statement st).effects.defs := by
      simp [Instruction.effects, his.effects]
    rcases h.def_cases hst hl hdef with ⟨hloc, -⟩ | ⟨t', ht', hsource, -, hloc⟩
    · obtain ⟨_, _, _, _, halloc⟩ := h.alloc
      rw [hloc, halloc, his.eq] at hst
      simp at hst
    · exact ih (Body.transfer_unique ht' ht hloc ▸ hsource)

end AllocationSite

end Reclamation
