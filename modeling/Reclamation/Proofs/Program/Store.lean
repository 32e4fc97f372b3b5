import Mathlib
import Reclamation.Proofs.Program.Paths

/-!
# What a body does to objects

A body is executed on an abstract store: locals and the fields of objects hold references to objects, and
an object remembers the allocation that made it. A field that holds no reference to a known object (a plain
value, what a called function returns) holds nothing. Following a pointer leads to the object itself, and an
assignment through one changes no reference; making a closure makes an object that has the captured
values.

The calls of a plan do not show here: they change counts, not references.
-/

set_option autoImplicit false

namespace Reclamation

/-- The references of a program. Objects are numbered in the order in which they are made. -/
structure Store where
  size : Nat
  /-- The allocation that made an object, if it is one of the body. -/
  origin : Nat → Option Location
  locals : LocalId → Option Nat
  fields : Nat → Nat → Option Nat

namespace Store

/-! ## Reading and writing -/

def follow (σ : Store) (v : Option Nat) : Projection → Option Nat
  | .field i => v.bind fun x => σ.fields x i
  | .deref => v

/-- The object that a place refers to. -/
def read (σ : Store) (p : Place) : Option Nat :=
  p.projection.foldl σ.follow (σ.locals p.base)

def operand (σ : Store) (op : Operand) : Option Nat :=
  op.place?.bind σ.read

def setLocal (σ : Store) (l : LocalId) (v : Option Nat) : Store :=
  { σ with locals := Function.update σ.locals l v }

def setField (σ : Store) (x i : Nat) (v : Option Nat) : Store :=
  { σ with fields := Function.update σ.fields x (Function.update (σ.fields x) i v) }

/-- Put a reference into a place. -/
def write (σ : Store) (p : Place) (v : Option Nat) : Store :=
  match p.projection.getLast? with
  | none => σ.setLocal p.base v
  | some (.field i) =>
    match σ.read { p with projection := p.projection.dropLast } with
    | some x => σ.setField x i v
    | none => σ
  | some .deref => σ

/-- Make an object with the given contents. -/
def make (σ : Store) (origin : Option Location) (contents : List (Option Nat)) : Store :=
  { σ with
    size := σ.size + 1
    origin := Function.update σ.origin σ.size origin
    fields := Function.update σ.fields σ.size fun i => contents[i]?.join }

/-- The value of the right side of an assignment, and the store in which it is found. -/
def eval (σ : Store) (loc : Location) : Rvalue → Store × Option Nat
  | .use op => (σ, σ.operand op)
  | .alloc _ _ _ contents => (σ.make (some loc) (contents.map σ.operand), some σ.size)
  | .closure captures => (σ.make none (captures.map σ.operand), some σ.size)
  | .ref p => (σ, σ.read p)
  | .binary _ _ _ => (σ, none)

/-- Execute an instruction. What a called function returns is not known here. -/
def exec (σ : Store) (loc : Location) : Instruction → Store
  | .statement (.assign p value) => (σ.eval loc value).1.write p (σ.eval loc value).2
  | .terminator (.call _ _ dest _) => σ.write dest none
  | .statement _ | .terminator _ => σ

def step (σ : Store) : Body.Step → Store
  | .exec loc i => σ.exec loc i
  | .jump _ _ => σ

/-- The store after some steps. -/
def after (σ : Store) (steps : List Body.Step) : Store :=
  steps.foldl step σ

/-- An object is found from another by following fields. -/
def Reaches (σ : Store) : Nat → Nat → Prop :=
  Relation.ReflTransGen fun x y => ∃ i, σ.fields x i = some y

/-! ## References lead to objects -/

/-- Every reference leads to an object. -/
structure Sound (σ : Store) : Prop where
  locals_lt : ∀ l x, σ.locals l = some x → x < σ.size
  fields_lt : ∀ x i y, σ.fields x i = some y → y < σ.size
  origin_lt : ∀ x loc, σ.origin x = some loc → x < σ.size

/-- A store as the caller of a body leaves it: it has no object of an allocation of the body. -/
structure Initial (σ : Store) : Prop extends Sound σ where
  origin_none : ∀ x, σ.origin x = none

variable {σ : Store}

theorem after_append (σ : Store) (xs ys : List Body.Step) : σ.after (xs ++ ys) = (σ.after xs).after ys :=
  List.foldl_append

@[simp] theorem after_exec (σ : Store) (steps : List Body.Step) (loc : Location) (i : Instruction) :
    σ.after (steps ++ [.exec loc i]) = (σ.after steps).exec loc i := by
  rw [after_append]
  rfl

@[simp] theorem after_jump (σ : Store) (steps : List Body.Step) (loc : Location) (i : Instruction)
    (source target : BlockId) :
    σ.after (steps ++ [.exec loc i, .jump source target]) = (σ.after steps).exec loc i := by
  rw [after_append]
  rfl

theorem follow_lt (h : σ.Sound) {v : Option Nat} (hv : ∀ x, v = some x → x < σ.size) (step : Projection) :
    ∀ x, σ.follow v step = some x → x < σ.size := by
  intro x hx
  cases step with
  | field i =>
    obtain ⟨y, -, hy⟩ := Option.bind_eq_some_iff.1 hx
    exact h.fields_lt y i x hy
  | deref => exact hv x hx

theorem read_lt (h : σ.Sound) {p : Place} {x : Nat} (hx : σ.read p = some x) : x < σ.size := by
  have hfold : ∀ (steps : List Projection) (v : Option Nat), (∀ y, v = some y → y < σ.size) →
      ∀ y, steps.foldl σ.follow v = some y → y < σ.size := by
    intro steps
    induction steps with
    | nil => exact fun v hv => hv
    | cons step steps ih => exact fun v hv => ih _ (follow_lt h hv step)
  exact hfold _ _ (h.locals_lt p.base) x hx

theorem operand_lt (h : σ.Sound) {op : Operand} {x : Nat} (hx : σ.operand op = some x) : x < σ.size := by
  obtain ⟨p, -, hp⟩ := Option.bind_eq_some_iff.1 hx
  exact read_lt h hp

/-! ## What each step changes -/

@[simp] theorem size_write (p : Place) (v : Option Nat) : (σ.write p v).size = σ.size := by
  rw [write]
  split
  · rfl
  · split <;> rfl
  · rfl

@[simp] theorem origin_write (p : Place) (v : Option Nat) : (σ.write p v).origin = σ.origin := by
  rw [write]
  split
  · rfl
  · split <;> rfl
  · rfl

theorem write_of_local? {p : Place} {l : LocalId} (h : p.local? = some l) (v : Option Nat) :
    σ.write p v = σ.setLocal l v := by
  rw [Place.local?] at h
  split at h
  · next hempty =>
    obtain rfl := Option.some.inj h
    rw [write, List.isEmpty_iff.1 hempty]
    rfl
  · exact absurd h (by simp)

theorem locals_write_of_part {p : Place} (h : p.local? = none) (v : Option Nat) :
    (σ.write p v).locals = σ.locals := by
  have hne : p.projection ≠ [] := by
    intro he
    simp [Place.local?, he] at h
  rw [write, List.getLast?_eq_some_getLast hne]
  split
  · next hlast => exact absurd hlast (by simp)
  · split <;> rfl
  · rfl

@[simp] theorem locals_eval (loc : Location) (value : Rvalue) :
    (σ.eval loc value).1.locals = σ.locals := by
  cases value <;> rfl

theorem size_le_eval (loc : Location) (value : Rvalue) : σ.size ≤ (σ.eval loc value).1.size := by
  cases value with
  | alloc => exact Nat.le_succ _
  | closure => exact Nat.le_succ _
  | use | ref | binary => exact Nat.le_refl _

theorem origin_eval {loc : Location} {value : Rvalue} {x : Nat} (hx : x < σ.size) :
    (σ.eval loc value).1.origin x = σ.origin x := by
  cases value with
  | alloc => exact Function.update_of_ne (Nat.ne_of_lt hx) ..
  | closure => exact Function.update_of_ne (Nat.ne_of_lt hx) ..
  | use | ref | binary => rfl

/-- An instruction changes no local that it does not assign. -/
theorem locals_exec_of_notMem {loc : Location} {i : Instruction} {l : LocalId} (hl : l ∉ i.effects.defs) :
    (σ.exec loc i).locals l = σ.locals l := by
  have hwrite : ∀ {τ : Store} {uses : List LocalId} {p : Place} {v : Option Nat},
      l ∉ (Effects.write uses p).defs → (τ.write p v).locals l = τ.locals l := by
    intro τ uses p v hdef
    cases hp : p.local? with
    | none => rw [locals_write_of_part hp]
    | some l' =>
      rw [write_of_local? hp]
      refine Function.update_of_ne (fun e => hdef ?_) ..
      simp [Effects.write, hp, e]
  cases i with
  | statement s =>
    cases s with
    | assign p value => exact (hwrite hl).trans (congrFun (locals_eval loc value) l)
    | _ => rfl
  | terminator t =>
    cases t with
    | call callee args dest target => exact hwrite hl
    | _ => rfl

theorem size_le_exec (loc : Location) (i : Instruction) : σ.size ≤ (σ.exec loc i).size := by
  cases i with
  | statement s =>
    cases s with
    | assign p value => exact (size_le_eval loc value).trans_eq (size_write ..).symm
    | _ => exact Nat.le_refl _
  | terminator t =>
    cases t with
    | call callee args dest target => exact (size_write ..).symm.le
    | _ => exact Nat.le_refl _

/-- An object does not change its origin. -/
theorem origin_exec {loc : Location} {i : Instruction} {x : Nat} (hx : x < σ.size) :
    (σ.exec loc i).origin x = σ.origin x := by
  cases i with
  | statement s =>
    cases s with
    | assign p value => exact (congrFun (origin_write ..) x).trans (origin_eval hx)
    | _ => rfl
  | terminator t =>
    cases t with
    | call callee args dest target => exact congrFun (origin_write ..) x
    | _ => rfl

/-- An object that has an origin had it before, or has just been made. -/
theorem origin_exec_cases {loc d : Location} {i : Instruction} {x : Nat}
    (h : (σ.exec loc i).origin x = some d) : σ.origin x = some d ∨ d = loc := by
  cases i with
  | statement s =>
    cases s with
    | assign p value =>
      have hvalue : (σ.eval loc value).1.origin x = some d := (congrFun (origin_write ..) x).symm.trans h
      cases value with
      | alloc site type frozen contents =>
        simp only [eval, make, Function.update_apply] at hvalue
        split at hvalue
        · exact .inr (Option.some.inj hvalue).symm
        · exact .inl hvalue
      | closure captures =>
        simp only [eval, make, Function.update_apply] at hvalue
        split at hvalue
        · exact absurd hvalue (by simp)
        · exact .inl hvalue
      | use | ref | binary => exact .inl hvalue
    | _ => exact .inl h
  | terminator t =>
    cases t with
    | call callee args dest target => exact .inl ((congrFun (origin_write ..) x).symm.trans h)
    | _ => exact .inl h

/-! ## Soundness is kept -/

namespace Sound

theorem write (h : σ.Sound) {p : Place} {v : Option Nat} (hv : ∀ x, v = some x → x < σ.size) :
    (σ.write p v).Sound where
  locals_lt l x hx := by
    rw [size_write]
    cases hp : p.local? with
    | none => exact h.locals_lt l x ((congrFun (locals_write_of_part hp v) l).symm.trans hx)
    | some l' =>
      rw [write_of_local? hp] at hx
      simp only [setLocal, Function.update_apply] at hx
      split at hx
      · exact hv x hx
      · exact h.locals_lt l x hx
  fields_lt x i y hy := by
    rw [size_write]
    rw [Store.write] at hy
    split at hy
    · exact h.fields_lt x i y hy
    · next j _ =>
      split at hy
      · next z _ =>
        simp only [setField, Function.update_apply] at hy
        split at hy
        · rw [Function.update_apply] at hy
          split at hy
          · exact hv y hy
          · exact h.fields_lt _ i y hy
        · exact h.fields_lt x i y hy
      · exact h.fields_lt x i y hy
    · exact h.fields_lt x i y hy
  origin_lt x loc hx := by
    rw [size_write]
    exact h.origin_lt x loc ((congrFun (origin_write ..) x).symm.trans hx)

theorem make (h : σ.Sound) {origin : Option Location} {contents : List (Option Nat)}
    (hcontents : ∀ x, some x ∈ contents → x < σ.size) : (σ.make origin contents).Sound where
  locals_lt l x hx := Nat.lt_succ_of_lt (h.locals_lt l x hx)
  fields_lt x i y hy := by
    refine Nat.lt_succ_of_lt ?_
    simp only [Store.make, Function.update_apply] at hy
    split at hy
    · exact hcontents y (List.mem_of_getElem? (Option.join_eq_some_iff.1 hy))
    · exact h.fields_lt x i y hy
  origin_lt x loc hx := by
    simp only [Store.make, Function.update_apply] at hx
    split at hx
    · next he => exact he ▸ Nat.lt_succ_self _
    · exact Nat.lt_succ_of_lt (h.origin_lt x loc hx)

theorem eval (h : σ.Sound) (loc : Location) (value : Rvalue) :
    (σ.eval loc value).1.Sound ∧
      ∀ x, (σ.eval loc value).2 = some x → x < (σ.eval loc value).1.size := by
  have hoperands : ∀ (ops : List Operand) (x : Nat), some x ∈ ops.map σ.operand → x < σ.size := by
    intro ops x hx
    obtain ⟨op, -, hop⟩ := List.mem_map.1 hx
    exact operand_lt h hop
  cases value with
  | use op => exact ⟨h, fun x => operand_lt h⟩
  | alloc site type frozen contents =>
    exact ⟨h.make (hoperands contents), fun x hx => Option.some.inj hx ▸ Nat.lt_succ_self _⟩
  | closure captures =>
    exact ⟨h.make (hoperands captures), fun x hx => Option.some.inj hx ▸ Nat.lt_succ_self _⟩
  | ref p => exact ⟨h, fun x => read_lt h⟩
  | binary => exact ⟨h, fun x hx => absurd hx (by simp [Store.eval])⟩

theorem exec (h : σ.Sound) (loc : Location) (i : Instruction) : (σ.exec loc i).Sound := by
  cases i with
  | statement s =>
    cases s with
    | assign p value => exact (h.eval loc value).1.write (h.eval loc value).2
    | _ => exact h
  | terminator t =>
    cases t with
    | call callee args dest target => exact h.write (by simp)
    | _ => exact h

theorem after (h : σ.Sound) (steps : List Body.Step) : (σ.after steps).Sound := by
  induction steps generalizing σ with
  | nil => exact h
  | cons step steps ih =>
    cases step with
    | exec loc i => exact ih (h.exec loc i)
    | jump source target => exact ih h

end Sound

end Store

end Reclamation
