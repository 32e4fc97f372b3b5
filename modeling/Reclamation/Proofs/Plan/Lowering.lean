import Mathlib
import Reclamation.Plan.Lower
import Reclamation.Proofs.Plan.Calls
import Reclamation.Proofs.TypeGraph.Shapes

/-!
# Lowering a plan

Lowering refuses a call whose allocation it cannot find or whose arguments it does not know in the number
that the signature has, and it prints `NULL` where a call that needs a local has none. A plan gives no reason
for either. Each of its calls has one of three forms (`PlannedCall.Formed`): it makes the object of an
allocation of the plan, it is passed one object that a local holds, or it opens or closes an arena or a
scope.

What an argument stands for follows from the entry point (`EntryPoint.roles`), and the roles are those of the
C signature. An allocator without a flag for shared counts is never asked to make an object with such counts:
only what crosses to another thread has them, and that is put into the slot pool
(`RouteInput.needsHandle_of_atomic`).
-/

set_option autoImplicit false

namespace Reclamation

/-! ## What arguments stand for -/

/-- What an argument of a planned call stands for. -/
inductive ArgumentRole where
  /-- The object that a local holds. -/
  | object
  /-- The index of the type of a new object. -/
  | type
  /-- Whether several threads change the count of a new object. -/
  | shared
  /-- Whether a scope owns a new object in the slot pool. -/
  | symmetric
  /-- The arena of the body. -/
  | arena
  deriving DecidableEq, Repr

/-- How an argument is passed to C. -/
def ArgumentRole.ctype : ArgumentRole → CType
  | object | arena => .pointer
  | type => .uint32
  | shared | symmetric => .int32

/-- What the arguments of an entry point stand for, for those that plans call. -/
def EntryPoint.roles : EntryPoint → List ArgumentRole
  | alloc => [.type, .shared]
  | slotPoolAlloc => [.type, .shared, .symmetric]
  | symAlloc => [.type]
  | arenaAlloc => [.arena, .type]
  | arenaDestroy => [.arena]
  | freeTree | incRef | decRef | sccFreeze | sccRelease | symAcquire | symRelease | slotPoolFree | makeHandle =>
    [.object]
  | _ => []

/-- The arguments of a call, each with what it stands for. -/
def LoweredCall.arguments (d : LoweredCall) : List (ArgumentRole × String) :=
  d.call.roles.zip d.args

/-- The statement of an allocation, as the plan has kept it. -/
def AllocationSite.allocation (s : AllocationSite) : Allocation :=
  { loc := s.loc, place := s.place, site := s.id, type := s.type, frozen := s.frozen }

/-- A C statement makes the object of an allocation: it stands in place of the statement of the body, writes
the same place, and asks for the type and the flags that have been decided. -/
structure AllocationSite.AllocatedBy (s : AllocationSite) (d : LoweredCall) : Prop where
  point : d.point = .instead s.loc
  call : d.call = s.allocator
  result : d.result = some s.place.text
  type : (.type, toString s.type) ∈ d.arguments
  shared : (.shared, "1") ∈ d.arguments ↔ s.decision.atomic = true
  symmetric : (.symmetric, "1") ∈ d.arguments ↔ s.decision.needsHandle = true ∧ s.strategy = .symmetric

/-- A C statement makes a call of a plan. -/
structure PlannedCall.LoweredTo (c : PlannedCall) (d : LoweredCall) : Prop where
  point : d.point = c.point
  call : d.call = c.call
  arity : d.args.length = d.call.signature.arity
  roles : d.call.roles.map (·.ctype) = d.call.signature.params
  /-- A result is kept only if there is one. -/
  result : d.result.isSome = true → d.call.signature.result ≠ .void
  /-- What is passed as an object is the local of the call. -/
  object : ∀ text, (.object, text) ∈ d.arguments →
    text ≠ "NULL" ∧ ∃ l, c.subject = some l ∧ text = LocalId.text l

/-! ## The forms of planned calls -/

theorem RouteInput.needsHandle_of_atomic {i : RouteInput} {arenaOptIn : Bool}
    (h : (i.route arenaOptIn).atomic = true) : (i.route arenaOptIn).needsHandle = true := by
  simp only [route, Bool.and_eq_true] at h
  simp [route, h.1]

theorem Allocation.allocation_of_eq_ok {a : Allocation} {f : BodyFacts} {g : TypeGraph} {o : AnalysisOptions}
    {s : AllocationSite} (h : a.plan f g o = .ok s) : s.allocation = a := by
  rw [Allocation.plan] at h
  cases hfact : g.classify a.type with
  | error e => simp [hfact, bind, Except.bind] at h
  | ok fact =>
    cases hsize : g.estimatedSize a.type with
    | error e => simp [hfact, hsize, bind, Except.bind] at h
    | ok size =>
      simp only [hfact, hsize, bind, Except.bind, pure, Except.pure, Except.ok.injEq] at h
      subst h
      rfl

/-- What a call of a plan is for. -/
inductive PlannedCall.Formed (p : Plan) (c : PlannedCall) : Prop where
  /-- It makes the object of an allocation. -/
  | make {s : AllocationSite} (hs : s ∈ p.sites) (h : c = s.callAt (.instead s.loc) s.allocator s.firstOwner?)
  /-- It is passed the object that a local holds. -/
  | pass {l : LocalId} (hsubject : c.subject = some l) (hroles : c.call.roles = [.object])
  /-- It opens or closes an arena or a scope. -/
  | bracket (h : c.call ∈ EntryPoint.brackets)

theorem AllocationSite.exists_firstOwner? {s : AllocationSite} (h : s.isEmbedded = false) :
    ∃ l, s.firstOwner? = some l := by
  rw [isEmbedded] at h
  cases hl : s.owners with
  | nil => simp [hl] at h
  | cons l ls => exact ⟨l, by simp [firstOwner?, hl]⟩

theorem Strategy.roles_release {s : Strategy} (h : s ≠ .arena) : s.release.roles = [.object] := by
  cases s with
  | arena => exact absurd rfl h
  | asap | rc | scc | symmetric => rfl

theorem Strategy.roles_acquire {s : Strategy} {call : EntryPoint} (h : s.acquire? = some call) :
    call.roles = [.object] := by
  cases s with
  | rc | symmetric =>
    obtain rfl := Option.some.inj h
    rfl
  | asap | scc | arena => exact absurd h (by simp [acquire?])

section

variable {p : Plan} {g : TypeGraph} {b : Body} {o : AnalysisOptions}

theorem PlannedCall.formed_of_callOf {f : BodyFacts} {s : AllocationSite} (hs : s ∈ p.sites) {c : PlannedCall}
    (hc : s.CallOf f c) : c.Formed p := by
  cases hc with
  | make => exact .make hs rfl
  | handle howned | handOver howned | freeze howned =>
    obtain ⟨l, hl⟩ := AllocationSite.exists_firstOwner? howned
    exact .pass hl rfl
  | acquire _ _ hcounts => exact .pass rfl (Strategy.roles_acquire hcounts)
  | release _ _ harena => exact .pass rfl (Strategy.roles_release harena)

theorem TypeGraph.formed_of_mem (hp : g.plan b o = .ok p) {c : PlannedCall} (hc : c ∈ p.calls) : c.Formed p := by
  obtain ⟨-, -, heq⟩ := TypeGraph.plan_eq_ok_iff.1 hp
  rw [congrArg Plan.calls heq] at hc
  simp only [bracketedCalls, List.mem_append, List.mem_flatMap] at hc
  rcases hc with (((hc | hc) | ⟨s, hs, hc⟩) | hc) | hc
  · obtain ⟨-, rfl⟩ := mem_bracket_fst.1 hc
    exact .bracket (by decide)
  · obtain ⟨-, rfl⟩ := mem_bracket_fst.1 hc
    exact .bracket (by decide)
  · exact PlannedCall.formed_of_callOf hs (AllocationSite.callOf_of_mem hc)
  · obtain ⟨-, loc, -, rfl⟩ := mem_bracket_snd.1 hc
    exact .bracket (by simp [EntryPoint.brackets])
  · obtain ⟨-, loc, -, rfl⟩ := mem_bracket_snd.1 hc
    exact .bracket (by simp [EntryPoint.brackets])

/-- An allocation is found by its number if no other has the same. -/
theorem Plan.site?_of_mem (hids : (p.sites.map (·.id)).Nodup) {s : AllocationSite} (hs : s ∈ p.sites) :
    p.site? s.id = some s := by
  cases hfound : p.site? s.id with
  | none => exact absurd (List.find?_eq_none.1 hfound s hs) (by simp)
  | some t =>
    have hid : t.id = s.id := by simpa using List.find?_some hfound
    have ht : t ∈ p.sites := List.mem_of_find?_eq_some hfound
    rw [List.inj_on_of_nodup_map hids ht hs hid]

/-! ## Lowering one call -/

/-- What an argument stands for says how it is passed. -/
theorem EntryPoint.ctype_roles {f : EntryPoint} (h : f.roles ≠ [] ∨ f.signature.params = []) :
    f.roles.map (·.ctype) = f.signature.params := by
  cases f with
  | runtimeInit | alloc | freeTree | incRef | decRef | safePoint | sccFreeze | sccRelease | arenaCreate
  | arenaAlloc | arenaDestroy | symEnterScope | symExitScope | symAlloc | symAcquire | symRelease
  | slotPoolAlloc | slotPoolFree | makeHandle => rfl
  | registerType | setField | arenaRegisterExternal | arenaResolveExternal | symLink | handleIsValid
  | handleDeref => simp [roles, signature] at h

theorem flag_eq_one {b : Bool} : PlannedCall.flag b = "1" ↔ b = true := by
  cases b <;> simp [PlannedCall.flag]

theorem one_eq_flag {b : Bool} : "1" = PlannedCall.flag b ↔ b = true :=
  eq_comm.trans flag_eq_one

theorem LocalId.text_ne_null (l : LocalId) : LocalId.text l ≠ "NULL" := by
  intro h
  have hhead := congrArg (fun s : String => s.toList.head?) h
  simp [LocalId.text] at hhead

/-- The arguments of the call that makes the object of an allocation. -/
def AllocationSite.arguments (s : AllocationSite) : List (ArgumentRole × String) :=
  if s.decision.needsHandle then
    [(.type, toString s.type), (.shared, PlannedCall.flag s.decision.atomic),
      (.symmetric, PlannedCall.flag (s.strategy == .symmetric))]
  else
    match s.strategy with
    | .arena => [(.arena, arenaVariable), (.type, toString s.type)]
    | .symmetric => [(.type, toString s.type)]
    | .asap | .rc | .scc => [(.type, toString s.type), (.shared, PlannedCall.flag s.decision.atomic)]

namespace AllocationSite

variable {s : AllocationSite}

theorem roles_arguments (s : AllocationSite) : s.arguments.map (·.1) = s.allocator.roles := by
  rw [arguments, allocator]
  cases s.decision.needsHandle with
  | true => rfl
  | false => cases s.strategy <;> rfl

theorem type_mem_arguments (s : AllocationSite) : (.type, toString s.type) ∈ s.arguments := by
  rw [arguments]
  cases s.decision.needsHandle with
  | true => simp
  | false => cases s.strategy <;> simp

theorem object_notMem_arguments (s : AllocationSite) (text : String) : (.object, text) ∉ s.arguments := by
  rw [arguments]
  cases s.decision.needsHandle with
  | true => simp
  | false => cases s.strategy <;> simp

theorem shared_mem_arguments (hatomic : s.decision.atomic = true → s.decision.needsHandle = true) :
    (.shared, "1") ∈ s.arguments ↔ s.decision.atomic = true := by
  rw [arguments]
  cases hneeds : s.decision.needsHandle with
  | true => simp [one_eq_flag]
  | false =>
    -- without a handle the counts are not shared, so that no flag is missed
    have hplain : s.decision.atomic = false := by
      cases h : s.decision.atomic with
      | false => rfl
      | true => exact absurd (hneeds.symm.trans (hatomic h)) (by simp)
    cases s.strategy <;> simp [hplain, PlannedCall.flag]

theorem symmetric_mem_arguments :
    (.symmetric, "1") ∈ s.arguments ↔ s.decision.needsHandle = true ∧ s.strategy = .symmetric := by
  rw [arguments]
  cases s.decision.needsHandle with
  | true => simp [one_eq_flag]
  | false => cases s.strategy <;> simp

theorem result_allocator (s : AllocationSite) : s.allocator.signature.result = .pointer := by
  rw [allocator]
  split
  · rfl
  · cases s.strategy <;> rfl

end AllocationSite

namespace PlannedCall

variable {s : AllocationSite} {c : PlannedCall}

/-- A call is lowered to its arguments if they are known and have the roles of its entry point. -/
theorem exists_lower {args : List (ArgumentRole × String)} {result : Option String}
    (hoperands : c.operands p = .ok (args.map (·.2), result)) (hroles : args.map (·.1) = c.call.roles)
    (hsignature : c.call.roles.map (·.ctype) = c.call.signature.params)
    (hobject : ∀ text, (.object, text) ∈ args → ∃ l, c.subject = some l ∧ text = LocalId.text l) :
    ∃ d, c.lower p = .ok d ∧ c.LoweredTo d ∧ d.arguments = args ∧
      d.result = if c.call.signature.result = .void then none else result := by
  have harity : c.call.signature.arity = (args.map (·.2)).length := by
    rw [Signature.arity, ← hsignature, ← hroles]
    simp
  let d : LoweredCall :=
    { point := c.point, call := c.call, args := args.map (·.2)
      result := if c.call.signature.result = .void then none else result }
  have hlower : c.lower p = .ok d := by
    rw [lower, hoperands]
    simp only [bind, Except.bind, EntryPoint.checkArity, if_pos harity, pure, Except.pure, d]
  have harguments : d.arguments = args := by
    rw [LoweredCall.arguments, ← hroles, List.zip_map']
    simp
  refine ⟨d, hlower, ⟨rfl, rfl, harity.symm, hsignature, ?_, ?_⟩, harguments, rfl⟩
  · intro hsome hvoid
    rw [show d.result = none from if_pos hvoid] at hsome
    exact absurd hsome (by simp)
  · intro text htext
    obtain ⟨l, hl, rfl⟩ := hobject text (harguments ▸ htext)
    exact ⟨LocalId.text_ne_null l, l, hl, rfl⟩

theorem operands_make (hfound : p.site? s.id = some s) (hsite : c.site = some s.id)
    (hcall : c.call = s.allocator) : c.operands p = .ok (s.arguments.map (·.2), some s.place.text) := by
  have hrequire : c.requireSite p = .ok s := by simp [requireSite, hsite, hfound]
  rw [operands, hcall, hrequire, AllocationSite.allocator, AllocationSite.arguments]
  cases s.decision.needsHandle with
  | true => rfl
  | false => cases s.strategy <;> rfl

theorem operands_pass {l : LocalId} (hsubject : c.subject = some l) (hroles : c.call.roles = [.object]) :
    ∃ result, c.operands p = .ok ([LocalId.text l], result) := by
  have htext : c.subjectText = LocalId.text l := by simp [subjectText, hsubject]
  rw [operands, htext]
  cases hcall : c.call <;> simp [hcall, EntryPoint.roles] at hroles ⊢

/-- The call that makes the object of an allocation is lowered to what the allocation asks for. -/
theorem exists_lower_make (hfound : p.site? s.id = some s)
    (hatomic : s.decision.atomic = true → s.decision.needsHandle = true) (hsite : c.site = some s.id)
    (hpoint : c.point = .instead s.loc) (hcall : c.call = s.allocator) :
    ∃ d, c.lower p = .ok d ∧ c.LoweredTo d ∧ s.AllocatedBy d := by
  have hroles : s.arguments.map (·.1) = c.call.roles := by rw [s.roles_arguments, hcall]
  have hsignature : c.call.roles.map (·.ctype) = c.call.signature.params := by
    refine EntryPoint.ctype_roles (.inl ?_)
    rw [← hroles]
    exact fun hnil => List.ne_nil_of_mem s.type_mem_arguments (List.map_eq_nil_iff.1 hnil)
  obtain ⟨d, hlower, hlowered, harguments, hresult⟩ := exists_lower (operands_make hfound hsite hcall) hroles
    hsignature fun text h => absurd h (s.object_notMem_arguments text)
  refine ⟨d, hlower, hlowered, hlowered.point.trans hpoint, hlowered.call.trans hcall, ?_, ?_, ?_, ?_⟩
  · rw [hresult, hcall, s.result_allocator]
    rfl
  · rw [harguments]
    exact s.type_mem_arguments
  · rw [harguments, AllocationSite.shared_mem_arguments hatomic]
  · rw [harguments, AllocationSite.symmetric_mem_arguments]

theorem exists_lower_pass {l : LocalId} (hsubject : c.subject = some l) (hroles : c.call.roles = [.object]) :
    ∃ d, c.lower p = .ok d ∧ c.LoweredTo d := by
  obtain ⟨result, hoperands⟩ := operands_pass (p := p) hsubject hroles
  have hargs : [(ArgumentRole.object, LocalId.text l)].map (·.1) = c.call.roles := by simp [hroles]
  obtain ⟨d, hlower, hlowered, -⟩ := exists_lower hoperands hargs
    (EntryPoint.ctype_roles (.inl (by simp [hroles]))) fun text h => ⟨l, hsubject, by simpa using h⟩
  exact ⟨d, hlower, hlowered⟩

theorem exists_lower_bracket (h : c.call ∈ EntryPoint.brackets) :
    ∃ d, c.lower p = .ok d ∧ c.LoweredTo d := by
  have hknown : ∃ (args : List (ArgumentRole × String)) (result : Option String),
      c.operands p = .ok (args.map (·.2), result) ∧ args.map (·.1) = c.call.roles ∧
      c.call.roles.map (·.ctype) = c.call.signature.params ∧ ∀ text, (.object, text) ∉ args := by
    rw [operands]
    simp only [EntryPoint.brackets, List.mem_cons, List.not_mem_nil, or_false] at h
    rcases h with h | h | h | h <;> rw [h]
    · exact ⟨[], some arenaVariable, rfl, rfl, rfl, by simp⟩
    · exact ⟨[(.arena, arenaVariable)], none, rfl, rfl, rfl, by simp⟩
    · exact ⟨[], none, rfl, rfl, rfl, by simp⟩
    · exact ⟨[], none, rfl, rfl, rfl, by simp⟩
  obtain ⟨args, result, hoperands, hroles, hsignature, hobject⟩ := hknown
  obtain ⟨d, hlower, hlowered, -⟩ := exists_lower hoperands hroles hsignature fun text h => absurd h (hobject text)
  exact ⟨d, hlower, hlowered⟩

end PlannedCall

theorem EntryPoint.makes_eq_false {f : EntryPoint} (h : f.roles = [.object] ∨ f ∈ brackets) :
    f.makes = false := by
  cases f with
  | alloc | slotPoolAlloc | symAlloc | arenaAlloc => simp [roles, brackets] at h
  | _ => rfl

/-! ## Lowering a plan -/

theorem TypeGraph.allocation_sites (hp : g.plan b o = .ok p) : p.sites.map (·.allocation) = b.allocations := by
  obtain ⟨-, hsites, -⟩ := TypeGraph.plan_eq_ok_iff.1 hp
  rw [map_of_forall₂ (fun a s hplan => a.allocation_of_eq_ok hplan) hsites, List.map_id']

theorem TypeGraph.make_mem (hp : g.plan b o = .ok p) {s : AllocationSite} (hs : s ∈ p.sites) :
    s.callAt (.instead s.loc) s.allocator s.firstOwner? ∈ p.calls :=
  ((TypeGraph.plan_eq_ok hp).calls_together hs).subset
    (List.mem_append_left _ (AllocationSite.mem_allocCalls.2 (.inl rfl)))

/-- The plan of a body in which allocations have different numbers can be lowered. Each of its calls becomes
one statement, in order, at the same point and of the same entry point, with the arguments of the
signature; objects are passed by the local of the call. Each allocation of the body gets a statement that
makes its object as its decision says. -/
theorem TypeGraph.plan_lowers (hp : g.plan b o = .ok p) (hids : (b.allocations.map (·.site)).Nodup) :
    ∃ calls, p.lower = .ok calls ∧
      List.Forall₂ (fun c d => c.LoweredTo d ∧
        (c.call.makes = true → ∃ s ∈ p.sites, c.site = some s.id ∧ s.AllocatedBy d)) p.calls calls ∧
      p.sites.map (·.allocation) = b.allocations ∧ ∀ s ∈ p.sites, ∃ d ∈ calls, s.AllocatedBy d := by
  have hsites := TypeGraph.allocation_sites hp
  have hids' : (p.sites.map (·.id)).Nodup := by
    rw [← hsites, List.map_map] at hids
    exact hids
  have hmake : ∀ s ∈ p.sites, ∀ c : PlannedCall, c = s.callAt (.instead s.loc) s.allocator s.firstOwner? →
      ∃ d, c.lower p = .ok d ∧ c.LoweredTo d ∧ s.AllocatedBy d := by
    rintro s hs c rfl
    obtain ⟨a, -, hplan⟩ := (TypeGraph.plan_eq_ok hp).site s hs
    refine PlannedCall.exists_lower_make (Plan.site?_of_mem hids' hs) ?_ rfl rfl rfl
    rw [hplan.decision]
    exact RouteInput.needsHandle_of_atomic
  have hlower : ∀ c ∈ p.calls, ∃ d, c.lower p = .ok d ∧ c.LoweredTo d ∧
      (c.call.makes = true → ∃ s ∈ p.sites, c.site = some s.id ∧ s.AllocatedBy d) := by
    intro c hc
    cases TypeGraph.formed_of_mem hp hc with
    | make hs hform =>
      obtain ⟨d, hd, hlowered, halloc⟩ := hmake _ hs c hform
      exact ⟨d, hd, hlowered, fun _ => ⟨_, hs, by rw [hform]; rfl, halloc⟩⟩
    | pass hsubject hroles =>
      obtain ⟨d, hd, hlowered⟩ := PlannedCall.exists_lower_pass (p := p) hsubject hroles
      exact ⟨d, hd, hlowered, fun h => absurd h (by simp [EntryPoint.makes_eq_false (.inl hroles)])⟩
    | bracket hcall =>
      obtain ⟨d, hd, hlowered⟩ := PlannedCall.exists_lower_bracket (p := p) hcall
      exact ⟨d, hd, hlowered, fun h => absurd h (by simp [EntryPoint.makes_eq_false (.inr hcall)])⟩
  obtain ⟨calls, hcalls⟩ := exists_mapM_eq_ok fun c hc => (hlower c hc).imp fun _ h => h.1
  have hpairs := mapM_eq_ok_iff.1 hcalls
  refine ⟨calls, hcalls, ?_, hsites, fun s hs => ?_⟩
  · refine ((List.forall₂_and_left (p := (· ∈ p.calls)) _ _).2 ⟨fun _ => id, hpairs⟩).imp ?_
    rintro c d ⟨hc, hd⟩
    obtain ⟨d', hd', h⟩ := hlower c hc
    exact Except.ok.inj (hd.symm.trans hd') ▸ h
  · obtain ⟨d, hmem, hd⟩ := exists_right_of_forall₂ hpairs _ (TypeGraph.make_mem hp hs)
    obtain ⟨d', hd', -, halloc⟩ := hmake s hs _ rfl
    exact ⟨d, hmem, Except.ok.inj (hd.symm.trans hd') ▸ halloc⟩

end

/-! ## An example -/

/-- A type that refers to a type that is not known. -/
def sealed : TypeGraph where
  nodes := #[{ name := "A", fields := #[.declare "x" (.unresolved "X") none] }]

/-- An object is sent to another thread. -/
def sent : Body where
  name := "sent"
  locals := Array.replicate 2 { kind := .temp }
  paramCount := 0
  blocks := #[{
    statements := [.assign (.ofLocal 1) (.alloc 0 0 false []), .send (.const 0) (.move (.ofLocal 1)),
      .assign (.ofLocal 0) (.use (.const 0))]
    terminator := some .ret }]

theorem sealed_classify : sealed.classify 0 = .ok .unresolved :=
  TypeGraph.classify_eq_unresolved (by decide)
    ⟨0, .refl sealed 0, ⟨0, 0⟩, .declare "x" (.unresolved "X") none, "X", by decide, rfl, rfl⟩

/-- What is not fully known is treated as a changing cycle. -/
theorem strategy_of_sealed {a : Allocation} {f : BodyFacts} {s : AllocationSite} (hplan : a.Planned f sealed {} s)
    (htype : a.type = 0) : s.strategy = .symmetric := by
  have hfact : s.fact = .unresolved := Except.ok.inj (hplan.fact.symm.trans (htype ▸ sealed_classify))
  rw [AllocationSite.strategy, hplan.decision, hfact]
  rfl

theorem sent_crosses : (sent.escape {}).crosses 1 = true := by
  have hconstraints : sent.escapeConstraints {} = [.atLeast 0 .global, .atLeast 1 .global, .crosses 1] := rfl
  have hmem : 1 ∈ EscapeConstraint.crossing (sent.escapeConstraints {}) := by
    rw [hconstraints]
    exact Digraph.mem_preorder.2 ⟨1, by decide, by decide, .refl 1⟩
  exact List.contains_iff_mem.2 hmem

/-- What is sent is made in the slot pool, with both flags set. -/
theorem TypeGraph.plan_lowers_sent : ∃ p calls s, sealed.plan sent {} = .ok p ∧
    (sent.allocations.map (·.site)).Nodup ∧ p.lower = .ok calls ∧ s ∈ p.sites ∧ s.decision.atomic = true ∧
    s.strategy = .symmetric ∧ ∃ d ∈ calls, d.call = .slotPoolAlloc ∧ d.result = some s.place.text ∧
      (.shared, "1") ∈ d.arguments ∧ (.symmetric, "1") ∈ d.arguments := by
  obtain ⟨p, hp⟩ := TypeGraph.exists_plan (g := sealed) (b := sent) {} (by decide) (by decide)
  have hids : (sent.allocations.map (·.site)).Nodup := by decide
  obtain ⟨calls, hcalls, -, -, hmade⟩ := TypeGraph.plan_lowers hp hids
  obtain ⟨s, hs, hplan⟩ := (TypeGraph.plan_eq_ok hp).planned ⟨⟨0, 0⟩, .ofLocal 1, 0, 0, false⟩ (by decide)
  have howner : 1 ∈ s.owners := by
    rw [hplan.owners]
    exact Ownership.mem_ownersOf.2 ⟨1, rfl, .refl⟩
  have hcrosses : (sent.facts {}).crossesOf ⟨⟨0, 0⟩, .ofLocal 1, 0, 0, false⟩ s.owners = true := by
    have hempty : s.owners.isEmpty = false := by
      simpa using List.ne_nil_of_mem howner
    rw [BodyFacts.crossesOf, hempty]
    exact List.any_eq_true.2 ⟨1, howner, sent_crosses⟩
  have hstrategy := strategy_of_sealed hplan rfl
  have hatomic : s.decision.atomic = true := by
    have heq : s.decision.atomic = (true && s.strategy.isCounted) := by
      rw [AllocationSite.strategy, hplan.decision]
      simp only [RouteInput.route, BodyFacts.routeInput, hcrosses]
    rw [heq, hstrategy]
    rfl
  have hneeds : s.decision.needsHandle = true := by
    rw [hplan.decision] at hatomic ⊢
    exact RouteInput.needsHandle_of_atomic hatomic
  obtain ⟨d, hd, halloc⟩ := hmade s hs
  refine ⟨p, calls, s, hp, hids, hcalls, hs, hatomic, hstrategy, d, hd, ?_, halloc.result,
    halloc.shared.2 hatomic, halloc.symmetric.2 ⟨hneeds, hstrategy⟩⟩
  rw [halloc.call, AllocationSite.allocator, if_pos hneeds]

end Reclamation
