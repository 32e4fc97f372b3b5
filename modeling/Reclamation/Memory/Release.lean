import Std.Data.HashSet
import Reclamation.Memory.Orphans

/-!
# Releasing

Giving up a reference may take the last one from an object or a component, whose removal gives up
more. What is due is kept in lists, so that long structures need no deep recursion: objects and
components whose count has reached zero, and symmetric objects that may have become orphans. Objects
that refer to each other are removed together: references inside the group are skipped, and those that
leave it are given up when the group is gone.

Each step removes an object or a component or shortens the lists, so a release ends
(`Release.run`). It breaks off when a count would fall below zero and when it would remove an object
that is gone. Giving up a reference to an object that is gone is an error of the program, and the
release goes on without it: it keeps a record of such objects (`Release.stale`).
-/

set_option autoImplicit false

namespace Reclamation

/-- What has lost its last reference. -/
inductive Doomed where
  | object (r : Ref)
  | component (id : ComponentId)
  deriving DecidableEq, Repr

/-- A release under way. -/
structure Release where
  memory : Memory
  /-- What is to be removed, the latest first. -/
  work : List Doomed := []
  /-- Symmetric objects to which the program may refer no more, the latest first. -/
  candidates : List Ref := []
  /-- How many objects were removed. -/
  freed : Nat := 0
  /-- Objects that were gone when a reference to them was given up, the latest first. -/
  stale : List Ref := []

/-- One reference less. Below zero a count that threads share goes around, and any other breaks
off. -/
def lowered? (shared : Bool) (count : UInt32) : Option UInt32 :=
  if count = 0 && !shared then none else some (count - 1)

namespace Memory

/-- The component that keeps the count of an object: the one it belongs to, while that is live. -/
def countingComponent? (m : Memory) (o : Object) : Option ComponentId :=
  o.component.filter m.components.isLive

/-- Take a reference for the program. Objects in arenas are not counted. -/
def acquire (m : Memory) (r : Ref) : Memory :=
  match m.object? r with
  | none => m
  | some o =>
    if o.arena?.isSome then m
    else
      match m.countingComponent? o with
      | some id => { m with components := m.components.raise id }
      | none => m.update r fun o => { o with count := o.count + 1 }

/-- Take objects out of memory one after the other. One that is gone cannot be taken out again. -/
def removeAll? (m : Memory) (members : List Ref) : Option Memory :=
  members.foldlM (fun m r => if m.isLive r then some (m.remove r) else none) m

/-- Take a reference for a strong field. -/
def acquireEdge (m : Memory) (r : Ref) : Memory :=
  if (m.object? r).any (·.symmetric) then
    m.update r fun o => { o with internal := o.internal + 1 }
  else m.acquire r

end Memory

namespace Release

/-! ## Giving up references -/

/-- Lower the count of a component. -/
def lowerComponent (s : Release) (id : ComponentId) : Release :=
  let s := { s with memory.components := s.memory.components.lower id }
  if s.memory.components.external? id = some 0 then
    { s with work := .component id :: s.work }
  else s

/-- Give up a reference to an object that counts all its references alike. -/
def dropCount (s : Release) (r : Ref) (o : Object) : Option Release :=
  match s.memory.countingComponent? o with
  | some id => some (s.lowerComponent id)
  | none =>
    (lowered? o.shared o.count).map fun count =>
      let s := { s with memory := s.memory.update r fun o => { o with count } }
      if count = 0 then { s with work := .object r :: s.work } else s

/-- Give up the reference of a strong field. If the object is gone, that goes on record. -/
def dropEdge (s : Release) (r : Ref) : Option Release :=
  match s.memory.object? r with
  | none => some { s with stale := r :: s.stale }
  | some o =>
    if o.arena?.isSome then some s
    else if o.symmetric then
      (lowered? o.shared o.internal).map fun internal =>
        let s := { s with memory := s.memory.update r fun o => { o with internal } }
        if o.count = 0 then { s with candidates := r :: s.candidates } else s
    else s.dropCount r o

/-- Give up a reference of the program. If the object is gone, that goes on record. -/
def dropRef (s : Release) (r : Ref) : Option Release :=
  match s.memory.object? r with
  | none => some { s with stale := r :: s.stale }
  | some o =>
    if o.arena?.isSome then some s
    else if o.symmetric then
      (lowered? o.shared o.count).map fun count =>
        let s := { s with memory := s.memory.update r fun o => { o with count } }
        if count = 0 then { s with candidates := r :: s.candidates } else s
    else s.dropCount r o

/-- What the strong fields of a group of objects refer to outside it. -/
def targetsOutside (s : Release) (members : List Ref) : List Ref :=
  let set := Std.HashSet.ofList members
  (members.flatMap s.memory.strongTargets).filter (!set.contains ·)

/-- Remove a group of objects, and give up what their strong fields refer to outside it. -/
def discard (s : Release) (members : List Ref) : Option Release :=
  (s.memory.removeAll? members).bind fun memory =>
    (s.targetsOutside members).foldlM dropEdge { s with memory, freed := s.freed + members.length }

/-! ## How much is left -/

/-- How many objects and components could still be removed. -/
def weight (s : Release) : Nat :=
  s.memory.population + s.memory.components.liveEntries

theorem weight_dropCount {s t : Release} {r : Ref} {o : Object} (h : s.dropCount r o = some t) :
    t.weight = s.weight := by
  unfold dropCount at h
  split at h
  · rename_i id _
    have hlow : (s.memory.components.lower id).liveEntries = s.memory.components.liveEntries :=
      ComponentRegistry.liveEntries_update _ _ fun _ => rfl
    have ht := Option.some.inj h
    subst ht
    unfold lowerComponent weight
    dsimp only
    split <;> · show s.memory.population + _ = _; rw [hlow]
  · simp only [Option.map_eq_some_iff] at h
    obtain ⟨n, -, ht⟩ := h
    subst ht
    unfold weight
    split <;> simp only [Memory.population_update] <;> rfl

theorem weight_dropEdge {s t : Release} {r : Ref} (h : s.dropEdge r = some t) :
    t.weight = s.weight := by
  unfold dropEdge at h
  split at h
  · rw [← Option.some.inj h]
    rfl
  · split at h
    · rw [Option.some.inj h]
    · split at h
      · simp only [Option.map_eq_some_iff] at h
        obtain ⟨n, -, ht⟩ := h
        subst ht
        unfold weight
        split <;> simp only [Memory.population_update] <;> rfl
      · exact weight_dropCount h

theorem weight_dropEdges {targets : List Ref} {s t : Release}
    (h : targets.foldlM dropEdge s = some t) : t.weight = s.weight := by
  induction targets generalizing s with
  | nil => rw [← Option.some.inj h]
  | cons r rest ih =>
    rw [List.foldlM_cons] at h
    obtain ⟨u, hu, hrest⟩ := Option.bind_eq_some_iff.1 h
    rw [ih hrest, weight_dropEdge hu]

/-- Taking out a group takes out each of its members. -/
theorem weight_removeAll? {members : List Ref} {m m' : Memory} (h : m.removeAll? members = some m') :
    m'.population + members.length = m.population ∧ m'.components = m.components := by
  induction members generalizing m with
  | nil =>
    obtain rfl := Option.some.inj h
    exact ⟨rfl, rfl⟩
  | cons r rest ih =>
    obtain ⟨n, hn, hrest⟩ := Option.bind_eq_some_iff.1 ((List.foldlM_cons ..).symm.trans h)
    simp only [Option.ite_none_right_eq_some, Option.some.injEq] at hn
    obtain ⟨hr, rfl⟩ := hn
    obtain ⟨hpopulation, hcomponents⟩ := ih hrest
    have hone := Memory.population_remove hr
    refine ⟨?_, hcomponents.trans (m.components_remove r)⟩
    rw [List.length_cons]
    omega

/-- Discarding removes an object or does nothing. -/
theorem weight_discard {s t : Release} {members : List Ref} (h : s.discard members = some t) :
    t.weight < s.weight ∨ t = s := by
  cases members with
  | nil => exact .inr (Option.some.inj h).symm
  | cons r rest =>
    obtain ⟨m, hm, hdrops⟩ := Option.bind_eq_some_iff.1 h
    obtain ⟨hpopulation, hcomponents⟩ := weight_removeAll? hm
    refine .inl ?_
    rw [weight_dropEdges hdrops]
    unfold weight
    dsimp only
    rw [hcomponents]
    simp only [List.length_cons] at hpopulation
    omega

/-! ## Running a release -/

/-- Remove a component and its members. -/
def endComponent (s : Release) (id : ComponentId) : Option Release :=
  let members := (s.memory.components.members? id).getD []
  let s := { s with memory.components := s.memory.components.take id }
  (s.discard members).map fun s =>
    { s with memory.stats.componentsReleased := s.memory.stats.componentsReleased + 1 }

theorem weight_endComponent {s t : Release} {id : ComponentId}
    (hlive : s.memory.components.isLive id = true) (h : s.endComponent id = some t) :
    t.weight < s.weight := by
  unfold endComponent at h
  simp only [Option.map_eq_some_iff] at h
  obtain ⟨u, hu, ht⟩ := h
  subst ht
  have htake := ComponentRegistry.liveEntries_take hlive
  have hw : u.weight ≤ s.memory.population + (s.memory.components.take id).liveEntries := by
    rcases weight_discard hu with hlt | heq
    · exact Nat.le_of_lt hlt
    · subst heq
      exact Nat.le_refl _
  show u.weight < _
  unfold weight at hw ⊢
  omega

/-- Remove all that is due, until nothing is. -/
def run (s : Release) : Option Release :=
  match _hw : s.work with
  | .object r :: work =>
    match _hd : ({ s with work } : Release).discard [r] with
    | none => none
    | some s => s.run
  | .component id :: work =>
    if _hlive : s.memory.components.isLive id then
      match _hd : ({ s with work } : Release).endComponent id with
      | none => none
      | some s => s.run
    else ({ s with work } : Release).run
  | [] =>
    match _hc : s.candidates with
    | [] => some s
    | r :: rest =>
      match _hd : ({ s with candidates := [] } : Release).discard
          (s.memory.orphans (r :: rest)) with
      | none => none
      | some s => s.run
termination_by (s.weight, s.work.length + s.candidates.length)
decreasing_by
  · rcases weight_discard _hd with hlt | heq
    · exact Prod.Lex.left _ _ hlt
    · subst heq
      refine lex_of_le_of_lt (Nat.le_refl _) ?_
      simp [_hw]
  · have hlt := weight_endComponent (by exact _hlive) _hd
    exact Prod.Lex.left _ _ hlt
  · refine lex_of_le_of_lt (Nat.le_refl _) ?_
    simp [_hw]
  · rcases weight_discard _hd with hlt | heq
    · exact Prod.Lex.left _ _ hlt
    · subst heq
      refine lex_of_le_of_lt (Nat.le_refl _) ?_
      simp [_hc]

end Release

/-- The outcome of a release, with a value read off it at the end. -/
def Outcome.ofRelease {α : Type} (value : Release → α) : Option Release → Outcome α
  | none => .broken
  | some s => .done s.memory (value s)

end Reclamation
