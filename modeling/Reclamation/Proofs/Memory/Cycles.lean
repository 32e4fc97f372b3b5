import Mathlib
import Reclamation.Proofs.Memory.Programs

/-!
# What freezing an object makes of the cycles behind it

The objects behind an eligible one fall into classes that reach each other. Those classes that are cycles become
components, each of one id, the sinks first (`Memory.Registered`). If the object stays referenced then none of these
components is without references from outside (`externalCount_ne_zero`), so nothing is released and all else is as
before (`freeze_registers_cycles`).
-/

set_option autoImplicit false

namespace Reclamation

namespace Memory

variable {m m' : Memory} {root x y : Ref} {g : List Ref}

/-! ## The cycles behind an object -/

/-- A strong field of one object refers to the other, which can become the member of a component. -/
def Leads (m : Memory) (x y : Ref) : Prop :=
  y ∈ m.strongTargets x ∧ m.isEligible y = true

/-- One can get from one object to the other through objects that can become members. -/
def Behind (m : Memory) : Ref → Ref → Prop :=
  Relation.ReflTransGen m.Leads

/-- Each of two objects is behind the other. -/
def Knotted (m : Memory) (x y : Ref) : Prop :=
  m.Behind x y ∧ m.Behind y x

/-- An object behind the root is not alone in its class or refers to itself. -/
def OnCycle (m : Memory) (root x : Ref) : Prop :=
  m.Behind root x ∧ ((∃ y, y ≠ x ∧ m.Knotted x y) ∨ x ∈ m.strongTargets x)

/-- Where no way is new, no object is newly on a cycle. -/
theorem OnCycle.of_behind (h : m'.OnCycle root x) (hbehind : ∀ {x y}, m'.Behind x y → m.Behind x y)
    (htargets : x ∈ m'.strongTargets x → x ∈ m.strongTargets x) : m.OnCycle root x := by
  refine ⟨hbehind h.1, ?_⟩
  rcases h.2 with ⟨y, hne, hxy, hyx⟩ | hself
  · exact .inl ⟨y, hne, hbehind hxy, hbehind hyx⟩
  · exact .inr (htargets hself)

theorem reaches_eligibleLinks_iff : m.eligibleLinks.graph.Reaches x y ↔ m.Behind x y := by
  constructor
  · intro h
    induction h with
    | refl => exact .refl
    | step hedge _ ih => exact .head (eligibleLinks_edge_iff.1 hedge) ih
  · intro h
    induction h using Relation.ReflTransGen.head_induction_on with
    | refl => exact .refl y
    | head hlead _ ih => exact .step (eligibleLinks_edge_iff.2 hlead) ih

theorem mutual_eligibleLinks_iff : m.eligibleLinks.graph.Mutual x y ↔ m.Knotted x y :=
  and_congr reaches_eligibleLinks_iff reaches_eligibleLinks_iff

theorem isEligible_of_behind (h : m.Behind x y) (hx : m.isEligible x = true) : m.isEligible y = true :=
  isEligible_of_reaches (reaches_eligibleLinks_iff.2 h) hx

theorem mem_cyclesFrom (hroot : m.isEligible root = true) :
    g ∈ m.cyclesFrom root ↔ g ∈ m.eligibleLinks.components [root] ∧ m.isCycle g = true := by
  rw [cyclesFrom, if_pos hroot, List.mem_filter]

theorem mem_component_iff (hg : g ∈ m.eligibleLinks.components [root]) (hx : x ∈ g) : y ∈ g ↔ m.Knotted x y :=
  (Links.mem_component_iff hg hx).trans mutual_eligibleLinks_iff

/-- A class is a cycle if it has two members or one that refers to itself. -/
theorem isCycle_iff (hg : g ∈ m.eligibleLinks.components [root]) (hx : x ∈ g) :
    m.isCycle g = true ↔ (∃ y, y ≠ x ∧ m.Knotted x y) ∨ x ∈ m.strongTargets x := by
  rw [isCycle, innerReferences_eq_countP, Bool.or_eq_true, bne_iff_ne, bne_iff_ne]
  constructor
  · intro h
    by_cases hother : ∃ y ∈ g, y ≠ x
    · obtain ⟨y, hy, hne⟩ := hother
      exact .inl ⟨y, hne, (mem_component_iff hg hx).1 hy⟩
    · push Not at hother
      have hsingle : g = [x] := by
        refine List.perm_singleton.1 ?_
        refine (List.perm_ext_iff_of_nodup (Links.component_nodup hg) (List.nodup_singleton x)).2 fun y => ?_
        rw [List.mem_singleton]
        exact ⟨hother y, fun he => he ▸ hx⟩
      subst hsingle
      have hinner := h.resolve_left (by simp)
      obtain ⟨y, hy, hmem⟩ := Multiset.countP_pos.1 (Nat.pos_of_ne_zero hinner)
      rw [List.mem_singleton.1 hmem] at hy
      simpa using Or.inr hy
  · rintro (⟨y, hne, hy⟩ | hself)
    · refine .inl fun hlength => hne ?_
      obtain ⟨z, rfl⟩ := List.length_eq_one_iff.1 hlength
      have hyz := (mem_component_iff hg hx).2 hy
      rw [List.mem_singleton.1 hyz, List.mem_singleton.1 hx]
    · refine .inr (Nat.pos_iff_ne_zero.1 (Multiset.countP_pos.2 ⟨x, ?_, hx⟩))
      exact List.mem_flatMap.2 ⟨x, hx, hself⟩

theorem onCycle_iff (hroot : m.isEligible root = true) : m.OnCycle root x ↔ ∃ g ∈ m.cyclesFrom root, x ∈ g := by
  constructor
  · rintro ⟨hbehind, hcycle⟩
    obtain ⟨o, ho, -⟩ := isEligible_iff.1 hroot
    have hlt : root < m.eligibleLinks.size := lt_size_of_isLive (isLive_of_object? ho)
    obtain ⟨g, hg, hx⟩ := Links.exists_component_iff.2
      ⟨root, List.mem_singleton_self root, hlt, reaches_eligibleLinks_iff.2 hbehind⟩
    exact ⟨g, (mem_cyclesFrom hroot).2 ⟨hg, (isCycle_iff hg hx).2 hcycle⟩, hx⟩
  · rintro ⟨g, hg, hx⟩
    obtain ⟨hg, hcycle⟩ := (mem_cyclesFrom hroot).1 hg
    obtain ⟨r, hr, -, hreach⟩ := Links.exists_component_iff.1 ⟨g, hg, hx⟩
    rw [List.mem_singleton.1 hr] at hreach
    exact ⟨reaches_eligibleLinks_iff.1 hreach, (isCycle_iff hg hx).1 hcycle⟩

theorem exists_mem_of_mem_cyclesFrom (hroot : m.isEligible root = true) (hg : g ∈ m.cyclesFrom root) :
    ∃ x, x ∈ g ∧ m.OnCycle root x := by
  obtain ⟨r, hr⟩ := Links.exists_mem_of_mem_components ((mem_cyclesFrom hroot).1 hg).1
  exact ⟨r, hr, (onCycle_iff hroot).2 ⟨g, hg, hr⟩⟩

theorem cyclesFrom_sinks_first (hroot : m.isEligible root = true) :
    (m.cyclesFrom root).Pairwise fun g g' => ∀ x ∈ g, ∀ y ∈ g', ¬ m.Behind x y := by
  rw [cyclesFrom, if_pos hroot]
  refine (Links.components_sinks_first.filter _).imp fun h x hx y hy hbehind => ?_
  exact h x hx y hy (reaches_eligibleLinks_iff.2 hbehind)

theorem cyclesFrom_eq_nil (h : m.isEligible root = true → ∀ x, ¬ m.OnCycle root x) : m.cyclesFrom root = [] := by
  by_cases hroot : m.isEligible root = true
  · refine List.eq_nil_iff_forall_not_mem.2 fun g hg => ?_
    obtain ⟨x, -, hcycle⟩ := exists_mem_of_mem_cyclesFrom hroot hg
    exact h hroot x hcycle
  · rw [cyclesFrom, if_neg hroot]

/-! ## Groups become components -/

/-- What becomes of memory when groups become the components of the ids. -/
structure Registered (m : Memory) (groups : List (List Ref)) (ids : List ComponentId) (m' : Memory) : Prop where
  nodup : ids.Nodup
  fresh : ∀ id ∈ ids, m.components.entry? id = none
  members : ids.map m'.components.members? = groups.map some
  external : ids.map m'.components.external? = groups.map fun g => some (m.externalCount g)
  /-- Each needs at most one entry more. -/
  size : m'.components.entries.size ≤ m.components.entries.size + ids.length
  others : ∀ id, id ∉ ids → m'.components.entry? id = m.components.entry? id
  marked : ∀ id ∈ ids, ∀ g, m'.components.members? id = some g → ∀ x ∈ g,
    m'.object? x = (m.object? x).map (marked id)
  unmarked : ∀ x, (∀ g ∈ groups, x ∉ g) → m'.object? x = m.object? x
  rest : m' = { m with
    cells := m'.cells, components := m'.components
    stats.componentsFrozen := m.stats.componentsFrozen + ids.length }

namespace Registered

variable {groups : List (List Ref)} {ids : List ComponentId}

theorem nil (m : Memory) : Registered m [] [] m where
  nodup := List.nodup_nil
  fresh := by simp
  members := rfl
  external := rfl
  size := Nat.le_refl _
  others _ _ := rfl
  marked := by simp
  unmarked _ _ := rfl
  rest := rfl

theorem length_eq (h : Registered m groups ids m') : ids.length = groups.length := by
  have hlength := congrArg List.length h.members
  rwa [List.length_map, List.length_map] at hlength

theorem exists_group (h : Registered m groups ids m') {id : ComponentId} (hid : id ∈ ids) :
    ∃ g ∈ groups, m'.components.members? id = some g := by
  have hmem : m'.components.members? id ∈ groups.map some := h.members ▸ List.mem_map_of_mem hid
  obtain ⟨g, hg, he⟩ := List.mem_map.1 hmem
  exact ⟨g, hg, he.symm⟩

theorem exists_id (h : Registered m groups ids m') (hg : g ∈ groups) :
    ∃ id ∈ ids, m'.components.members? id = some g := by
  have hmem : some g ∈ ids.map m'.components.members? := h.members ▸ List.mem_map_of_mem hg
  exact List.mem_map.1 hmem

theorem pairwise (h : Registered m groups ids m') {P : List Ref → List Ref → Prop} (hgroups : groups.Pairwise P) :
    ids.Pairwise fun id id' => ∀ g g', m'.components.members? id = some g →
      m'.components.members? id' = some g' → P g g' := by
  have hsome : (groups.map some).Pairwise fun a b => ∀ g g', a = some g → b = some g' → P g g' := by
    refine List.pairwise_map.2 (hgroups.imp fun hP g g' hg hg' => ?_)
    rwa [← Option.some.inj hg, ← Option.some.inj hg']
  rw [← h.members] at hsome
  exact List.pairwise_map.1 hsome

end Registered

end Memory

namespace Release

variable {s : Release} {g : List Ref} {components : ComponentRegistry} {id : ComponentId}

theorem components_frozen : (s.frozen g components id).memory.components = components :=
  Memory.components_markFrozen id g { s.memory with components }

/-- How often a group is referred to from outside is the same when another one is frozen. -/
theorem externalCount_frozen (group : List Ref) :
    (s.frozen g components id).memory.externalCount group = s.memory.externalCount group := by
  have hsame : (({ s.memory with components } : Memory).markFrozen g id).externalCount group =
      s.memory.externalCount group := by
    rw [Memory.externalCount, Memory.totalCount_markFrozen, Memory.innerReferences_markFrozen]
    rfl
  exact hsame

end Release

namespace Memory

variable {m m' : Memory} {g : List Ref}

/-- One group more in front. -/
theorem Registered.cons {s : Release} {groups : List (List Ref)} {ids : List ComponentId}
    {components : ComponentRegistry} {id : ComponentId} (hsound : s.memory.components.Sound)
    (hsize : s.memory.components.entries.size < s.memory.components.capacity →
      s.memory.components.entries.size + 1 < UInt32.size)
    (hdisjoint : ∀ g' ∈ groups, List.Disjoint g g')
    (hreg : s.memory.components.register? g (s.memory.externalCount g) = some (components, id))
    (h : Registered (s.frozen g components id).memory groups ids m') :
    Registered s.memory (g :: groups) (id :: ids) m' := by
  obtain ⟨hfresh, ⟨e, he, hmembers, hexternal⟩, hothers⟩ := ComponentRegistry.entry?_register hsound hsize hreg
  have hcomponents : (s.frozen g components id).memory.components = components := Release.components_frozen
  have hobject : ∀ x, (s.frozen g components id).memory.object? x =
      if x ∈ g then (s.memory.object? x).map (Memory.marked id) else s.memory.object? x :=
    fun x => object?_markFrozen id x g { s.memory with components }
  have hnot : id ∉ ids := fun hid => by
    have hnone := h.fresh id hid
    rw [hcomponents, he] at hnone
    exact absurd hnone (by simp)
  have hfirst : m'.components.members? id = some g := by
    rw [ComponentRegistry.members?, h.others id hnot, hcomponents, he, Option.map_some, hmembers]
  have hcount : m'.components.external? id = some (s.memory.externalCount g) := by
    rw [ComponentRegistry.external?, h.others id hnot, hcomponents, he, Option.map_some, hexternal]
  refine
    { nodup := List.nodup_cons.2 ⟨hnot, h.nodup⟩
      fresh := fun id' hid' => ?_
      members := by rw [List.map_cons, List.map_cons, hfirst, h.members]
      external := by
        rw [List.map_cons, List.map_cons, hcount, h.external]
        simp only [Release.externalCount_frozen]
      size := ?_
      others := fun id' hid' => ?_
      marked := fun id' hid' g' hg' x hx => ?_
      unmarked := fun x hx => ?_
      rest := ?_ }
  · rcases List.mem_cons.1 hid' with rfl | hid'
    · exact hfresh
    · have hne : id' ≠ id := fun he => hnot (he ▸ hid')
      rw [← hothers id' hne, ← hcomponents]
      exact h.fresh id' hid'
  · have hold := (hsound.register hsize hreg).2.1
    have hnew := h.size
    rw [hcomponents] at hnew
    rw [List.length_cons]
    omega
  · rw [h.others id' fun hmem => hid' (List.mem_cons_of_mem _ hmem), hcomponents]
    exact hothers id' fun he => hid' (he ▸ List.mem_cons_self)
  · rcases List.mem_cons.1 hid' with rfl | hid'
    · obtain rfl := Option.some.inj (hfirst.symm.trans hg')
      rw [h.unmarked x fun g' hg' hx' => hdisjoint g' hg' hx hx', hobject, if_pos hx]
    · obtain ⟨g'', hmem, hg''⟩ := h.exists_group hid'
      obtain rfl := Option.some.inj (hg''.symm.trans hg')
      rw [h.marked id' hid' g'' hg' x hx, hobject, if_neg fun hx' => hdisjoint g'' hmem hx' hx]
  · rw [h.unmarked x fun g' hg' => hx g' (List.mem_cons_of_mem _ hg'), hobject, if_neg (hx g List.mem_cons_self)]
  · have hmarked := markFrozen_eq id g { s.memory with components }
    have hrest := h.rest
    unfold Release.frozen at hrest
    rw [hmarked] at hrest
    rw [List.length_cons, Nat.add_comm ids.length, ← Nat.add_assoc]
    exact hrest

end Memory

namespace Release

open Memory

variable {s : Release}

/-- Freezing groups that are all referred to from outside makes each a component and releases nothing. -/
theorem registered_freezeAll : ∀ {groups : List (List Ref)} {s : Release}, s.memory.components.Sound →
    groups.Pairwise List.Disjoint →
    min s.memory.components.capacity (s.memory.components.entries.size + groups.length) < UInt32.size →
    (∀ g ∈ groups, s.memory.externalCount g ≠ 0) → (freezeAll groups s).2.2 = none →
      Registered s.memory groups (freezeAll groups s).2.1 (freezeAll groups s).1.memory ∧
        (freezeAll groups s).1 = { s with memory := (freezeAll groups s).1.memory } := by
  intro groups
  induction groups with
  | nil => exact fun _ _ _ _ _ => ⟨.nil _, rfl⟩
  | cons g groups ih =>
    intro s hsound hdisjoint hroom hexternal hdone
    rw [List.length_cons] at hroom
    obtain ⟨hfirst, hdisjoint⟩ := List.pairwise_cons.1 hdisjoint
    cases hreg : s.memory.components.register? g (s.memory.externalCount g) with
    | none =>
      rw [freezeAll_cons_of_full hreg] at hdone
      exact absurd hdone (by simp)
    | some new =>
      obtain ⟨components, id⟩ := new
      have hsize : s.memory.components.entries.size < s.memory.components.capacity →
          s.memory.components.entries.size + 1 < UInt32.size := fun hlt => by omega
      obtain ⟨hsound', hsizes, hcapacity⟩ := hsound.register hsize hreg
      have hcomponents : (s.frozen g components id).memory.components = components := components_frozen
      have hexternal' : ∀ g' ∈ groups, (s.frozen g components id).memory.externalCount g' ≠ 0 := fun g' hg' => by
        rw [externalCount_frozen]
        exact hexternal g' (List.mem_cons_of_mem _ hg')
      have hwork : (s.frozen g components id) = { s with memory := (s.frozen g components id).memory } := by
        unfold frozen
        rw [if_neg (hexternal g List.mem_cons_self)]
      rw [freezeAll_cons_of_register hreg] at hdone ⊢
      obtain ⟨hregistered, hsame⟩ := ih (by rwa [hcomponents]) hdisjoint (by rw [hcomponents]; omega) hexternal' hdone
      refine ⟨hregistered.cons hsound hsize hfirst hreg, ?_⟩
      dsimp only
      rw [hsame, hwork]

end Release

/-! ## What stays referenced -/

namespace Memory

variable {m m' : Memory} {held lost : Multiset Ref} {root x y : Ref} {g : List Ref} {ids : List ComponentId}

/-- Somebody refers to the class of an object from outside it: the program, a decrement that waits or a field. -/
def StaysReferenced (m : Memory) (held : Multiset Ref) (root : Ref) : Prop :=
  ∃ x, m.Knotted root x ∧ (x ∈ held + ↑m.deferred ∨ ∃ y, ¬ m.Knotted root y ∧ x ∈ m.strongTargets y)

/-- A way into a group has a field that refers to a member from outside. -/
theorem exists_outside_of_behind (h : m.Behind x y) (hx : x ∉ g) (hy : y ∈ g) : ∃ z ∈ g, z ∈ m.referencesOutside g := by
  induction h using Relation.ReflTransGen.head_induction_on with
  | refl => exact absurd hy hx
  | @head x z hlead _ ih =>
    by_cases hz : z ∈ g
    · exact ⟨z, hz, mem_referencesOutside.2 ⟨x, hx, hlead.1⟩⟩
    · exact ih hz

/-- No cycle behind an object that stays referenced is without references from outside. -/
theorem Consistent.externalCount_ne_zero (h : m.Consistent held lost) (hroot : m.isEligible root = true)
    (hstays : m.StaysReferenced held root) (hg : g ∈ m.cyclesFrom root) : m.externalCount g ≠ 0 := by
  have hcount := h.balanced.totalCount_sub_innerReferences (by simp) (nodup_of_mem_cyclesFrom hg)
    fun x hx => isEligible_of_mem_cyclesFrom hg hx
  rw [externalCount, hcount]
  refine Nat.pos_iff_ne_zero.1 (Nat.lt_min.2 ⟨Multiset.countP_pos.2 ?_, by decide⟩)
  by_cases hmem : root ∈ g
  · have hclass : ∀ y, y ∈ g ↔ m.Knotted root y := fun y => mem_component_iff ((mem_cyclesFrom hroot).1 hg).1 hmem
    obtain ⟨x, hx, hreferenced⟩ := hstays
    refine ⟨x, ?_, (hclass x).2 hx⟩
    rcases hreferenced with hheld | ⟨y, hy, hfield⟩
    · simp only [Multiset.mem_add] at hheld ⊢
      tauto
    · exact Multiset.mem_add.2 (.inr (mem_referencesOutside.2 ⟨y, fun hin => hy ((hclass y).1 hin), hfield⟩))
  · obtain ⟨x, hx, hcycle⟩ := exists_mem_of_mem_cyclesFrom hroot hg
    obtain ⟨z, hz, hfield⟩ := exists_outside_of_behind hcycle.1 hmem hx
    exact ⟨z, Multiset.mem_add.2 (.inr hfield), hz⟩

/-! ## Freezing -/

/-- What freezing makes of memory. -/
structure Froze (m : Memory) (held : Multiset Ref) (root : Ref) (ids : List ComponentId) (m' : Memory) : Prop where
  nodup : ids.Nodup
  fresh : ∀ id ∈ ids, m.components.isLive id = false
  /-- The members of a component are a class that is a cycle. -/
  members : ∀ id ∈ ids, ∃ x g, m.OnCycle root x ∧ m'.components.members? id = some g ∧ g.Nodup ∧
    ∀ y, y ∈ g ↔ m.Knotted x y
  /-- Each class that is a cycle has one component. -/
  covers : ∀ x, m.OnCycle root x → ∃! id, id ∈ ids ∧ ∃ g, m'.components.members? id = some g ∧ x ∈ g
  sinksFirst : ids.Pairwise fun id id' => ∀ g g', m'.components.members? id = some g →
    m'.components.members? id' = some g' → ∀ x ∈ g, ∀ y ∈ g', ¬ m.Behind x y
  external : ∀ id ∈ ids, ∀ g, m'.components.members? id = some g → m'.components.external? id =
    some ((held + ↑m.deferred).countP (· ∈ g) + (m.referencesOutside g).countP (· ∈ g))
  others : ∀ id, id ∉ ids → m'.components.entry? id = m.components.entry? id
  marked : ∀ id ∈ ids, ∀ g, m'.components.members? id = some g → ∀ x ∈ g, ∃ o, m.object? x = some o ∧
    m'.object? x = some { o with component := some id, frozen := true }
  unmarked : ∀ x, ¬ m.OnCycle root x → m'.object? x = m.object? x
  rest : m' = { m with
    cells := m'.cells, components := m'.components
    stats.componentsFrozen := m.stats.componentsFrozen + ids.length }

namespace Registered

variable {groups : List (List Ref)}

/-- An object is as before or the member of a component. -/
theorem object?_cases (h : Registered m groups ids m') (x : Ref) :
    m'.object? x = m.object? x ∨ ∃ id, m'.object? x = (m.object? x).map (Memory.marked id) := by
  by_cases hgroup : ∃ g ∈ groups, x ∈ g
  · obtain ⟨g, hg, hx⟩ := hgroup
    obtain ⟨id, hid, hmembers⟩ := h.exists_id hg
    exact .inr ⟨id, h.marked id hid g hmembers x hx⟩
  · push Not at hgroup
    exact .inl (h.unmarked x hgroup)

theorem strongTargets (h : Registered m groups ids m') (x : Ref) : m'.strongTargets x = m.strongTargets x := by
  rw [Memory.strongTargets, Memory.strongTargets]
  rcases h.object?_cases x with he | ⟨id, he⟩
  · rw [he]
  · rw [he]
    cases m.object? x <;> rfl

theorem isLive (h : Registered m groups ids m') : m'.isLive x = m.isLive x := by
  rw [Memory.isLive, Memory.isLive]
  rcases h.object?_cases x with he | ⟨id, he⟩
  · rw [he]
  · rw [he, Option.isSome_map]

theorem isEligible (h : Registered m groups ids m') (hx : m'.isEligible x = true) : m.isEligible x = true := by
  rcases h.object?_cases x with he | ⟨id, he⟩
  · rwa [Memory.isEligible, he] at hx
  · rw [Memory.isEligible, he] at hx
    cases ho : m.object? x with
    | none => simp [ho] at hx
    | some o => simp [ho, Memory.marked] at hx

theorem behind (h : Registered m groups ids m') (hxy : m'.Behind x y) : m.Behind x y := by
  refine Relation.ReflTransGen.mono (fun a b hlead => ?_) x y hxy
  exact ⟨h.strongTargets a ▸ hlead.1, h.isEligible hlead.2⟩

/-- A member can not become the member of another component. -/
theorem not_isEligible (h : Registered m groups ids m') (hg : g ∈ groups) (hx : x ∈ g) : ¬ m'.isEligible x = true := by
  intro heligible
  obtain ⟨id, hid, hmembers⟩ := h.exists_id hg
  obtain ⟨o, ho, -, -, hcomp⟩ := isEligible_iff.1 heligible
  rw [h.marked id hid g hmembers x hx] at ho
  obtain ⟨o', -, rfl⟩ := Option.map_eq_some_iff.1 ho
  exact absurd hcomp (by simp [Memory.marked])

/-- No cycle is left behind the root. -/
theorem cyclesFrom_eq_nil (h : Registered m (m.cyclesFrom root) ids m') : m'.cyclesFrom root = [] := by
  refine Memory.cyclesFrom_eq_nil fun hroot' x hcycle' => ?_
  have hcycle : m.OnCycle root x := hcycle'.of_behind h.behind fun hself => h.strongTargets x ▸ hself
  obtain ⟨g, hg, hx⟩ := (onCycle_iff (h.isEligible hroot')).1 hcycle
  exact h.not_isEligible hg hx (isEligible_of_behind hcycle'.1 hroot')

theorem froze (h : Registered m (m.cyclesFrom root) ids m') (hroot : m.isEligible root = true)
    (hcounted : m'.Counted held) : Froze m held root ids m' where
  nodup := h.nodup
  fresh id hid := by rw [ComponentRegistry.isLive, h.fresh id hid]; rfl
  members id hid := by
    obtain ⟨g, hg, hmembers⟩ := h.exists_group hid
    obtain ⟨x, hx, hcycle⟩ := exists_mem_of_mem_cyclesFrom hroot hg
    exact ⟨x, g, hcycle, hmembers, nodup_of_mem_cyclesFrom hg, fun y =>
      mem_component_iff (mem_components_of_mem_cyclesFrom hg).2 hx⟩
  covers x hcycle := by
    obtain ⟨g, hg, hx⟩ := (onCycle_iff hroot).1 hcycle
    obtain ⟨id, hid, hmembers⟩ := h.exists_id hg
    refine ⟨id, ⟨hid, g, hmembers, hx⟩, ?_⟩
    rintro id' ⟨hid', g', hmembers', hx'⟩
    -- the member itself knows which component it belongs to
    obtain ⟨o, ho, -⟩ := isEligible_iff.1 (isEligible_of_behind hcycle.1 hroot)
    have hmarked := h.marked id hid g hmembers x hx
    rw [h.marked id' hid' g' hmembers' x hx', ho] at hmarked
    exact Option.some.inj (congrArg Object.component (Option.some.inj hmarked))
  sinksFirst := h.pairwise (cyclesFrom_sinks_first hroot)
  external id hid g hmembers := by
    obtain ⟨e, he, rfl⟩ := Option.map_eq_some_iff.1 hmembers
    have hdeferred : m'.deferred = m.deferred := by rw [h.rest]
    rw [ComponentRegistry.external?, he, Option.map_some, hcounted.component id e he, hdeferred,
      referencesOutside_congr h.strongTargets]
  others := h.others
  marked id hid g hmembers x hx := by
    obtain ⟨g', hg', hmembers'⟩ := h.exists_group hid
    obtain rfl := Option.some.inj (hmembers'.symm.trans hmembers)
    have hcycle := (onCycle_iff hroot).2 ⟨g', hg', hx⟩
    obtain ⟨o, ho, -⟩ := isEligible_iff.1 (isEligible_of_behind hcycle.1 hroot)
    refine ⟨o, ho, ?_⟩
    rw [h.marked id hid g' hmembers x hx, ho]
    rfl
  unmarked x hcycle := h.unmarked x fun g hg hx => hcycle ((onCycle_iff hroot).2 ⟨g, hg, hx⟩)
  rest := h.rest

end Registered

/-- Freezing an object that stays referenced makes the cycles behind it components and does nothing else. -/
theorem Consistent.registered (h : m.Consistent held lost) (hop : (Operation.freeze root).Allowed m held)
    (hroot : m.isEligible root = true) (hstays : m.StaysReferenced held root) (hfreeze : m.freeze root = .done m' ids) :
    Registered m (m.cyclesFrom root) ids m' ∧ m'.Consistent held lost := by
  obtain ⟨-, hfits, hroom⟩ := hop
  obtain ⟨t, -, hrun, hconsistent, -⟩ := (h.freeze hfits hroom).ends
  rw [← h.capacity, ← min_lt_iff] at hroom
  rw [Memory.freeze] at hfreeze
  dsimp only at hfreeze
  rw [hrun] at hfreeze
  cases hfault : (Release.freezeAll (m.cyclesFrom root) { memory := m }).2.2 with
  | some fault =>
    rw [hfault] at hfreeze
    exact absurd hfreeze (by simp)
  | none =>
    rw [hfault] at hfreeze
    obtain ⟨rfl, rfl⟩ := Outcome.done.inj hfreeze
    obtain ⟨hregistered, hsame⟩ := Release.registered_freezeAll (s := { memory := m }) h.balanced.tidy.registry
      (disjoint_cyclesFrom m root) hroom (fun g hg => h.externalCount_ne_zero hroot hstays hg) hfault
    have hfinished : (Release.freezeAll (m.cyclesFrom root) { memory := m }).1.Finished := by
      rw [hsame]
      exact ⟨rfl, rfl⟩
    obtain rfl := Option.some.inj ((Release.run_of_finished hfinished).symm.trans hrun)
    exact ⟨hregistered, hconsistent⟩

theorem freeze_of_no_cycles (h : m.cyclesFrom root = []) : m.freeze root = .done m [] := by
  unfold Memory.freeze
  rw [h]
  dsimp only [Release.freezeAll]
  rw [Release.run_of_finished ⟨rfl, rfl⟩]

/-! ## With arenas beside memory -/

variable {n n' : Memory} {regions : Regions}

theorem leads_joined (hapart : regions.Apart n) : (n.joined regions).Leads x y ↔ n.Leads x y := by
  have hnone : ∀ x o, regions.objects x = some o → n.isEligible x = false := fun x o ho => by
    rw [isEligible, hapart.empty x o ho]
    rfl
  have hfilter := filter_strongTargets_joined hapart hnone x
  rw [Leads, isEligible_joined hapart, ← List.mem_filter, hfilter, List.mem_filter, Leads]

theorem behind_joined (hapart : regions.Apart n) : (n.joined regions).Behind x y ↔ n.Behind x y := by
  have hleads : (n.joined regions).Leads = n.Leads := funext₂ fun _ _ => propext (leads_joined hapart)
  rw [Behind, hleads, Behind]

theorem knotted_joined (hapart : regions.Apart n) : (n.joined regions).Knotted x y ↔ n.Knotted x y :=
  and_congr (behind_joined hapart) (behind_joined hapart)

theorem objects_eq_none_of_behind (hapart : regions.Apart n) (hroot : n.isEligible root = true)
    (h : n.Behind root x) : regions.objects x = none := by
  obtain ⟨o, ho, -⟩ := isEligible_iff.1 (isEligible_of_behind h hroot)
  exact objects_eq_none hapart ho

theorem onCycle_joined (hapart : regions.Apart n) (hroot : n.isEligible root = true) :
    (n.joined regions).OnCycle root x ↔ n.OnCycle root x := by
  unfold OnCycle
  rw [behind_joined hapart]
  simp only [knotted_joined hapart]
  refine and_congr_right fun hbehind => ?_
  rw [strongTargets_joined (objects_eq_none_of_behind hapart hroot hbehind)]

/-- Objects of arenas refer to no member of a component. -/
theorem countP_referencesOutside_joined (hapart : regions.Apart n) (hnone : ∀ x ∈ g, regions.objects x = none) :
    ((n.joined regions).referencesOutside g).countP (· ∈ g) = (n.referencesOutside g).countP (· ∈ g) := by
  have hsum : ∀ (s : Finset Ref) (f : Ref → Multiset Ref),
      (∑ y ∈ s, f y).countP (· ∈ g) = ∑ y ∈ s, (f y).countP (· ∈ g) :=
    fun s f => map_sum (Multiset.countPAddMonoidHom (· ∈ g)) f s
  rw [referencesOutside, referencesOutside, size_joined, hsum, hsum]
  refine Finset.sum_congr rfl fun y _ => ?_
  have hfilter := filter_strongTargets_joined hapart (p := fun x => decide (x ∈ g))
    (fun x o ho => decide_eq_false fun hx => by simp [hnone x hx] at ho) y
  rw [Multiset.coe_countP, Multiset.coe_countP, List.countP_eq_length_filter, List.countP_eq_length_filter, hfilter]

/-- Decrements that wait for objects of arenas concern no member of a component. -/
theorem countP_deferred_joined (hdeferred : n.deferred = regions.deferred.filter fun r => (regions.objects r).isNone)
    (hnone : ∀ x ∈ g, regions.objects x = none) :
    (↑(n.joined regions).deferred : Multiset Ref).countP (· ∈ g) = (↑n.deferred : Multiset Ref).countP (· ∈ g) := by
  rw [hdeferred, Multiset.coe_countP, Multiset.coe_countP, List.countP_filter]
  refine List.countP_congr fun x _ => ?_
  simp only [decide_eq_true_eq, Bool.and_eq_true, iff_self_and]
  intro hx
  simp [hnone x hx]

theorem staysReferenced_of_joined (hapart : regions.Apart n) (hroot : n.isEligible root = true)
    (hdeferred : n.deferred = regions.deferred.filter fun r => (regions.objects r).isNone)
    (h : (n.joined regions).StaysReferenced held root) : n.StaysReferenced held root := by
  obtain ⟨x, hx, hreferenced⟩ := h
  rw [knotted_joined hapart] at hx
  have hnone := objects_eq_none_of_behind hapart hroot hx.1
  refine ⟨x, hx, ?_⟩
  rcases hreferenced with hheld | ⟨y, hy, hfield⟩
  · left
    rw [Multiset.mem_add, Multiset.mem_coe] at hheld ⊢
    refine hheld.imp_right fun hmem => ?_
    rw [hdeferred]
    exact List.mem_filter.2 ⟨hmem, by simp [hnone]⟩
  · right
    rw [knotted_joined hapart] at hy
    refine ⟨y, hy, ?_⟩
    cases ho : regions.objects y with
    | none => rwa [strongTargets_joined ho] at hfield
    | some o =>
      obtain ⟨o', ho'⟩ := objects_ne_none_of_mem hapart ho hfield
      exact absurd (hnone.symm.trans ho') (by simp)

/-- Freezing takes no notice of arenas. -/
theorem Froze.joined (h : Froze n held root ids n') (hapart : regions.Apart n) (hapart' : regions.Apart n')
    (hdeferred : n.deferred = regions.deferred.filter fun r => (regions.objects r).isNone)
    (hroot : n.isEligible root = true) : Froze (n.joined regions) held root ids (n'.joined regions) where
  nodup := h.nodup
  fresh := h.fresh
  members id hid := by
    obtain ⟨x, g, hcycle, hmembers, hnodup, hclass⟩ := h.members id hid
    refine ⟨x, g, (onCycle_joined hapart hroot).2 hcycle, hmembers, hnodup, fun y => ?_⟩
    rw [hclass, knotted_joined hapart]
  covers x hcycle := h.covers x ((onCycle_joined hapart hroot).1 hcycle)
  sinksFirst := h.sinksFirst.imp fun hfirst g g' hg hg' x hx y hy hbehind =>
    hfirst g g' hg hg' x hx y hy ((behind_joined hapart).1 hbehind)
  external id hid g hmembers := by
    obtain ⟨x, g', hcycle, hmembers', -, hclass⟩ := h.members id hid
    obtain rfl := Option.some.inj (hmembers'.symm.trans hmembers)
    have hnone : ∀ y ∈ g', regions.objects y = none := fun y hy =>
      objects_eq_none_of_behind hapart hroot (hcycle.1.trans ((hclass y).1 hy).1)
    rw [Multiset.countP_add, countP_deferred_joined hdeferred hnone, countP_referencesOutside_joined hapart hnone,
      ← Multiset.countP_add]
    exact h.external id hid g' hmembers
  others := h.others
  marked id hid g hmembers x hx := by
    obtain ⟨o, ho, ho'⟩ := h.marked id hid g hmembers x hx
    exact ⟨o, object?_joined hapart ho, object?_joined hapart' ho'⟩
  unmarked x hcycle := by
    rw [onCycle_joined hapart hroot] at hcycle
    cases ho : regions.objects x with
    | none => rw [object?_joined_of_none ho, object?_joined_of_none ho, h.unmarked x hcycle]
    | some o => rw [object?_joined_of_some hapart' ho, object?_joined_of_some hapart ho]
  rest := congrArg (·.joined regions) h.rest

end Memory

open Memory

variable {config : Config} {secret : UInt64} {m m' : Memory} {held : Multiset Ref} {root : Ref}
  {ids : List ComponentId}

/-- Wherever a program gets, freezing an eligible object that stays referenced makes each cycle behind it one
component, with the count of the references from outside, and nothing else; the object is still there, and freezing
it once more comes to nothing. -/
theorem freeze_registers_cycles (h : Attained config secret m held) (hop : (Operation.freeze root).Allowed m held)
    (hroot : m.isEligible root = true) (hstays : m.StaysReferenced held root) (hfreeze : m.freeze root = .done m' ids) :
    Froze m held root ids m' ∧ m'.isLive root = true ∧ m'.freeze root = .done m' [] := by
  obtain ⟨n, regions, lost, rfl, hdivided⟩ := h.divided
  have hapart := hdivided.apart
  rw [isEligible_joined hapart] at hroot
  have hnone : regions.objects root = none := objects_eq_none_of_behind hapart hroot .refl
  have hop' : (Operation.freeze root).Allowed n held := Command.allowed_of_joined hdivided hop
    (fun r hr => Option.some.inj hr ▸ hnone) fun _ _ _ he => by simp at he
  have hstays' := staysReferenced_of_joined hapart hroot hdivided.deferred hstays
  rw [freeze_joined hdivided.consistent hapart hop'.2.1 hop'.2.2] at hfreeze
  obtain ⟨n', hfreeze', rfl⟩ := Outcome.eq_done_of_joined hfreeze
  obtain ⟨hregistered, hconsistent⟩ := hdivided.consistent.registered hop' hroot hstays' hfreeze'
  have hout : ((Operation.freeze root).outcome n).memory? = some n' := by
    rw [Operation.outcome, hfreeze']
    rfl
  have hapart' := hapart.of_changes (Operation.changes_freeze hdivided.consistent hop' hout)
  refine ⟨(hregistered.froze hroot hconsistent.counted).joined hapart hapart' hdivided.deferred hroot,
    isLive_joined hapart' (hregistered.isLive ▸ hop'.1), freeze_of_no_cycles ?_⟩
  rw [cyclesFrom_joined hapart', hregistered.cyclesFrom_eq_nil]

theorem freeze_registers_cycles_loop : Froze .loop {0} 0 [.ofParts 0 1] .frozenLoop ∧
    Memory.frozenLoop.isLive 0 = true ∧ Memory.frozenLoop.freeze 0 = .done .frozenLoop [] :=
  freeze_registers_cycles reachable_loop.attained allowed_freeze_loop rfl
    ⟨0, ⟨.refl, .refl⟩, .inl (Multiset.mem_add.2 (.inl (Multiset.mem_singleton_self 0)))⟩ freeze_loop

end Reclamation
