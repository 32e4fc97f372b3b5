import Mathlib
import Reclamation.Proofs.Memory.Programs

/-!
# What is counted of objects

What was allocated and not freed is on the heap or in a slot, and the pool counts the slots that hold an object
(`Memory.Audited`). Placing an object and taking one out keep this, so every change of memory does
(`Memory.Change.audited`), and it holds wherever a program gets (`Attained.audited`).

A release counts what it frees as memory does (`Release.Counts`), so what the operations that give references up
return is by how much the number of freed objects grew (`Outcome.Frees`).
-/

set_option autoImplicit false

namespace Reclamation

namespace Memory

variable {m m' n n' : Memory} {r : Ref} {o : Object} {p : Origin → Bool}

/-! ## Cells by where their objects come from -/

/-- The cells that hold an object of a certain origin. -/
def cellsOf (m : Memory) (p : Origin → Bool) : Finset Ref :=
  (Finset.range m.cells.size).filter fun r => (m.object? r).any fun o => p o.origin

/-- The objects that are counted, those on the heap and in slots. -/
def counted (m : Memory) : Finset Ref :=
  m.cellsOf fun origin => origin matches .heap | .slot

/-- The objects in slots. -/
def pooled (m : Memory) : Finset Ref :=
  m.cellsOf (· == .slot)

theorem mem_cellsOf : r ∈ m.cellsOf p ↔ ∃ o, m.object? r = some o ∧ p o.origin = true := by
  rw [cellsOf, Finset.mem_filter, Finset.mem_range, Option.any_eq_true]
  constructor
  · intro hr
    exact hr.2
  · intro hr
    obtain ⟨o, ho, hp⟩ := hr
    exact ⟨lt_size_of_isLive (isLive_of_object? ho), o, ho, hp⟩

theorem mem_pooled : r ∈ m.pooled ↔ ∃ o, m.object? r = some o ∧ o.origin = .slot := by
  rw [pooled, mem_cellsOf]
  simp

theorem mem_counted : r ∈ m.counted ↔ ∃ o, m.object? r = some o ∧ o.arena? = none := by
  have harena : ∀ o : Object, (o.origin matches .heap | .slot) = true ↔ o.arena? = none := by
    intro o
    unfold Object.arena?
    cases o.origin <;> simp
  rw [counted, mem_cellsOf]
  simp only [harena]

theorem cellsOf_congr (h : ∀ r, (m'.object? r).map (·.origin) = (m.object? r).map (·.origin)) :
    m'.cellsOf p = m.cellsOf p := by
  have hany : ∀ (m : Memory) (r : Ref), r ∈ m.cellsOf p ↔ ∃ origin, (m.object? r).map (·.origin) = some origin ∧
      p origin = true := by
    intro m r
    simp [mem_cellsOf]
  ext r
  rw [hany, hany, h]

/-! ## The statistics of memory without arenas -/

/-- What was counted agrees with what there is. -/
structure Audited (m : Memory) : Prop where
  allocated : m.stats.allocated = m.stats.freed + m.counted.card
  inUse : m.pool.live = m.pooled.card

theorem Audited.ofConfigOn (config : Config) (secret : UInt64) (machine : Machine) :
    (Memory.ofConfigOn config secret machine).Audited :=
  ⟨rfl, rfl⟩

/-- Objects of the same origins are in the same cells. -/
theorem Audited.of_origins (h : m.Audited) (horigin : ∀ r, (m'.object? r).map (·.origin) = (m.object? r).map (·.origin))
    (hallocated : m'.stats.allocated = m.stats.allocated) (hfreed : m'.stats.freed = m.stats.freed)
    (hlive : m'.pool.live = m.pool.live) : m'.Audited := by
  constructor
  · rw [hallocated, hfreed, counted, cellsOf_congr horigin]
    exact h.allocated
  · rw [hlive, pooled, cellsOf_congr horigin]
    exact h.inUse

theorem origin_setTarget (m : Memory) (r x : Ref) (index : Nat) (target : Option Ref) :
    ((m.update r (·.setTarget index target)).object? x).map (·.origin) = (m.object? x).map (·.origin) := by
  refine origin_update m r x fun o => ?_
  obtain ⟨payload, he⟩ := o.setTarget_eq index target
  rw [he]

theorem Audited.of_recounted (h : m.Audited) (hm : Recounted m m') : m'.Audited :=
  h.of_origins hm.origin (by rw [hm.stats]) (by rw [hm.stats]) (by rw [hm.pool])

theorem Audited.markFrozen (h : m.Audited) (id : ComponentId) (members : List Ref) :
    (m.markFrozen members id).Audited := by
  have he := markFrozen_eq id members m
  exact h.of_origins (fun r => origin_markFrozen id r members m) (by rw [he]) (by rw [he]) (by rw [he])

/-! ### Placing objects -/

theorem cellsOf_placed (h : Placed r o m m') (ho : p o.origin = true) : m'.cellsOf p = insert r (m.cellsOf p) := by
  ext x
  rw [Finset.mem_insert, mem_cellsOf, mem_cellsOf, h.object]
  split
  · next he => simp [he, ho]
  · next he => simp [he]

theorem cellsOf_placed_of_not (h : Placed r o m m') (ho : p o.origin = false) : m'.cellsOf p = m.cellsOf p := by
  ext x
  rw [mem_cellsOf, mem_cellsOf, h.object]
  split
  · next he => simp [he, ho, h.free]
  · rfl

theorem not_mem_cellsOf (h : m.object? r = none) : r ∉ m.cellsOf p := by
  rw [mem_cellsOf, h]
  simp

/-- An object that is placed outside arenas is counted. -/
theorem Audited.placed (h : m.Audited) (hplaced : Placed r o m m') (harena : o.arena? = none) : m'.Audited := by
  have hcounted : m'.counted = insert r m.counted := by
    refine cellsOf_placed hplaced ?_
    unfold Object.arena? at harena
    cases horigin : o.origin with
    | arena id =>
      rw [horigin] at harena
      exact absurd harena (by simp)
    | _ => rfl
  constructor
  · have hfresh : r ∉ m.counted := not_mem_cellsOf hplaced.free
    rw [hplaced.stats, hcounted, Finset.card_insert_of_notMem hfresh]
    dsimp only
    rw [h.allocated, Nat.add_assoc]
  · rw [hplaced.inUse, h.inUse]
    by_cases hslot : o.origin = .slot
    · have hpooled : m'.pooled = insert r m.pooled := cellsOf_placed hplaced (beq_iff_eq.2 hslot)
      have hfresh : r ∉ m.pooled := not_mem_cellsOf hplaced.free
      rw [if_pos hslot, hpooled, Finset.card_insert_of_notMem hfresh]
    · have hpooled : m'.pooled = m.pooled := cellsOf_placed_of_not hplaced (beq_eq_false_iff_ne.2 hslot)
      rw [if_neg hslot, hpooled]
      rfl

/-! ### Taking objects out -/

theorem cellsOf_remove (hw : m.Wired) (ho : m.object? r = some o) : (m.remove r).cellsOf p = (m.cellsOf p).erase r := by
  ext x
  rw [Finset.mem_erase, mem_cellsOf, mem_cellsOf, object?_remove hw (isLive_of_object? ho)]
  split
  · next he => simp [he]
  · next he =>
    have horigin : ∀ o : Object, (o.forget r).origin = o.origin := fun _ => rfl
    simp [he, horigin]

/-- An object that is taken out was freed. -/
theorem Audited.remove (h : m.Audited) (htidy : m.Tidy) (ho : m.object? r = some o) : (m.remove r).Audited := by
  have harena := htidy.no_arena r o ho
  obtain ⟨weakCleared, hstats⟩ := stats_remove ho harena
  have hmem : r ∈ m.counted := mem_counted.2 ⟨o, ho, harena⟩
  have hcard := Finset.card_pos.2 ⟨r, hmem⟩
  constructor
  · have hcounted : (m.remove r).counted = m.counted.erase r := cellsOf_remove htidy.wired ho
    rw [hstats, hcounted, Finset.card_erase_of_mem hmem]
    dsimp only
    rw [h.allocated]
    omega
  · have hpooled : (m.remove r).pooled = m.pooled.erase r := cellsOf_remove htidy.wired ho
    rw [pool_remove ho, hpooled]
    by_cases hslot : o.origin = .slot
    · obtain ⟨x, hx, huse⟩ := isInUse_iff_slot?.1 ((htidy.housed.inUse_iff r).2 ⟨o, ho, hslot⟩)
      rw [if_pos hslot, SlotPool.live_giveBack hx huse, h.inUse, Finset.card_erase_of_mem (mem_pooled.2 ⟨o, ho, hslot⟩)]
    · have hother : r ∉ m.pooled := by
        rw [mem_pooled]
        intro hr
        obtain ⟨o', ho', hslot'⟩ := hr
        obtain rfl := Option.some.inj (ho.symm.trans ho')
        exact hslot hslot'
      rw [if_neg hslot, h.inUse, Finset.erase_eq_of_notMem hother]

/-- A group that is taken out was freed, each of its objects. -/
theorem counts_removeAll {group : List Ref} {m : Memory} (h : m.Tidy) (hnodup : group.Nodup)
    (hlive : ∀ x ∈ group, m.isLive x = true) : (m.Audited → (group.foldl Memory.remove m).Audited) ∧
      ∃ weakCleared, (group.foldl Memory.remove m).stats =
        { m.stats with freed := m.stats.freed + group.length, weakCleared } := by
  refine Tidy.removeAll_induction (P := fun m group => (m.Audited → (group.foldl Memory.remove m).Audited) ∧
    ∃ weakCleared, (group.foldl Memory.remove m).stats =
      { m.stats with freed := m.stats.freed + group.length, weakCleared }) ?_ ?_ h hnodup hlive
  · intro m _
    exact ⟨fun h => h, m.stats.weakCleared, rfl⟩
  · intro m r group htidy hr _ hrest
    obtain ⟨o, ho⟩ := isLive_iff.1 hr
    obtain ⟨weakCleared, hstats⟩ := stats_remove ho (htidy.no_arena r o ho)
    obtain ⟨haudited, weakCleared', hall⟩ := hrest
    refine ⟨fun h => haudited (h.remove htidy ho), weakCleared', ?_⟩
    rw [List.foldl_cons, hall, hstats, List.length_cons, Nat.add_comm group.length, ← Nat.add_assoc]

end Memory

/-! ## Releases -/

namespace Release

open Memory

variable {s t u : Release} {r : Ref} {outer extra : Multiset Ref}

/-- A release has counted what it freed as memory has. -/
structure Counts (s t : Release) : Prop where
  audited : s.memory.Audited → t.memory.Audited
  freed : t.freed + s.memory.stats.freed = s.freed + t.memory.stats.freed
  arenasDestroyed : t.memory.stats.arenasDestroyed = s.memory.stats.arenasDestroyed

namespace Counts

theorem refl (s : Release) : Counts s s :=
  ⟨fun h => h, rfl, rfl⟩

theorem trans (h : Counts s t) (h' : Counts t u) : Counts s u := by
  have hfreed := h.freed
  have hfreed' := h'.freed
  exact ⟨fun hs => h'.audited (h.audited hs), by omega, h'.arenasDestroyed.trans h.arenasDestroyed⟩

theorem of_recounted (h : Recounted s.memory t.memory) (hfreed : t.freed = s.freed) : Counts s t :=
  ⟨fun hs => hs.of_recounted h, by rw [h.stats, hfreed], by rw [h.stats]⟩

end Counts

theorem Lowers.freed (h : Lowers s r t) : t.freed = s.freed := by
  cases h <;> rfl

theorem counts_dropEdge (h : s.dropEdge r = some t) : Counts s t :=
  .of_recounted (recounted_dropEdge h) (lowers_dropEdge h).freed

theorem counts_dropRef (h : s.dropRef r = some t) : Counts s t :=
  .of_recounted (recounted_dropRef h) (lowers_dropRef h).freed

theorem counts_foldlM {drop : Release → Ref → Option Release}
    (hdrop : ∀ {s t : Release} {r : Ref}, drop s r = some t → Counts s t) {rs : List Ref} {s t : Release}
    (h : rs.foldlM drop s = some t) : Counts s t :=
  foldlM_induction (P := Counts s) (fun _ hd hu => hu.trans (hdrop hd)) h (.refl s)

theorem counts_discard {group : List Ref} (htidy : s.memory.Tidy) (h : s.discard group = some t) : Counts s t := by
  obtain ⟨hnodup, hlive⟩ := nodup_live_of_discard htidy h
  obtain ⟨haudited, weakCleared, hstats⟩ := counts_removeAll htidy hnodup hlive
  refine .trans ⟨haudited, ?_, ?_⟩ (counts_foldlM counts_dropEdge (discard_eq_some h))
  · dsimp only
    rw [hstats]
    dsimp only
    omega
  · rw [hstats]

/-- Every step of a release takes out a group that is closed. -/
theorem Step.counts (h : Balanced s outer extra) (hstep : Step s t) : Counts s t := by
  obtain ⟨components, work, candidates, u, released, hprepared, hd, rfl⟩ := hstep.discards h
  have htidy := h.tidy.of_components hprepared.sound
  have hcounts := counts_discard (s := { s with memory := { s.memory with components }, work, candidates }) htidy
    hd
  refine ⟨fun hs => ?_, hcounts.freed, hcounts.arenasDestroyed⟩
  have hu := hcounts.audited (hs.of_origins (fun _ => rfl) rfl rfl rfl)
  exact hu.of_origins (fun _ => rfl) rfl rfl rfl

theorem Steps.counts (h : Balanced s outer extra) (hsteps : Steps s t) : Counts s t := by
  induction hsteps with
  | refl => exact .refl s
  | tail hsteps hstep ih => exact ih.trans (hstep.counts (h.steps hsteps))

/-- A release up to its end. -/
theorem Completes.counts {held lost : Multiset Ref} (h : s.Completes held lost) (hrun : s.run = some t) :
    Counts s t := by
  obtain ⟨u, hsteps, hrun', -, hbalanced⟩ := h.ends
  obtain rfl := Option.some.inj (hrun.symm.trans hrun')
  exact hsteps.counts hbalanced

end Release

/-! ## What releases return -/

/-- It is carried out, and its value is how many more objects are freed. -/
def Outcome.Frees (m : Memory) (outcome : Outcome Nat) : Prop :=
  ∃ m' k, outcome = .done m' k ∧ m'.stats.freed = m.stats.freed + k

theorem Outcome.Frees.same (m : Memory) : Outcome.Frees m (.done m 0) :=
  ⟨m, 0, rfl, rfl⟩

theorem Outcome.Frees.joined {n : Memory} {outcome : Outcome Nat} (h : outcome.Frees n) (regions : Regions) :
    (outcome.joined regions).Frees (n.joined regions) := by
  obtain ⟨n', k, rfl, hfreed⟩ := h
  exact ⟨n'.joined regions, k, rfl, hfreed⟩

/-- The value that is read off a release at its end. -/
theorem Release.Completes.frees {s : Release} {m : Memory} {held lost : Multiset Ref} (h : s.Completes held lost)
    (hstart : s.memory.stats.freed = m.stats.freed + s.freed) : (Outcome.ofRelease (·.freed) s.run).Frees m := by
  obtain ⟨t, -, hrun, -, -⟩ := h.ends
  have hcounts := (h.counts hrun).freed
  rw [hrun]
  exact ⟨t.memory, t.freed, rfl, by omega⟩

namespace Memory

variable {m n : Memory} {held lost : Multiset Ref} {r : Ref} {o : Object}

theorem frees_release {s : Release} (hstats : m.stats = n.stats)
    (hs : ({ memory := m } : Release).dropRef r = some s) (hcompletes : s.Completes held lost) :
    (m.release r).Frees n := by
  have hcounts := (Release.counts_dropRef hs).freed
  unfold release
  rw [hs, Option.bind_some]
  refine hcompletes.frees ?_
  rw [← hstats]
  dsimp only at hcounts
  omega

theorem frees_freeTree (h : n.Consistent held lost) (hr : r ∈ held)
    (honly : n.isPlain r = true → r ∉ n.deferred ∧ r ∉ n.references) : (n.freeTree r).Frees n := by
  obtain ⟨o, ho⟩ := isLive_iff.1 (h.isLive_of_mem (x := r) (by simp [hr]))
  have harena : ¬ o.arena?.isSome = true := by simp [h.tidy.no_arena r o ho]
  unfold freeTree
  rw [ho]
  dsimp only
  rw [if_neg harena]
  split
  · obtain ⟨s, hs, hcompletes⟩ := Operation.drop_of_mem h hr
    exact frees_release rfl hs hcompletes
  · next hother =>
    rw [Bool.not_eq_true, Bool.or_eq_false_iff] at hother
    have hcomp : o.component = none := by simpa using hother.1
    obtain ⟨hdeferred, hrefs⟩ := honly (isPlain_iff.2 ⟨o, ho, hother.2, hcomp⟩)
    exact (h.freeTree ho hother.2 hcomp hdeferred hrefs).frees rfl

theorem frees_exitScopeIn (h : n.Consistent held lost) (hopen : n.scopes ≠ []) {entries : Scope}
    (hperm : entries.Perm n.innermost) : (n.exitScopeIn entries).Frees n := by
  unfold exitScopeIn
  cases hscopes : n.scopes with
  | nil => exact absurd hscopes hopen
  | cons scope scopes =>
    obtain ⟨s, hs, hcompletes⟩ := (h.leaveScope hscopes hperm).drops
    have hcounts := (Release.counts_foldlM Release.counts_dropRef hs).freed
    dsimp only at hcounts ⊢
    rw [hs, Option.bind_some]
    exact hcompletes.frees (by omega)

theorem frees_releaseScoped (h : n.Consistent held lost) (hr : r ∈ held ∨ r ∈ n.scopeRefs) :
    (n.releaseScoped r).Frees n := by
  have hdisowned := h.disown r
  unfold releaseScoped
  by_cases hscoped : r ∈ n.scopeRefs
  · rw [if_pos hscoped] at hdisowned
    obtain ⟨s, hs, hcompletes⟩ := hdisowned.drop
    exact frees_release rfl hs hcompletes
  · rw [if_neg hscoped] at hdisowned
    obtain ⟨s, hs, hcompletes⟩ := Operation.drop_of_mem hdisowned (hr.resolve_right hscoped)
    exact frees_release rfl hs hcompletes

end Memory

/-! ## Wherever a program gets -/

namespace Memory

variable {m m' n n' : Memory} {c : Command}

theorem Change.audited (h : Change m m') (hm : m.Audited) : m'.Audited := by
  cases h with
  | recount hrecounted _ => exact hm.of_recounted hrecounted
  | rearrange _ types scopes applied => exact hm.of_origins (fun _ => rfl) rfl rfl rfl
  | search _ htake => exact hm.of_origins (fun _ => rfl) rfl rfl (SlotPool.live_take_none htake)
  | @freeze s members components id hreg =>
    have hregistered : ({ s.memory with components } : Memory).Audited := hm.of_origins (fun _ => rfl) rfl rfl rfl
    exact (hregistered.markFrozen id members).of_origins (fun _ => rfl) rfl rfl rfl
  | step hbalanced hstep => exact (hstep.counts hbalanced).audited hm

theorem Changes.audited (h : Changes m m') (hm : m.Audited) : m'.Audited :=
  h.keeps Change.audited hm

/-- Whatever a command does, what was counted agrees with what there is. -/
theorem Audited.advance (h : n.Audited) (hadvance : c.Advance n n') (hn' : n'.Tidy) : n'.Audited := by
  cases hadvance with
  | changed deferred hchanges =>
    have hwritten : (c.written n).Audited := by
      rcases Command.written_cases n c with he | ⟨r, index, target, referrers, he⟩
      · rwa [he]
      · rw [he]
        exact h.of_origins (fun x => origin_setTarget n r x index target) rfl rfl rfl
    exact hchanges.audited (hwritten.of_origins (fun _ => rfl) rfl rfl rfl)
  | @placed r o _ hplaced =>
    refine h.placed hplaced (hn'.no_arena r o ?_)
    rw [hplaced.object, if_pos rfl]
  | beside _ hbeside =>
    obtain ⟨arenasDestroyed, hstats⟩ := hbeside.stats
    refine h.of_origins (fun x => ?_) (by rw [hstats]) (by rw [hstats]) (by rw [hbeside.pool])
    rw [hbeside.object]

/-- Objects of arenas are not counted. -/
theorem cellsOf_joined {regions : Regions} {p : Origin → Bool} (hapart : regions.Apart n)
    (hp : ∀ id, p (.arena id) = false) : (n.joined regions).cellsOf p = n.cellsOf p := by
  ext r
  rw [mem_cellsOf, mem_cellsOf]
  rcases object?_joined_cases (r := r) hapart with ⟨-, ho⟩ | ⟨o, hsome, hempty, ho⟩
  · rw [ho]
  · have harena := hapart.arena r o hsome
    have hnot : p o.origin = false := by
      unfold Object.arena? at harena
      cases horigin : o.origin with
      | arena id => exact hp id
      | _ =>
        rw [horigin] at harena
        exact absurd harena (by simp)
    rw [ho, hempty]
    simp [hnot]

theorem Audited.joined {regions : Regions} (h : n.Audited) (hapart : regions.Apart n) :
    (n.joined regions).Audited := by
  constructor
  · have hcounted : (n.joined regions).counted = n.counted := cellsOf_joined hapart fun _ => rfl
    rw [hcounted]
    exact h.allocated
  · have hpooled : (n.joined regions).pooled = n.pooled := cellsOf_joined hapart fun _ => rfl
    rw [hpooled]
    exact h.inUse

end Memory

variable {config : Config} {secret : UInt64} {m : Memory} {held : Multiset Ref}

theorem Attained.audited (h : Attained config secret m held) : m.Audited := by
  obtain ⟨n, regions, lost, rfl, hdivided, haudited⟩ := h.induction (P := Memory.Audited) (.ofConfigOn config secret)
    fun _ hn' hadvance hn => hn.advance hadvance hn'.tidy
  exact haudited.joined hdivided.apart

end Reclamation
