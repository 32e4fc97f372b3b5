import Mathlib
import Reclamation.Proofs.Memory.Exactness
import Reclamation.Proofs.Memory.Isolation
import Reclamation.Proofs.Memory.Statistics
import Reclamation.Proofs.Memory.Watching

/-!
# Nothing is left behind outside arenas

With arenas beside memory, what is live outside them is what can be reached from what is held. Every way to an object
outside arenas is one in memory without them (`Memory.reaches_of_joined`), so an object there is supported just if it
is supported in that memory (`Regions.Fits.supported_iff`), where it is known what is live (`Consistent.isLive_iff`).

A command starts the release that it starts without arenas (`Operation.release?_joined`), but of the decrements that
are due some may be for objects in arenas, and these come to nothing (`Divided.batch_cases`). What is asked of an object
in an arena starts no release of its own, and a command that starts none takes out nothing outside arenas. So there is
one lemma for each way in which a command can have to do with arenas, and each says that the command is exact
(`Command.Exact`).
-/

set_option autoImplicit false

namespace Reclamation

/-! ## Ways through memory with arenas beside it -/

namespace Memory

variable {n : Memory} {regions : Regions} {held lost : Multiset Ref} {r x y : Ref}

theorem isOutside_iff {m : Memory} : m.isOutside x = true ↔ ∃ o, m.object? x = some o ∧ o.arena? = none := by
  simp [isOutside, Option.any_eq_true]

theorem isLive_of_isOutside {m : Memory} (hx : m.isOutside x = true) : m.isLive x = true := by
  obtain ⟨o, ho, -⟩ := isOutside_iff.1 hx
  exact isLive_of_object? ho

theorem isLive_of_isOutside_joined (h : regions.Apart n) (hx : (n.joined regions).isOutside x = true) :
    n.isLive x = true := by
  obtain ⟨o, ho, hnone⟩ := isOutside_iff.1 hx
  exact isLive_of_object? (object?_of_outside h ho hnone)

theorem isSymmetric_of_joined (h : regions.Apart n) (hx : (n.joined regions).IsSymmetric x) : n.IsSymmetric x := by
  obtain ⟨o, ho, hsym⟩ := hx
  rcases object?_joined_cases (r := x) h with ⟨-, he⟩ | ⟨o', hsome, -, he⟩
  · exact ⟨o, he.symm.trans ho, hsym⟩
  · obtain rfl := Option.some.inj (he.symm.trans ho)
    exact absurd ((h.plain x _ hsome).1.symm.trans hsym) (by decide)

theorem refers_joined (h : regions.Apart n) (hxy : n.Refers x y) : (n.joined regions).Refers x y := by
  have hlive := isLive_of_mem_strongTargets hxy
  rwa [Refers, strongTargets_joined (objects_eq_none_of_isLive h hlive)]

theorem reaches_joined (h : regions.Apart n) (hxy : n.Reaches x y) : (n.joined regions).Reaches x y :=
  Relation.ReflTransGen.mono (fun _ _ => refers_joined h) x y hxy

/-- Arenas beside memory close no cycle in it. -/
theorem collectable_of_joined (h : regions.Apart n) (hm : (n.joined regions).Collectable) : n.Collectable := by
  intro first rest hring
  rcases hm first rest ⟨hring.nodup, hring.chain.imp fun _ _ => refers_joined h⟩ with hsym | hcomponent
  · exact .inl fun x hx => isSymmetric_of_joined h (hsym x hx)
  · exact .inr hcomponent

/-- A way that ends outside arenas is outside them all along. -/
theorem reaches_of_joined (h : regions.Apart n) (hx : regions.objects x = none) (hrx : (n.joined regions).Reaches r x) :
    regions.objects r = none ∧ n.Reaches r x := by
  induction hrx using Relation.ReflTransGen.head_induction_on with
  | refl => exact ⟨hx, .refl⟩
  | @head a b hab _ ih =>
    obtain ⟨hb, hbx⟩ := ih
    have ha : regions.objects a = none := by
      rw [Option.eq_none_iff_forall_ne_some]
      intro o ho
      obtain ⟨o', ho'⟩ := objects_ne_none_of_mem h ho hab
      exact absurd (hb.symm.trans ho') (by simp)
    rw [Refers, strongTargets_joined ha] at hab
    exact ⟨ha, .head hab hbx⟩

end Memory

/-! ## What is held -/

/-- The objects of arenas lie beside memory, which knows of the decrements that wait for its own objects, and of
components that these are the members of. -/
structure Regions.Fits (regions : Regions) (n : Memory) : Prop where
  apart : regions.Apart n
  deferred : n.deferred = regions.deferred.filter fun r => (regions.objects r).isNone
  members : ∀ id e, n.components.entry? id = some e → ∀ x ∈ e.members, n.isLive x = true

namespace Regions.Fits

open Memory

variable {n : Memory} {regions : Regions} {held : Multiset Ref} {x : Ref}

theorem of_balanced {s : Release} {outer extra : Multiset Ref} (h : Balanced s outer extra)
    (hapart : regions.Apart s.memory)
    (hdeferred : s.memory.deferred = regions.deferred.filter fun r => (regions.objects r).isNone) :
    regions.Fits s.memory where
  apart := hapart
  deferred := hdeferred
  members id e he x hx := by
    obtain ⟨o, ho, -⟩ := (h.component id e he).frozen x hx
    exact isLive_of_object? ho

theorem mem_deferred_iff (h : regions.Fits n) (hx : regions.objects x = none) :
    x ∈ regions.deferred ↔ x ∈ n.deferred := by
  rw [h.deferred, List.mem_filter]
  simp [hx]

/-- What is held outside arenas does not depend on what waits for their objects. -/
theorem mem_ledger_iff (h : regions.Fits n) (hx : regions.objects x = none) :
    x ∈ held + ↑(n.joined regions).deferred ↔ x ∈ held + ↑n.deferred := by
  rw [Multiset.mem_add, Multiset.mem_add, Multiset.mem_coe, Multiset.mem_coe]
  exact or_congr_right (h.mem_deferred_iff hx)

theorem held_joined (h : regions.Fits n) (hx : n.Held held x) : (n.joined regions).Held held x := by
  cases hx with
  | plain ho hsym hcomp hmem =>
    have hnone := objects_eq_none h.apart ho
    exact .plain (object?_joined h.apart ho) hsym hcomp ((h.mem_ledger_iff hnone).2 hmem)
  | symmetric ho hsym hcount => exact .symmetric (object?_joined h.apart ho) hsym hcount
  | @member y id e he hx hy hmem =>
    have hnone := objects_eq_none_of_isLive h.apart (h.members id e he y hy)
    exact .member he hx hy ((h.mem_ledger_iff hnone).2 hmem)

theorem held_of_joined (h : regions.Fits n) (hx : regions.objects x = none) (hheld : (n.joined regions).Held held x) :
    n.Held held x := by
  cases hheld with
  | plain ho hsym hcomp hmem =>
    rw [object?_joined_of_none hx] at ho
    exact .plain ho hsym hcomp ((h.mem_ledger_iff hx).1 hmem)
  | symmetric ho hsym hcount =>
    rw [object?_joined_of_none hx] at ho
    exact .symmetric ho hsym hcount
  | @member y id e he hx hy hmem =>
    have hnone := objects_eq_none_of_isLive h.apart (h.members id e he y hy)
    exact .member he hx hy ((h.mem_ledger_iff hnone).1 hmem)

/-- What supports an object outside arenas is outside them. -/
theorem supported_iff (h : regions.Fits n) (hx : regions.objects x = none) :
    (n.joined regions).Supported held x ↔ n.Supported held x := by
  constructor
  · rintro ⟨r, hr, hrx⟩
    obtain ⟨hnone, hreaches⟩ := reaches_of_joined h.apart hx hrx
    exact ⟨r, h.held_of_joined hnone hr, hreaches⟩
  · rintro ⟨r, hr, hrx⟩
    exact ⟨r, h.held_joined hr, reaches_joined h.apart hrx⟩

end Regions.Fits

namespace Divided

open Memory

variable {n : Memory} {regions : Regions} {held lost : Multiset Ref} {x : Ref}

theorem fits (h : Divided n regions held lost) : regions.Fits n :=
  .of_balanced h.consistent.balanced h.apart h.deferred

theorem isLive_of_supported (h : Divided n regions held lost) (hx : (n.joined regions).Supported held x) :
    (n.joined regions).isLive x = true := by
  cases hnone : regions.objects x with
  | none => exact isLive_joined h.apart (h.consistent.isLive_of_supported ((h.fits.supported_iff hnone).1 hx))
  | some o => exact isLive_of_object? (object?_joined_of_some h.apart hnone)

theorem supported_of_isOutside (h : Divided n regions held lost) (hcollectable : (n.joined regions).Collectable)
    (hx : (n.joined regions).isOutside x = true) : (n.joined regions).Supported held x := by
  have hlive := isLive_of_isOutside_joined h.apart hx
  have hsupported := (h.consistent.isLive_iff (collectable_of_joined h.apart hcollectable) x).1 hlive
  exact (h.fits.supported_iff (objects_eq_none_of_isLive h.apart hlive)).2 hsupported

end Divided

/-! ## What a release takes out -/

/-- A release takes out, of what is outside arenas, what cannot be reached from what is held. -/
structure Release.Reclaims (s t : Release) (held : Multiset Ref) : Prop where
  /-- It ends. -/
  ends : s.run = some t
  /-- What can be reached from what is held stays. -/
  spares : ∀ x, s.memory.Supported held x → t.memory.isLive x = true
  /-- If all cycles are of the two kinds that are found, nothing else stays outside arenas. -/
  frees : t.memory.Collectable → ∀ x, t.memory.isOutside x = true → s.memory.Supported held x

namespace Release

open Memory

variable {s t : Release} {regions : Regions} {held lost : Multiset Ref}

theorem Completes.reclaims_joined (h : s.Completes held lost) (hfits : regions.Fits s.memory) :
    ∃ t, s.run = some t ∧ (s.joined regions).Reclaims (t.joined regions) held := by
  obtain ⟨t, hrun, hspares, hfrees⟩ := h.exact
  obtain ⟨t', hsteps, hrun', -, hbal⟩ := h.ends
  obtain rfl := Option.some.inj (hrun.symm.trans hrun')
  have hapart : regions.Apart t.memory := hfits.apart.of_steady (hsteps.steady hbal)
  refine ⟨t, hrun, ?_, fun x hx => ?_, fun hcollectable x hx => ?_⟩
  · rw [h.run_joined hfits.apart, hrun]
    rfl
  · cases hnone : regions.objects x with
    | none => exact isLive_joined hapart (hspares x ((hfits.supported_iff hnone).1 hx))
    | some o => exact isLive_of_object? (object?_joined_of_some hapart hnone)
  · have hlive := isLive_of_isOutside_joined hapart hx
    have hsupported := hfrees (collectable_of_joined hapart hcollectable) x hlive
    exact (hfits.supported_iff (objects_eq_none_of_isLive hapart hlive)).2 hsupported

end Release

/-! ## The release that an operation starts -/

theorem Outcome.memory?_joined {α : Type} (outcome : Outcome α) (regions : Regions) :
    (outcome.joined regions).memory? = outcome.memory?.map (·.joined regions) := by
  cases outcome <;> rfl

namespace Operation

open Memory

variable {m n : Memory} {regions : Regions} {held lost : Multiset Ref} {s : Release} {op : Operation}

/-- With arenas beside memory an operation starts the release that it starts without them. -/
theorem release?_joined (h : n.Consistent held lost) (hapart : regions.Apart n) (hop : op.Allowed n held)
    (hqueue : op.isQueued = false) : op.release? (n.joined regions) = (op.release? n).map (·.joined regions) := by
  cases op with
  | release r =>
    have hlive : n.isLive r = true := h.isLive_of_mem (x := r) (by simp [show r ∈ held from hop])
    exact Release.dropRef_joined (s := { memory := n }) (objects_eq_none_of_isLive hapart hlive)
  | defer r => exact absurd hqueue (by simp [isQueued])
  | safePoint => exact absurd hqueue (by simp [isQueued])
  | drain => exact absurd hqueue (by simp [isQueued])
  | setField r index target =>
    obtain ⟨o, ho⟩ := isLive_iff.1 hop.1
    rw [release?, release?, object?_joined hapart ho, ho]
    dsimp only
    rw [fieldFault?_joined hapart o index fun t ht => (hop.2 t ht).1]
    split
    · rfl
    · exact strongRelease_joined hapart (objects_eq_none hapart ho) index (fun t ht => h.isLive_of_target ho ht) target
  | freeze r =>
    have hnone : ∀ g ∈ n.cyclesFrom r, ∀ x ∈ g, regions.objects x = none := fun _ =>
      objects_eq_none_of_mem_cyclesFrom hapart
    rw [release?, release?, cyclesFrom_joined hapart]
    exact congrArg (fun frozen => some frozen.1) (Release.freezeAll_joined (s := { memory := n }) hnone)
  | freeTree r =>
    obtain ⟨o, ho⟩ := isLive_iff.1 (h.isLive_of_mem (x := r) (by simp [hop.1]))
    have hplain : (n.joined regions).isPlain r = n.isPlain r := by
      rw [isPlain, isPlain, object?_joined hapart ho, ho]
    rw [release?, release?, hplain]
    split
    · rfl
    · exact Release.dropRef_joined (s := { memory := n }) (objects_eq_none hapart ho)
  | exitScope entries =>
    rw [release?, release?, show (n.joined regions).scopes = n.scopes from rfl]
    cases hscopes : n.scopes with
    | nil => rfl
    | cons scope scopes =>
      have hdrops := Release.dropRefs_joined (n.owned entries) (s := { memory := { n with scopes } })
        (hapart.of_cells rfl fun _ => rfl)
      have hlive : ∀ x ∈ n.owned entries, n.isLive x = true := fun x hx => h.isLive_of_innermost hscopes hop hx
      rwa [Regions.outside_eq_self fun x hx => objects_eq_none_of_isLive hapart (hlive x hx)] at hdrops
  | releaseScoped r =>
    rw [release?, release?, disown_joined]
    have hlive : n.isLive r = true := h.isLive_of_mem (x := r) (by
      simp only [Multiset.mem_add]
      rcases hop with hr | hr <;> simp [hr])
    exact Release.dropRef_joined (s := { memory := { n with scopes := n.disown r n.scopes } })
      (objects_eq_none_of_isLive hapart hlive)
  | _ => rfl

/-- The release that an operation starts, if it does not apply decrements that wait. -/
theorem reclaims_joined (h : Divided n regions held lost) (hop : op.Allowed n held) (hqueue : op.isQueued = false)
    (hs : op.release? (n.joined regions) = some s) : ∃ t stats, s.Reclaims t (op.heldAfter n held none) ∧
      (op.outcome (n.joined regions)).memory? = some { t.memory with stats } := by
  rw [release?_joined h.consistent h.apart hop hqueue] at hs
  obtain ⟨s, hstarts, rfl⟩ := Option.map_eq_some_iff.1 hs
  have hsound := Operation.sound h.consistent hop
  obtain ⟨t, stats, hrun, hout⟩ := hsound.safe.ends s hstarts
  obtain ⟨lost', hcompletes⟩ := hsound.completes s hstarts
  obtain ⟨_, -, -, -, hbal⟩ := hcompletes.ends
  obtain ⟨deferred, hchanges, hsame⟩ := changes_release? hstarts
  obtain rfl := hsame hqueue
  have hdeferred := ((Operation.kept_written n op).trans hchanges.kept).deferred
  have hfits : regions.Fits s.memory :=
    .of_balanced hbal ((h.apart.of_written op).of_changes hchanges) (hdeferred.trans h.deferred)
  obtain ⟨t', hrun', hreclaims⟩ := hcompletes.reclaims_joined hfits
  obtain rfl := Option.some.inj (hrun.symm.trans hrun')
  refine ⟨t.joined regions, stats, hreclaims, ?_⟩
  rw [Operation.outcome_joined h.consistent h.apart hop hqueue, Outcome.memory?_joined, hout]
  rfl

end Operation

/-! ## Decrements that are due -/

namespace Divided

open Memory

variable {n : Memory} {regions : Regions} {held lost : Multiset Ref} {k : Nat}

/-- Decrements that are due start a release, of which those for objects in arenas are no part, or there are none. -/
theorem batch_cases (h : Divided n regions held lost) (k : Nat) :
    (Operation.batch? (n.joined regions) k = none ∧
      (n.joined regions).applyDeferred k = .done (n.joined regions) 0) ∨
    ∃ s t stats j, Operation.batch? (n.joined regions) k = some s ∧ s.Reclaims t held ∧
      (n.joined regions).applyDeferred k = .done { t.memory with stats } j := by
  unfold Operation.batch? applyDeferred
  dsimp only
  by_cases hempty : ((n.joined regions).deferred.take k).isEmpty = true
  · exact .inl ⟨if_pos hempty, if_pos hempty⟩
  · obtain ⟨j, htake, hdrop⟩ := Command.filter_take_drop (fun r => (regions.objects r).isNone) regions.deferred k
    rw [← h.deferred] at htake hdrop
    obtain ⟨s, hs, hcompletes⟩ := (h.consistent.undefer j).drops
    obtain ⟨_, -, -, -, hbal⟩ := hcompletes.ends
    have hsteady := Steady.of_recounted (Release.recounted_foldlM Release.recounted_dropRef hs)
    have hundeferred : regions.Apart { n with deferred := n.deferred.drop j } := h.apart.of_cells rfl fun _ => rfl
    have hfits : Regions.Fits { regions with deferred := regions.deferred.drop k } s.memory :=
      .of_balanced hbal ((hundeferred.of_deferred _).of_steady hsteady) (hsteady.aside.deferred.trans hdrop)
    obtain ⟨t, -, hreclaims⟩ := hcompletes.reclaims_joined hfits
    rw [if_neg hempty, if_neg hempty, Command.dropRefs_due h htake hs, Option.bind_some, hreclaims.ends]
    exact .inr ⟨_, _, _, _, rfl, hreclaims, rfl⟩

end Divided

/-! ## What a command takes out -/

namespace Command

open Memory

/-- The release that a command starts. What is asked of an object in an arena starts one only if that fills the queue of
decrements. -/
def release? (m : Memory) : Command → Option Release
  | operation op => if op.isOnArena m && !op.isQueued then none else op.release? m
  | newArena | allocateFields _ _ _ | allocateInArena _ _ | registerExternal _ _ | resolveExternal _ _
  | destroyArena _ | destroyArenaWhenResolved _ | abandonArena _ => none

/-- A command takes out of what is outside arenas what cannot be reached from what is held, in the release that it
starts, and otherwise nothing. -/
structure Exact (c : Command) (m : Memory) (held : Multiset Ref) : Prop where
  reclaims : ∀ s, c.release? m = some s → ∃ t stats, s.Reclaims t (c.heldAfter m held none) ∧
    (c.outcome m).memory? = some { t.memory with stats }
  keeps : c.release? m = none → ∀ m', (c.outcome m).memory? = some m' → ∀ x, m.isOutside x = true →
    m'.isLive x = true

variable {c : Command} {m m' n : Memory} {regions : Regions} {held held' lost : Multiset Ref} {op : Operation}
  {r x : Ref} {o : Object} {id : ArenaId} {a : Arena}

theorem Exact.of_keeps (hrel : c.release? m = none) (hkeeps : ∀ m', (c.outcome m).memory? = some m' →
    ∀ x, m.isOutside x = true → m'.isLive x = true) : c.Exact m held := by
  refine ⟨fun s hs => ?_, fun _ => hkeeps⟩
  rw [hrel] at hs
  exact absurd hs (by simp)

/-! ### Decrements that wait -/

/-- An operation that applies the first decrements that wait in memory with the same objects. -/
theorem exact_of_batch (h : Divided n regions held lost) (k : Nat)
    (hrel : (operation op).release? m = Operation.batch? (n.joined regions) k)
    (hout : op.outcome m = ((n.joined regions).applyDeferred k).bind fun m _ => .done m none)
    (hheld : (operation op).heldAfter m held' none = held)
    (hlive : ∀ x, m.isLive x = true → (n.joined regions).isLive x = true) : (operation op).Exact m held' := by
  rcases h.batch_cases k with ⟨hnone, hdone⟩ | ⟨s, t, stats, j, hs, hreclaims, hdone⟩
  · refine .of_keeps (hrel.trans hnone) fun m' hm' x hx => ?_
    rw [outcome, hout, hdone] at hm'
    obtain rfl := Option.some.inj hm'
    exact hlive x (isLive_of_isOutside hx)
  · have hsome := hrel.trans hs
    refine ⟨fun s' hs' => ?_, fun hnone => absurd (hnone.symm.trans hsome) (by simp)⟩
    obtain rfl := Option.some.inj (hsome.symm.trans hs')
    refine ⟨t, stats, by rwa [hheld], ?_⟩
    rw [outcome, hout, hdone]
    rfl

theorem isOnArena_defer (h : Divided n regions held lost) (r : Ref) :
    (Operation.defer r).isOnArena (n.joined regions) = (regions.objects r).isSome := by
  rw [Bool.eq_iff_iff, isOnArena_iff h, Option.isSome_iff_exists]
  simp [Operation.subject?]

theorem exact_defer (h : Divided n regions held lost)
    (hop : (operation (.defer r)).Allowed (n.joined regions) held) :
    (operation (.defer r)).Exact (n.joined regions) held := by
  have hon := isOnArena_defer h r
  obtain ⟨deferred, hpushed⟩ := push_divided h r fun hnone => hop.resolve_left (by simp [hon, hnone])
  generalize hm : ({ n with deferred } : Memory).joined { regions with deferred := regions.deferred ++ [r] } = m
  have hrel : (operation (.defer r)).release? (n.joined regions) =
      if m.queueLimit ≤ m.deferred.length then Operation.batch? m m.batchSize else none := by
    rw [← hm, release?, Operation.isQueued, Bool.not_true, Bool.and_false]
    rfl
  have hout : (Operation.defer r).outcome (n.joined regions) =
      (if m.queueLimit ≤ m.deferred.length then m.applyDeferred m.batchSize else .done m 0).bind
        fun m _ => .done m none := by
    rw [← hm]
    rfl
  have hlive : ∀ x, (n.joined regions).isLive x = true → m.isLive x = true := fun x hx => by
    rw [← hm]
    exact hx
  by_cases hfull : m.queueLimit ≤ m.deferred.length
  · rw [if_pos hfull] at hrel hout
    subst hm
    refine exact_of_batch hpushed _ hrel hout ?_ hlive
    rw [heldAfter, hon]
    cases regions.objects r <;> rfl
  · rw [if_neg hfull] at hrel hout
    refine .of_keeps hrel fun m' hm' x hx => ?_
    rw [outcome, hout] at hm'
    obtain rfl := Option.some.inj hm'
    exact hlive x (isLive_of_isOutside hx)

/-! ### Asking of an object in an arena -/

/-- What is asked of an object in an arena leaves every object where it is. -/
theorem isLive_onArena (h : Divided n regions held lost) (hon : op.isOnArena (n.joined regions) = true)
    (hqueue : op.isQueued = false) (hout : (op.outcome (n.joined regions)).memory? = some m')
    (hx : (n.joined regions).isLive x = true) : m'.isLive x = true := by
  obtain ⟨r, o, hr, ho⟩ := (isOnArena_iff h).1 hon
  have ho' := object?_joined_of_some h.apart ho
  have harena := h.apart.arena r o ho
  have hinert := h.inert ho' harena
  cases op with
  | acquire r' =>
    obtain rfl := Option.some.inj hr
    rw [Operation.outcome, hinert.acquire] at hout
    exact Option.some.inj hout ▸ hx
  | release r' =>
    obtain rfl := Option.some.inj hr
    rw [Operation.outcome, hinert.release] at hout
    exact Option.some.inj hout ▸ hx
  | defer r' => exact absurd hqueue (by simp [Operation.isQueued])
  | setField r' index target =>
    obtain rfl := Option.some.inj hr
    rw [Operation.outcome, Outcome.memory?_bind_done, Memory.setField, ho'] at hout
    dsimp only at hout
    rw [if_pos harena] at hout
    split at hout
    · exact Option.some.inj hout ▸ hx
    · obtain rfl := Option.some.inj hout
      rwa [isLive_update]
  | freeze r' =>
    obtain rfl := Option.some.inj hr
    rw [Operation.outcome, hinert.freeze] at hout
    exact Option.some.inj hout ▸ hx
  | acquireComponent r' =>
    obtain rfl := Option.some.inj hr
    rw [Operation.outcome, hinert.acquireComponent] at hout
    exact Option.some.inj hout ▸ hx
  | freeTree r' =>
    obtain rfl := Option.some.inj hr
    rw [Operation.outcome, hinert.freeTree] at hout
    exact Option.some.inj hout ▸ hx
  | releaseScoped r' =>
    obtain rfl := Option.some.inj hr
    rw [Operation.outcome, hinert.releaseScoped] at hout
    exact Option.some.inj hout ▸ hx
  | _ => exact absurd hr (by simp [Operation.subject?])

/-! ### Asking of an object that is counted -/

/-- A reference to an object in an arena is not written into a counted object. -/
theorem exact_setField_across (h : Divided n regions held lost) (ho : n.object? r = some o) (index : Nat) {t : Ref}
    {o' : Object} (ht : regions.objects t = some o') :
    (operation (.setField r index (some t))).Exact (n.joined regions) held := by
  obtain ⟨fault, hfault⟩ := fieldFault?_across h ho index ht
  refine .of_keeps ?_ fun m' hm' x hx => ?_
  · have hnone : (Operation.setField r index (some t)).release? (n.joined regions) = none := by
      rw [Operation.release?, object?_joined h.apart ho]
      dsimp only
      rw [hfault]
      rfl
    rw [release?, hnone, ite_self]
  · rw [outcome, Operation.outcome, Outcome.memory?_bind_done, Memory.setField, object?_joined h.apart ho] at hm'
    dsimp only at hm'
    rw [hfault] at hm'
    exact Option.some.inj hm' ▸ isLive_of_isOutside hx

/-- An operation that has to do neither with objects in arenas nor with decrements that wait. -/
theorem exact_of_allowed (h : Divided n regions held lost) (hop : op.Allowed n held) (hqueue : op.isQueued = false)
    (hoff : op.isOnArena (n.joined regions) = false)
    (hsubject : ∀ r, op.subject? = some r → regions.objects r = none) :
    (operation op).Exact (n.joined regions) held := by
  have hrel : (operation op).release? (n.joined regions) = op.release? (n.joined regions) := by
    rw [release?, hoff, Bool.false_and, if_neg Bool.false_ne_true]
  have hheld : (operation op).heldAfter (n.joined regions) held none = op.heldAfter n held none := by
    rw [heldAfter, hoff, if_neg Bool.false_ne_true, heldAfter_joined hsubject]
  refine ⟨fun s hs => ?_, fun hnone m' hm' x hx => ?_⟩
  · rw [hheld]
    exact Operation.reclaims_joined h hop hqueue (hrel.symm.trans hs)
  · rw [hrel, Operation.release?_joined h.consistent h.apart hop hqueue, Option.map_eq_none_iff] at hnone
    rw [outcome, Operation.outcome_joined h.consistent h.apart hop hqueue, Outcome.memory?_joined] at hm'
    obtain ⟨n', hn', rfl⟩ := Option.map_eq_some_iff.1 hm'
    have hlive := (Operation.sound h.consistent hop).safe.keeps hnone n' hn' x (isLive_of_isOutside_joined h.apart hx)
    exact isLive_joined (h.apart.of_effect (Operation.effect h.consistent hop hqueue hn')) hlive

theorem exact_operation (h : Divided n regions held lost) (hop : (operation op).Allowed (n.joined regions) held) :
    (operation op).Exact (n.joined regions) held := by
  cases hqueue : op.isQueued with
  | true =>
    cases op with
    | defer r => exact exact_defer h hop
    | safePoint => exact exact_of_batch h _ rfl rfl rfl fun x hx => hx
    | drain => exact exact_of_batch h _ rfl rfl rfl fun x hx => hx
    | _ => exact absurd hqueue (by simp [Operation.isQueued])
  | false =>
    rcases allowed_cases h hop with hon | ⟨hoff, hsubject, ⟨r, index, t, o, o', rfl, ho, ht⟩ | hop'⟩
    · refine .of_keeps ?_ fun m' hm' x hx => isLive_onArena h hon hqueue hm' (isLive_of_isOutside hx)
      rw [release?, hon, hqueue]
      rfl
    · exact exact_setField_across h ho index ht
    · exact exact_of_allowed h hop' hqueue hoff hsubject

/-! ### Asking of arenas -/

theorem isLive_emptyArena (h : Divided n regions held lost) (ha : n.arenas[id]? = some a) (hx : n.isLive x = true) :
    ((n.joined regions).emptyArena id a).isLive x = true := by
  obtain ⟨o, ho⟩ := isLive_iff.1 hx
  have hnone := h.consistent.tidy.no_arena x o ho
  rw [isLive, h.object?_emptyArena ha, object?_joined h.apart ho, Option.filter_some_pos (by simp [hnone])]
  rfl

theorem isLive_destroyArena (h : Divided n regions held lost)
    (hout : ((n.joined regions).destroyArena id).memory? = some m') (hx : n.isLive x = true) : m'.isLive x = true := by
  have hlive := isLive_joined h.apart hx
  unfold Memory.destroyArena at hout
  split at hout
  · exact Option.some.inj hout ▸ hlive
  · next a ha =>
    split at hout
    · exact Option.some.inj hout ▸ hlive
    · split at hout
      · exact Option.some.inj hout ▸ hlive
      · obtain rfl := Option.some.inj hout
        exact isLive_emptyArena h ha hx

theorem isLive_place (m : Memory) (o : Object) (hx : m.isLive x = true) : (m.place o).1.isLive x = true := by
  unfold isLive object? at hx ⊢
  unfold place
  dsimp only
  rw [Array.getElem?_push]
  split
  · rfl
  · exact hx

theorem isLive_allocateFields {tag : TypeTag} {weak : List Bool}
    (hout : (m.allocateFields id tag weak).memory? = some m') (hx : m.isLive x = true) : m'.isLive x = true := by
  unfold Memory.allocateFields at hout
  split at hout
  · exact Option.some.inj hout ▸ hx
  · split at hout
    · exact Option.some.inj hout ▸ hx
    · split at hout
      · exact absurd hout (by simp [Outcome.memory?])
      · obtain rfl := Option.some.inj hout
        exact isLive_place m _ hx

/-- Whatever is asked of arenas, what is outside them stays. -/
theorem isLive_of_concernsArena (h : Divided n regions held lost) (hc : c.concernsArena = true)
    (hout : (c.outcome (n.joined regions)).memory? = some m') (hx : n.isLive x = true) : m'.isLive x = true := by
  have hlive := isLive_joined h.apart hx
  cases c with
  | operation op => exact absurd hc (by simp [concernsArena])
  | newArena => exact Option.some.inj hout ▸ hlive
  | allocateFields id tag weak =>
    rw [outcome, Outcome.memory?_bind_done] at hout
    exact isLive_allocateFields hout hlive
  | allocateInArena id tag =>
    rw [outcome, Outcome.memory?_bind_done, Memory.allocateInArena] at hout
    split at hout
    · exact Option.some.inj hout ▸ hlive
    · exact isLive_allocateFields hout hlive
  | registerExternal id r =>
    rw [outcome, Outcome.memory?_bind_done, Memory.registerExternal] at hout
    split at hout
    · exact Option.some.inj hout ▸ hlive
    · split at hout
      · exact Option.some.inj hout ▸ hlive
      · exact Option.some.inj hout ▸ hlive
  | resolveExternal id r =>
    rw [outcome, Outcome.memory?_bind_done, Memory.resolveExternal] at hout
    split at hout
    · exact Option.some.inj hout ▸ hlive
    · next a ha =>
      split at hout
      · exact Option.some.inj hout ▸ hlive
      · next externals _ =>
        dsimp only at hout
        split at hout
        · rw [Outcome.memory?_bind_done] at hout
          have hresolved := h.of_arenas (n.arenas.setIfInBounds id { a with externals }) n.stats
            (h.listed.set ha rfl rfl)
          exact isLive_destroyArena hresolved hout hx
        · exact Option.some.inj hout ▸ hlive
  | destroyArena id =>
    rw [outcome, Outcome.memory?_bind_done] at hout
    exact isLive_destroyArena h hout hx
  | destroyArenaWhenResolved id =>
    rw [outcome, Outcome.memory?_bind_done, Memory.destroyArenaWhenResolved] at hout
    split at hout
    · exact Option.some.inj hout ▸ hlive
    · split at hout
      · exact Option.some.inj hout ▸ hlive
      · rw [Outcome.memory?_bind_done] at hout
        exact isLive_destroyArena h hout hx
  | abandonArena id =>
    obtain rfl := Option.some.inj hout
    unfold Memory.abandonArena
    split
    · exact hlive
    · next a ha =>
      split
      · exact hlive
      · exact isLive_emptyArena h ha hx

theorem exact (h : Divided n regions held lost) (hc : c.Allowed (n.joined regions) held) :
    c.Exact (n.joined regions) held := by
  cases hconcerns : c.concernsArena with
  | false =>
    cases c with
    | operation op => exact exact_operation h hc
    | _ => exact absurd hconcerns (by simp [concernsArena])
  | true =>
    have hrel : c.release? (n.joined regions) = none := by
      cases c with
      | operation op => exact absurd hconcerns (by simp [concernsArena])
      | _ => rfl
    exact .of_keeps hrel fun m' hm' x hx =>
      isLive_of_concernsArena h hconcerns hm' (isLive_of_isOutside_joined h.apart hx)

end Command

/-! ## Wherever a program gets -/

variable {config : Config} {secret : UInt64} {m : Memory} {held : Multiset Ref}

/-- Wherever a program gets, with however many arenas, what can be reached from what is held is live, and if all cycles
are of the two kinds that are found, nothing else outside arenas is. A command takes out of what is outside arenas what
cannot be reached from what is held afterwards, in the release that it starts. No release goes on for ever. -/
theorem outside_live_iff_supported (h : Attained config secret m held) :
    (∀ x, m.Supported held x → m.isLive x = true) ∧
    (m.Collectable → ∀ x, m.isOutside x = true → m.Supported held x) ∧
    (∀ c : Command, c.Allowed m held → c.Exact m held) ∧
    ∀ s : ℕ → Release, ¬ ∀ n, Release.Step (s n) (s (n + 1)) := by
  obtain ⟨n, regions, lost, rfl, hdivided⟩ := h.divided
  exact ⟨fun x => hdivided.isLive_of_supported, fun hcollectable x => hdivided.supported_of_isOutside hcollectable,
    fun c => Command.exact hdivided, Release.not_endless⟩

/-- Two objects on the heap, of which one refers to the other, and one in an arena. -/
def Memory.pairBesideArena : Memory :=
  (Memory.pair 1).newArena.1.withInArena 0

theorem attained_pairBesideArena : Attained {} 0 .pairBesideArena {0} := by
  have harena := reachable_pair.attained.done .newArena trivial rfl
  exact harena.done (.allocateFields 0 0 [false]) trivial rfl

theorem collectable_pairBesideArena : Memory.pairBesideArena.Collectable := by
  refine .of_one_reference (a := 0) (b := 1) (by decide) fun x y h => ?_
  match x with
  | 0 => exact ⟨rfl, List.mem_singleton.1 h⟩
  | 1 => exact absurd h List.not_mem_nil
  | 2 => exact absurd h List.not_mem_nil
  | n + 3 => exact absurd h List.not_mem_nil

theorem outside_live_iff_supported_pair :
    Memory.pairBesideArena.Supported {0} 1 ∧ ¬ Memory.pairBesideArena.Supported {0} 3 ∧
      Memory.pairBesideArena.isOutside 2 = false ∧
      ∃ s t stats, (Command.operation (.release 0)).release? .pairBesideArena = some s ∧ s.Reclaims t 0 ∧
        ((Command.operation (.release 0)).outcome .pairBesideArena).memory? = some { t.memory with stats } := by
  obtain ⟨hlive, hsupported, hexact, -⟩ := outside_live_iff_supported attained_pairBesideArena
  refine ⟨hsupported collectable_pairBesideArena 1 rfl, fun h => absurd (hlive 3 h) (by decide), rfl, ?_⟩
  have hrelease := hexact (.operation (.release 0)) (.inr (Multiset.mem_singleton_self 0))
  obtain ⟨t, stats, hreclaims, hout⟩ := hrelease.reclaims _ rfl
  exact ⟨_, t, stats, rfl, hreclaims, hout⟩

end Reclamation
