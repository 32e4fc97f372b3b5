import Mathlib
import Reclamation.Proofs.Memory.Runs

/-!
# Nothing is left behind

Counts alone do not find cycles. Two kinds of cycles are found all the same: those of symmetric objects,
by the search for orphans, and those of the members of a component, which have one count. If memory has
only such cycles (`Collectable`), what is live is what can be reached from the references on the
ledger, once nothing is due and no orphan is overlooked (`Settled.reached`).

The argument goes backwards. A live object that cannot be reached has a live object before it that
cannot be reached either: the count of a plain object comes from a field, that of a component from a
field outside it, and a symmetric object is traced back to a field of an object of another kind
(`Settled.exists_before`). The object before is never of the same class, a class being the symmetric
objects or the members of one component; but two objects on one cycle are of the same class
(`Collectable.sameClass`). So going back never returns, and there are only so many objects.
-/

set_option autoImplicit false

namespace Reclamation

/-! ## Paths without repetition -/

/-- A path can be made to pass no place twice. -/
theorem exists_nodup_path {α : Type} {step : α → α → Prop} {a b : α}
    (h : Relation.ReflTransGen step a b) :
    ∃ path, (a :: path).Nodup ∧ (a :: path).IsChain step ∧ b ∈ (a :: path).getLast? := by
  induction h using Relation.ReflTransGen.head_induction_on with
  | refl => exact ⟨[], by simp, by simp, by simp⟩
  | @head a c hac _ ih =>
    obtain ⟨path, hnodup, hchain, hlast⟩ := ih
    by_cases ha : a ∈ c :: path
    · -- the path comes back to its start and begins there instead
      obtain ⟨pre, post, he⟩ := List.append_of_mem ha
      rw [he] at hnodup hchain hlast
      refine ⟨post, (List.nodup_append.1 hnodup).2.1, (List.isChain_append.1 hchain).2.1, ?_⟩
      rwa [List.getLast?_append_of_ne_nil _ (List.cons_ne_nil a post)] at hlast
    · refine ⟨c :: path, List.nodup_cons.2 ⟨ha, hnodup⟩, hchain.cons_cons hac, ?_⟩
      rwa [List.getLast?_cons_cons]

namespace Memory

variable {m m' : Memory} {held : Multiset Ref} {x y : Ref}

/-! ## Cycles -/

/-- A strong field of one object refers to the other. -/
def Refers (m : Memory) (x y : Ref) : Prop :=
  y ∈ m.strongTargets x

/-- One can get from one object to the other through strong fields. -/
def Reaches (m : Memory) : Ref → Ref → Prop :=
  Relation.ReflTransGen m.Refers

/-- A cycle of strong fields. -/
structure Ring (m : Memory) (first : Ref) (rest : List Ref) : Prop where
  nodup : (first :: rest).Nodup
  chain : (first :: rest ++ [first]).IsChain m.Refers

/-- Every object on a cycle refers to one. -/
theorem Ring.exists_refers {first : Ref} {rest : List Ref} (h : m.Ring first rest)
    (hx : x ∈ first :: rest) : ∃ y, m.Refers x y := by
  obtain ⟨before, after, he⟩ := List.append_of_mem hx
  have hchain := h.chain
  rw [he, List.append_assoc, List.cons_append] at hchain
  have hlast := (List.isChain_append.1 hchain).2.1
  cases hafter : after ++ [first] with
  | nil => exact absurd hafter (by simp)
  | cons y rest' =>
    rw [hafter] at hlast
    exact ⟨y, (List.isChain_cons_cons.1 hlast).1⟩

/-- Whether an object keeps references from fields apart. -/
def IsSymmetric (m : Memory) (x : Ref) : Prop :=
  ∃ o, m.object? x = some o ∧ o.symmetric = true

/-- All cycles are among symmetric objects, or each inside one component. -/
def Collectable (m : Memory) : Prop :=
  ∀ first rest, m.Ring first rest → (∀ x ∈ first :: rest, m.IsSymmetric x) ∨
    ∃ id e, m.components.entry? id = some e ∧ ∀ x ∈ first :: rest, x ∈ e.members

/-- Two objects are symmetric or members of one component. -/
def SameClass (m : Memory) (x y : Ref) : Prop :=
  (m.IsSymmetric x ∧ m.IsSymmetric y) ∨
    ∃ id e, m.components.entry? id = some e ∧ x ∈ e.members ∧ y ∈ e.members

/-- A field on a way back stays in its class. -/
theorem Collectable.sameClass_of_refers (h : m.Collectable) (hxy : m.Refers x y)
    (hyx : m.Reaches y x) : m.SameClass x y := by
  obtain ⟨path, hnodup, hchain, hlast⟩ := exists_nodup_path hyx
  have hring : m.Ring y path := by
    refine ⟨hnodup, List.isChain_append.2 ⟨hchain, List.isChain_singleton y, fun a ha b hb => ?_⟩⟩
    obtain rfl := Option.some.inj (ha.symm.trans hlast)
    obtain rfl := Option.some.inj hb
    exact hxy
  have hx : x ∈ y :: path := List.mem_of_getLast? hlast
  rcases h y path hring with hsym | ⟨id, e, he, hmem⟩
  · exact .inl ⟨hsym x hx, hsym y List.mem_cons_self⟩
  · exact .inr ⟨id, e, he, hmem x hx, hmem y List.mem_cons_self⟩

theorem SameClass.trans {outer extra : Multiset Ref} {z : Ref} (h : Balanced { memory := m } outer extra)
    (hxy : m.SameClass x y) (hyz : m.SameClass y z) : m.SameClass x z := by
  have hnot : ∀ id e, m.components.entry? id = some e → y ∈ e.members → ¬ m.IsSymmetric y := by
    rintro id e he hy ⟨o, ho, hsym⟩
    obtain ⟨o', ho', hsym', -⟩ := (h.component id e he).frozen y hy
    obtain rfl := Option.some.inj (ho.symm.trans ho')
    rw [hsym] at hsym'
    exact absurd hsym' (by decide)
  rcases hxy with ⟨hx, hy⟩ | ⟨id, e, he, hx, hy⟩
  · rcases hyz with ⟨-, hz⟩ | ⟨id, e, he, hy', -⟩
    · exact .inl ⟨hx, hz⟩
    · exact absurd hy (hnot id e he hy')
  · rcases hyz with ⟨hy', -⟩ | ⟨id', e', he', hy', hz⟩
    · exact absurd hy' (hnot id e he hy)
    · obtain rfl := h.eq_of_mem_members he he' hy hy'
      obtain rfl := Option.some.inj (he.symm.trans he')
      exact .inr ⟨id, e, he, hx, hz⟩

theorem Collectable.sameClass {outer extra : Multiset Ref} (h : m.Collectable)
    (hbal : Balanced { memory := m } outer extra) (hyx : Relation.TransGen m.Refers y x)
    (hxy : m.Reaches x y) : m.SameClass y x := by
  induction hyx with
  | single hedge => exact h.sameClass_of_refers hedge hxy
  | @tail b x hyb hbx ih =>
    have hfirst := ih (hxy.head hbx)
    exact hfirst.trans hbal (h.sameClass_of_refers hbx (hxy.trans hyb.to_reflTransGen))

/-! ## Going back -/

/-- There is a reference on the ledger from which one gets to the object. -/
def Reached (m : Memory) (outer : Multiset Ref) (x : Ref) : Prop :=
  ∃ r ∈ outer, m.Reaches r x

theorem Reached.next {outer : Multiset Ref} (h : m.Reached outer y) (hyx : m.Reaches y x) :
    m.Reached outer x := by
  obtain ⟨r, hr, hry⟩ := h
  exact ⟨r, hr, hry.trans hyx⟩

/-- An object that is rooted in nothing is rooted in a field whose holder is not unowned. -/
theorem Rooted.exists_holder {roots : Ref → Prop} (h : m.Rooted roots x) (hroots : ∀ a, ¬ roots a) :
    ∃ y, m.isUnowned y = false ∧ Relation.TransGen m.Refers y x := by
  induction h with
  | root hr => exact absurd hr (hroots _)
  | @field y x hyx _ ih =>
    cases hy : m.isUnowned y with
    | false => exact ⟨y, hy, .single hyx⟩
    | true =>
      obtain ⟨z, hz, hzy⟩ := ih hy
      exact ⟨z, hz, hzy.tail hyx⟩

theorem isLive_of_transGen (h : Relation.TransGen m.Refers y x) : m.isLive y = true := by
  induction h using Relation.TransGen.head_induction_on with
  | single hyx => exact isLive_of_mem_strongTargets hyx
  | head hyz => exact isLive_of_mem_strongTargets hyz

namespace Settled

variable {outer : Multiset Ref} {o : Object}

/-- Before a symmetric object comes one that is not. -/
theorem exists_before_symmetric (h : m.Settled outer) (ho : m.object? x = some o)
    (hsym : o.symmetric = true) (hx : ¬ m.Reached outer x) :
    ∃ y, Relation.TransGen m.Refers y x ∧ ¬ m.SameClass y x := by
  have hcount : o.count.toNat = 0 := by
    rw [(h.balanced.symmetric x o ho hsym).2.1, Multiset.count_eq_zero]
    exact fun hmem => hx ⟨x, hmem, .refl⟩
  have hunowned : m.isUnowned x = true := isUnowned_iff.2 ⟨o, ho, hsym, eq_zero_iff_toNat.2 hcount⟩
  obtain ⟨y, hy, hyx⟩ := (h.traced x hunowned).exists_holder (by simp)
  refine ⟨y, hyx, ?_⟩
  rintro (⟨⟨oy, hoy, hsymy⟩, -⟩ | ⟨id, e, he, -, hmem⟩)
  · -- a symmetric object that is not unowned is on the ledger
    have hcounty : oy.count ≠ 0 := fun hc => by
      rw [isUnowned_iff.2 ⟨oy, hoy, hsymy, hc⟩] at hy
      exact absurd hy (by decide)
    have hmem : y ∈ outer := by
      rw [← Multiset.count_ne_zero, ← (h.balanced.symmetric y oy hoy hsymy).2.1]
      exact fun hc => hcounty (eq_zero_iff_toNat.2 hc)
    exact hx ⟨y, hmem, hyx.to_reflTransGen⟩
  · have hcomp := (h.balanced.mem_members_iff ho he).1 hmem
    rw [(h.balanced.symmetric x o ho hsym).1] at hcomp
    exact absurd hcomp (by simp)

/-- Before a plain object comes the holder of a field. -/
theorem exists_before_plain (h : m.Settled outer) (ho : m.object? x = some o)
    (hsym : o.symmetric = false) (hcomp : o.component = none) (hx : ¬ m.Reached outer x) :
    ∃ y, Relation.TransGen m.Refers y x ∧ ¬ m.SameClass y x := by
  have hdue := h.balanced.plain_due x o ho hsym hcomp
  have hcount : (outer + 0 + m.references).count x ≠ 0 := fun hc => absurd (hdue.2 hc) (by simp)
  rw [Multiset.count_ne_zero, add_zero, Multiset.mem_add] at hcount
  rcases hcount with hmem | hmem
  · exact absurd ⟨x, hmem, .refl⟩ hx
  · obtain ⟨y, hyx⟩ := mem_references.1 hmem
    refine ⟨y, .single hyx, ?_⟩
    rintro (⟨-, ox, hox, hsymx⟩ | ⟨id, e, he, -, hmem⟩)
    · obtain rfl := Option.some.inj (ho.symm.trans hox)
      rw [hsym] at hsymx
      exact absurd hsymx (by decide)
    · have := (h.balanced.mem_members_iff ho he).1 hmem
      rw [hcomp] at this
      exact absurd this (by simp)

/-- Before the member of a component comes an object outside it. -/
theorem exists_before_member (h : m.Settled outer) {id : ComponentId} {e : ComponentEntry}
    (he : m.components.entry? id = some e) (hmem : x ∈ e.members) (hx : ¬ m.Reached outer x) :
    ∃ y, Relation.TransGen m.Refers y x ∧ ¬ m.SameClass y x := by
  have hfrozen := h.balanced.component id e he
  have hknit : ∀ g ∈ e.members, m.Reaches g x := fun g hg =>
    Relation.ReflTransGen.mono (fun a b hab => hab.2.2) g x (hfrozen.knit g hg x hmem)
  have hdue := h.balanced.external_due id e he
  have hexternal : e.external ≠ 0 := fun hc => absurd (hdue.2 hc) (by simp)
  rw [h.balanced.external id e he, Ne, Multiset.countP_eq_zero] at hexternal
  push Not at hexternal
  obtain ⟨g, hg, hgmem⟩ := hexternal
  rw [add_zero, Multiset.mem_add] at hg
  rcases hg with hg | hg
  · exact absurd ⟨g, hg, hknit g hgmem⟩ hx
  · obtain ⟨y, hy, hyg⟩ := mem_referencesOutside.1 hg
    refine ⟨y, .head' hyg (hknit g hgmem), ?_⟩
    obtain ⟨o, ho, hsym, -⟩ := hfrozen.frozen x hmem
    rintro (⟨-, ox, hox, hsymx⟩ | ⟨id', e', he', hy', hx'⟩)
    · obtain rfl := Option.some.inj (ho.symm.trans hox)
      rw [hsym] at hsymx
      exact absurd hsymx (by decide)
    · obtain rfl := h.balanced.eq_of_mem_members he he' hmem hx'
      obtain rfl := Option.some.inj (he.symm.trans he')
      exact hy hy'

/-- Before an object that cannot be reached comes one of another class. -/
theorem exists_before (h : m.Settled outer) (hlive : m.isLive x = true)
    (hx : ¬ m.Reached outer x) : ∃ y, Relation.TransGen m.Refers y x ∧ ¬ m.SameClass y x := by
  obtain ⟨o, ho⟩ := isLive_iff.1 hlive
  cases hsym : o.symmetric with
  | true => exact h.exists_before_symmetric ho hsym hx
  | false =>
    cases hcomp : o.component with
    | none => exact h.exists_before_plain ho hsym hcomp hx
    | some id =>
      obtain ⟨e, he, hmem⟩ := h.balanced.member x o id ho hcomp
      exact h.exists_before_member he hmem hx

open Classical in
/-- What is live can be reached. -/
theorem reached (h : m.Settled outer) (hcollectable : m.Collectable) (hlive : m.isLive x = true) :
    m.Reached outer x := by
  -- the induction is on how many objects come before
  induction hn : ((Finset.range m.cells.size).filter fun z => m.Reaches z x).card using
    Nat.strong_induction_on generalizing x with
  | _ n ih =>
    by_contra hx
    obtain ⟨y, hyx, hclass⟩ := h.exists_before hlive hx
    have hylive := isLive_of_transGen hyx
    have hback : ¬ m.Reaches x y := fun hxy => hclass (hcollectable.sameClass h.balanced hyx hxy)
    refine hx (Reached.next (ih _ ?_ hylive rfl) hyx.to_reflTransGen)
    rw [← hn]
    refine Finset.card_lt_card (Finset.ssubset_iff_of_subset ?_ |>.2 ⟨x, ?_, ?_⟩)
    · intro z hz
      rw [Finset.mem_filter] at hz ⊢
      exact ⟨hz.1, hz.2.trans hyx.to_reflTransGen⟩
    · rw [Finset.mem_filter, Finset.mem_range]
      exact ⟨lt_size_of_isLive hlive, .refl⟩
    · rw [Finset.mem_filter]
      exact fun hz => hback hz.2

/-- What can be reached is live. -/
theorem isLive_of_reached (h : m.Settled outer) (hx : m.Reached outer x) : m.isLive x = true := by
  obtain ⟨r, hr, hrx⟩ := hx
  induction hrx with
  | refl => exact h.balanced.ledger_live r (by simpa using hr)
  | tail _ hedge _ => exact h.balanced.targets_live _ _ hedge

end Settled

/-! ## What is held -/

/-- The object is held: the program or the queue of decrements refers to it or to a member of its
component, or, if it is symmetric, its count is not zero. -/
inductive Held (m : Memory) (held : Multiset Ref) : Ref → Prop
  | plain {r : Ref} {o : Object} : m.object? r = some o → o.symmetric = false →
      m.countingComponent? o = none → r ∈ held + ↑m.deferred → Held m held r
  | symmetric {r : Ref} {o : Object} : m.object? r = some o → o.symmetric = true → o.count ≠ 0 →
      Held m held r
  | member {r x : Ref} {id : ComponentId} {e : ComponentEntry} :
      m.components.entry? id = some e → r ∈ e.members → x ∈ e.members → x ∈ held + ↑m.deferred →
        Held m held r

/-- There is a held object from which one gets to the object. -/
def Supported (m : Memory) (held : Multiset Ref) (x : Ref) : Prop :=
  ∃ r, m.Held held r ∧ m.Reaches r x

end Memory

namespace Balanced

open Memory

variable {s : Release} {held own : Multiset Ref} {x : Ref}

theorem held_of_mem (h : Balanced s (held + ↑s.memory.deferred + own) 0)
    (hown : ∀ x ∈ own, s.memory.IsSymmetric x) (hx : x ∈ held + ↑s.memory.deferred + own) :
    s.memory.Held held x := by
  obtain ⟨o, ho⟩ := isLive_iff.1 (h.ledger_live x (by simpa using hx))
  cases hsym : o.symmetric with
  | true =>
    refine .symmetric ho hsym fun hc => ?_
    have hcount := (h.symmetric x o ho hsym).2.1
    rw [hc] at hcount
    exact Multiset.count_ne_zero.2 hx hcount.symm
  | false =>
    have hmem : x ∈ held + ↑s.memory.deferred := by
      rcases Multiset.mem_add.1 hx with hx | hx
      · exact hx
      · obtain ⟨o', ho', hsym'⟩ := hown x hx
        obtain rfl := Option.some.inj (ho.symm.trans ho')
        rw [hsym] at hsym'
        exact absurd hsym' (by decide)
    cases hcomp : o.component with
    | none => exact .plain ho hsym ((h.countingComponent?_eq ho).trans hcomp) hmem
    | some id =>
      obtain ⟨e, he, hxe⟩ := h.member x o id ho hcomp
      exact .member he hxe hxe hmem

theorem reached_of_held (h : Balanced s (held + ↑s.memory.deferred + own) 0)
    (hx : s.memory.Held held x) : s.memory.Reached (held + ↑s.memory.deferred + own) x := by
  cases hx with
  | plain _ _ _ hmem => exact ⟨x, Multiset.mem_add.2 (.inl hmem), .refl⟩
  | symmetric ho hsym hc =>
    refine ⟨x, Multiset.count_ne_zero.1 ?_, .refl⟩
    rw [← (h.symmetric x _ ho hsym).2.1]
    exact fun hzero => hc (eq_zero_iff_toNat.2 hzero)
  | @member y id e he hxe hye hmem =>
    refine ⟨y, Multiset.mem_add.2 (.inl hmem), ?_⟩
    exact Relation.ReflTransGen.mono (fun a b hab => hab.2.2) y x
      ((h.component id e he).knit y hye x hxe)

/-- What is held is what the ledger has, up to objects that these refer to. -/
theorem supported_iff (h : Balanced s (held + ↑s.memory.deferred + own) 0)
    (hown : ∀ x ∈ own, s.memory.IsSymmetric x) :
    s.memory.Supported held x ↔ s.memory.Reached (held + ↑s.memory.deferred + own) x := by
  constructor
  · rintro ⟨r, hr, hrx⟩
    exact (h.reached_of_held hr).next hrx
  · rintro ⟨r, hr, hrx⟩
    exact ⟨r, h.held_of_mem hown hr, hrx⟩

end Balanced

/-- What scopes own and what is lost is symmetric. -/
theorem Memory.Consistent.isSymmetric {m : Memory} {held lost : Multiset Ref} {x : Ref}
    (h : m.Consistent held lost) (hx : x ∈ lost + m.scopeRefs) : m.IsSymmetric x := by
  obtain ⟨o, ho⟩ := isLive_iff.1 (h.isLive_of_mem (x := x) (by
    simp only [Multiset.mem_add] at hx ⊢
    tauto))
  refine ⟨o, ho, ?_⟩
  by_contra hsym
  obtain ⟨hlost, hscopes⟩ := h.not_mem_of_not_symmetric ho (by simpa using hsym)
  rcases Multiset.mem_add.1 hx with hx | hx
  · exact hlost hx
  · exact hscopes hx

/-! ## What a release leaves alone -/

namespace Release

open Memory

variable {s t : Release} {outer extra : Multiset Ref} {x y : Ref}

theorem strongTargets_discard {group : List Ref} (htidy : s.memory.Tidy) (h : s.discard group = some t)
    (hx : t.memory.isLive x = true) : t.memory.strongTargets x = s.memory.strongTargets x := by
  obtain ⟨hnodup, hlive⟩ := nodup_live_of_discard htidy h
  have hremove := Without.removeAll htidy hnodup hlive
  have hrecounted := recounted_discard h
  rw [hrecounted.isLive] at hx
  rw [hrecounted.strongTargets, hremove.1.strongTargets]
  exact if_neg ((hremove.1.isLive_iff x).1 hx).1

theorem Step.strongTargets (h : Balanced s outer extra) (hstep : Step s t)
    (hx : t.memory.isLive x = true) : t.memory.strongTargets x = s.memory.strongTargets x := by
  obtain ⟨components, work, candidates, u, released, hprepared, hd, rfl⟩ := hstep.discards h
  have htidy := h.tidy.of_components hprepared.sound
  have hkept := strongTargets_discard htidy hd hx
  exact hkept

theorem Steps.strongTargets (h : Balanced s outer extra) (hsteps : Steps s t)
    (hx : t.memory.isLive x = true) : t.memory.strongTargets x = s.memory.strongTargets x := by
  induction hsteps with
  | refl => rfl
  | tail hsteps hstep ih =>
    have hbal := h.steps hsteps
    obtain ⟨o', ho'⟩ := isLive_iff.1 hx
    obtain ⟨o, ho, -⟩ := (hstep.steady hbal).object x o' ho'
    rw [hstep.strongTargets hbal hx, ih (isLive_of_object? ho)]

/-- No release goes on for ever. -/
theorem not_endless (s : ℕ → Release) : ¬ ∀ n, Step (s n) (s (n + 1)) := by
  intro h
  have hmeasure : ∀ n, (s (n + 1)).measure < (s n).measure := fun n => (h n).measure_lt
  exact (RelEmbedding.natGT (fun n => (s n).measure) hmeasure).not_wellFounded wellFounded_lt

/-- A release takes out what cannot be reached from what is held, and nothing else. -/
theorem Completes.exact {held lost : Multiset Ref} (h : s.Completes held lost) :
    ∃ t, s.run = some t ∧ (∀ x, s.memory.Supported held x → t.memory.isLive x = true) ∧
      (t.memory.Collectable → ∀ x, t.memory.isLive x = true → s.memory.Supported held x) := by
  obtain ⟨t, hsteps, hrun, hm, hbal⟩ := h.ends
  have hsteady := hsteps.steady hbal
  have hsettled := hm.settled
  rw [show held + lost + ↑t.memory.deferred + t.memory.scopeRefs =
    held + ↑t.memory.deferred + (lost + t.memory.scopeRefs) by abel] at hbal hsettled
  have hown : ∀ x ∈ lost + t.memory.scopeRefs, s.memory.IsSymmetric x := by
    intro x hx
    obtain ⟨o', ho', hsym'⟩ := hm.isSymmetric hx
    obtain ⟨o, ho, hsym⟩ := hsteady.object x o' ho'
    exact ⟨o, ho, hsym.symm.trans hsym'⟩
  rw [hsteady.aside.deferred] at hbal hsettled
  refine ⟨t, hrun, fun x hx => ?_, fun hcollectable x hx => ?_⟩
  · obtain ⟨r, hr, hrx⟩ := (hbal.supported_iff hown).1 hx
    induction hrx with
    | refl => exact hsettled.isLive_of_reached ⟨r, hr, .refl⟩
    | tail _ hedge ih =>
      -- the holder of the field is still there, and so is the field
      have hlive := ih ⟨r, hbal.held_of_mem hown hr, by assumption⟩
      rw [Refers, ← hsteps.strongTargets hbal hlive] at hedge
      exact hsettled.balanced.targets_live _ _ hedge
  · obtain ⟨r, hr, hrx⟩ := hsettled.reached hcollectable hx
    refine (hbal.supported_iff hown).2 ⟨r, hr, ?_⟩
    refine Relation.ReflTransGen.mono (fun a b hab => ?_) r x hrx
    rw [Refers, ← hsteps.strongTargets hbal (isLive_of_mem_strongTargets hab)]
    exact hab

end Release

/-! ## What is live -/

variable {config : Config} {secret : UInt64} {m : Memory} {held : Multiset Ref}

/-- Consistent memory is settled with what the program holds and what waits, and beside that what scopes own and what is
lost. -/
theorem Memory.Consistent.settled_apart {lost : Multiset Ref} (h : m.Consistent held lost) :
    m.Settled (held + ↑m.deferred + (lost + m.scopeRefs)) := by
  have hsettled := h.settled
  rwa [show held + lost + ↑m.deferred + m.scopeRefs = held + ↑m.deferred + (lost + m.scopeRefs) by
    abel] at hsettled

theorem Memory.Consistent.supported_iff {lost : Multiset Ref} (h : m.Consistent held lost) (x : Ref) :
    m.Supported held x ↔ m.Reached (held + ↑m.deferred + (lost + m.scopeRefs)) x :=
  h.settled_apart.balanced.supported_iff fun _ => h.isSymmetric

/-- What can be reached from what is held is live, whatever cycles there are. -/
theorem Memory.Consistent.isLive_of_supported {lost : Multiset Ref} {x : Ref} (h : m.Consistent held lost)
    (hx : m.Supported held x) : m.isLive x = true :=
  h.settled_apart.isLive_of_reached ((h.supported_iff x).1 hx)

theorem Memory.Consistent.isLive_iff {lost : Multiset Ref} (h : m.Consistent held lost)
    (hcollectable : m.Collectable) (x : Ref) : m.isLive x = true ↔ m.Supported held x := by
  refine ⟨fun hlive => ?_, h.isLive_of_supported⟩
  exact (h.supported_iff x).2 (h.settled_apart.reached hcollectable hlive)

/-- One reference from one object to another closes no cycle. -/
theorem Memory.Collectable.of_one_reference {a b : Ref} (hab : a ≠ b)
    (hrefers : ∀ x y, m.Refers x y → x = a ∧ y = b) : m.Collectable := by
  rintro first rest ⟨-, hchain⟩
  exfalso
  cases rest with
  | nil =>
    obtain ⟨hfirst, hsecond⟩ := hrefers _ _ (List.isChain_cons_cons.1 hchain).1
    exact hab (hfirst.symm.trans hsecond)
  | cons r rest =>
    obtain ⟨hedge, hchain⟩ := List.isChain_cons_cons.1 hchain
    obtain ⟨-, hr⟩ := hrefers _ _ hedge
    -- the second object refers to nothing
    cases rest with
    | nil => exact hab ((hrefers _ _ (List.isChain_cons_cons.1 hchain).1).1.symm.trans hr)
    | cons r' rest => exact hab ((hrefers _ _ (List.isChain_cons_cons.1 hchain).1).1.symm.trans hr)

end Reclamation
