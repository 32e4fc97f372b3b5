import Mathlib
import Reclamation.Proofs.Memory.Programs

/-!
# Weak fields wherever a program gets

The list of weak fields is right after every command, since counted memory is wired (`Wired`) and no list is left
behind empty (`Memory.Tight`). Of the fields of objects that stay, a command empties the weak ones that refer to what
it frees and no others, after it has written the field that it writes (`Memory.Swept`). Neither writing a weak field
nor taking out the object at either end of one changes a count of another object (`Memory.SameCounts`).
-/

set_option autoImplicit false

namespace Reclamation

namespace Memory

variable {m m' m'' : Memory} {r x : Ref}

/-! ## No list is empty -/

/-- Only objects to which weak fields refer have a list. -/
def Tight (m : Memory) : Prop :=
  ∀ t ∈ m.referrers, m.referrers.getD t [] ≠ []

namespace Tight

theorem of_referrers (h : m.Tight) (he : m'.referrers = m.referrers) : m'.Tight := by
  unfold Tight
  rw [he]
  exact h

theorem erase (h : m.Tight) (t : Ref) : ({ m with referrers := m.referrers.erase t } : Memory).Tight := by
  intro s hs
  rw [Std.HashMap.mem_erase] at hs
  rw [Std.HashMap.getD_erase, if_neg (by simp [hs.1])]
  exact h s hs.2

theorem insert (h : m.Tight) (t : Ref) {fields : List (Ref × Nat)} (hfields : fields ≠ []) :
    ({ m with referrers := m.referrers.insert t fields } : Memory).Tight := by
  intro s hs
  rw [Std.HashMap.mem_insert] at hs
  rw [Std.HashMap.getD_insert]
  split
  · exact hfields
  · next hne => exact h s (hs.resolve_left hne)

theorem watch (h : m.Tight) (holder : Ref) (index : Nat) (target : Ref) : (m.watch holder index target).Tight :=
  h.insert target (List.cons_ne_nil _ _)

theorem unwatch (h : m.Tight) (holder : Ref) (index : Nat) (target : Ref) :
    (m.unwatch holder index target).Tight := by
  unfold Memory.unwatch
  dsimp only
  split
  · exact h.erase target
  · next hrest => exact h.insert target (by simpa using hrest)

theorem unwatchAll (holder : Ref) : ∀ (targets : List (Nat × Ref)) {m : Memory}, m.Tight →
    (targets.foldl (fun m (index, target) => m.unwatch holder index target) m).Tight := by
  intro targets
  induction targets with
  | nil => exact fun h => h
  | cons target targets ih => exact fun h => ih (h.unwatch holder target.1 target.2)

theorem clearReferrers (h : m.Tight) (r : Ref) : (m.clearReferrers r).Tight :=
  (h.erase r).of_referrers (referrers_clearReferrers m r)

theorem remove (h : m.Tight) (r : Ref) : (m.remove r).Tight := by
  unfold Memory.remove
  split
  · exact h
  · next o _ =>
    refine (unwatchAll r o.weakTargets (h.clearReferrers r)).of_referrers ?_
    unfold vacate
    cases o.origin <;> rfl

theorem lasting : Lasting Tight where
  remove r h := h.remove r
  recount hm h := h.of_referrers hm.referrers
  count _ _ h := h.of_referrers rfl

/-- Writing a weak field takes it off one list and puts it on another. -/
theorem writeWeak (h : m.Tight) (r : Ref) (index : Nat) (old target : Option Ref) :
    (m.writeWeak r index old target).Tight := by
  have hset : (m.update r (·.setTarget index target)).Tight := h
  have hold : (old.elim (m.update r (·.setTarget index target)) fun t =>
      (m.update r (·.setTarget index target)).unwatch r index t).Tight := by
    cases old with
    | none => exact hset
    | some t => exact hset.unwatch r index t
  unfold Memory.writeWeak
  cases target with
  | none => exact hold
  | some t => exact hold.watch r index t

theorem written (h : m.Tight) (c : Command) : (c.written m).Tight := by
  cases c with
  | operation op =>
    cases op with
    | setField r index target =>
      rw [Command.written, Operation.written]
      split
      · exact h
      · split
        · exact h
        · split
          · exact h.writeWeak r index _ target
          · exact h
    | _ => exact h
  | _ => exact h

/-- As many objects have a list as weak fields refer to. -/
theorem exists_targets (h : m.Tight) (hw : m.Wired) : ∃ targets : Finset Ref,
    (∀ t, t ∈ targets ↔ ∃ x i, m.weakTarget? x i = some t) ∧ m.watchedCount = targets.card := by
  refine ⟨m.referrers.keys.toFinset, fun t => ?_, ?_⟩
  · rw [List.mem_toFinset, Std.HashMap.mem_keys]
    constructor
    · intro ht
      obtain ⟨⟨x, i⟩, hmem⟩ := List.exists_mem_of_ne_nil _ (h t ht)
      exact ⟨x, i, hw.mem_iff.1 hmem⟩
    · rintro ⟨x, i, hx⟩
      by_contra hnot
      have hmem := hw.mem_iff.2 hx
      rw [Std.HashMap.getD_eq_fallback hnot] at hmem
      exact absurd hmem (by simp)
  · rw [List.toFinset_card_of_nodup Std.HashMap.nodup_keys, Std.HashMap.length_keys]
    rfl

end Tight

end Memory

namespace Memory

variable {m m' m'' : Memory} {r x : Ref}

theorem Change.tight (h : Change m m') (hm : m.Tight) : m'.Tight := by
  cases h with
  | recount hrecounted _ => exact hm.of_referrers hrecounted.referrers
  | rearrange _ types scopes applied => exact hm
  | search _ _ => exact hm
  | @freeze s members components id hreg =>
    refine hm.of_referrers ?_
    rw [Release.frozen, markFrozen_eq]
  | step _ hstep => exact Tight.lasting.step hstep hm

theorem Tight.advance {c : Command} (h : c.Advance m m') (hm : m.Tight) : m'.Tight := by
  cases h with
  | changed deferred hchanges =>
    have hwritten : ({ c.written m with deferred } : Memory).Tight := hm.written c
    exact hchanges.keeps Change.tight hwritten
  | placed _ hplaced => exact hm.of_referrers hplaced.referrers
  | beside _ hbeside => exact hm.of_referrers hbeside.referrers

end Memory

/-! ## Fields of objects that stay -/

theorem Object.weakTarget?_of_fields {o o' : Object} {p : Nat → Bool} (h : o'.fields = emptiedFields p o.fields)
    (i : Nat) : o'.weakTarget? i = if p i then none else o.weakTarget? i := by
  rw [← weakTarget?_emptied, weakTarget?, weakTarget?, h, fields_emptied]

namespace Memory

variable {m m' m'' : Memory} {r x : Ref}

/-- No object is new, and of the fields only weak ones are emptied that referred to what is gone. -/
def Swept (m m' : Memory) : Prop :=
  ∀ x o', m'.object? x = some o' → ∃ o p, m.object? x = some o ∧ o'.fields = emptiedFields p o.fields ∧
    ∀ i, p i = true → ∃ t, o.weakTarget? i = some t ∧ m'.isLive t = false

namespace Swept

theorem of_fields (h : ∀ x o', m'.object? x = some o' → ∃ o, m.object? x = some o ∧ o'.fields = o.fields) :
    Swept m m' := by
  intro x o' ho'
  obtain ⟨o, ho, hfields⟩ := h x o' ho'
  exact ⟨o, fun _ => false, ho, by rw [emptiedFields_false, hfields], by simp⟩

theorem refl (m : Memory) : Swept m m :=
  .of_fields fun _ o ho => ⟨o, ho, rfl⟩

theorem isLive (h : Swept m m') (hx : m'.isLive x = true) : m.isLive x = true := by
  obtain ⟨o', ho'⟩ := isLive_iff.1 hx
  obtain ⟨o, p, ho, -⟩ := h x o' ho'
  exact isLive_of_object? ho

theorem trans (h : Swept m m') (h' : Swept m' m'') : Swept m m'' := by
  intro x o'' ho''
  obtain ⟨o', p', ho', hfields', hgone'⟩ := h' x o'' ho''
  obtain ⟨o, p, ho, hfields, hgone⟩ := h x o' ho'
  refine ⟨o, fun i => p i || p' i, ho, by rw [hfields', hfields, emptiedFields_emptiedFields], fun i hi => ?_⟩
  rw [Bool.or_eq_true] at hi
  rcases hi with hi | hi
  · obtain ⟨t, ht, hdead⟩ := hgone i hi
    refine ⟨t, ht, ?_⟩
    by_contra hlive
    rw [h'.isLive (by simpa using hlive)] at hdead
    exact absurd hdead (by decide)
  · obtain ⟨t, ht, hdead⟩ := hgone' i hi
    rw [Object.weakTarget?_of_fields hfields] at ht
    split at ht
    · exact absurd ht (by simp)
    · exact ⟨t, ht, hdead⟩

theorem of_recounted (h : Recounted m m') : Swept m m' := by
  refine of_fields fun x o' ho' => ?_
  obtain ⟨o, count, internal, ho, rfl⟩ := h.back ho'
  exact ⟨o, ho, rfl⟩

theorem remove (hw : m.Wired) (hr : m.isLive r = true) : Swept m (m.remove r) := by
  intro x o' ho'
  rw [object?_remove hw hr] at ho'
  split at ho'
  · exact absurd ho' (by simp)
  · obtain ⟨o, ho, rfl⟩ := Option.map_eq_some_iff.1 ho'
    refine ⟨o, _, ho, o.fields_emptied _, fun i hi => ⟨r, by simpa using hi, ?_⟩⟩
    by_contra hlive
    exact ((isLive_remove hw hr r).1 (by simpa using hlive)).1 rfl

theorem removeAll : ∀ (group : List Ref) {m : Memory}, m.Tidy → Swept m (group.foldl Memory.remove m) := by
  intro group
  induction group with
  | nil => exact fun _ => .refl _
  | cons r group ih =>
    intro m h
    by_cases hr : m.isLive r = true
    · exact (Swept.remove h.wired hr).trans (ih (h.remove hr))
    · rw [List.foldl_cons, remove_of_not_isLive (by simpa using hr)]
      exact ih h

/-- What is emptied is all that would dangle. -/
theorem exact (h : Swept m m') (hw : m'.Wired) {o' : Object} (ho' : m'.object? x = some o') :
    ∃ o, m.object? x = some o ∧
      o'.fields = emptiedFields (fun i => (o.weakTarget? i).any fun t => !m'.isLive t) o.fields := by
  obtain ⟨o, p, ho, hfields, hgone⟩ := h x o' ho'
  refine ⟨o, ho, hfields.trans (emptiedFields_congr fun i _ _ _ => ?_)⟩
  rw [Bool.eq_iff_iff, Option.any_eq_true]
  constructor
  · intro hi
    obtain ⟨t, ht, hdead⟩ := hgone i hi
    exact ⟨t, ht, by simp [hdead]⟩
  · rintro ⟨t, ht, hdead⟩
    by_contra hi
    have hweak : m'.weakTarget? x i = some t := by
      rw [weakTarget?, ho', Option.bind_some, Object.weakTarget?_of_fields hfields, if_neg hi, ht]
    rw [hw.live x i t hweak] at hdead
    exact absurd hdead (by decide)

end Swept

end Memory

namespace Release

open Memory

variable {s t : Release} {outer extra : Multiset Ref}

theorem swept_discard {group : List Ref} (htidy : s.memory.Tidy) (h : s.discard group = some t) :
    Swept s.memory t.memory := by
  have hremoved := Swept.removeAll group htidy
  exact hremoved.trans (.of_recounted (recounted_discard h))

theorem Step.swept (h : Balanced s outer extra) (hstep : Step s t) : Swept s.memory t.memory := by
  obtain ⟨components, work, candidates, u, released, hprepared, hd, rfl⟩ := hstep.discards h
  have htidy := h.tidy.of_components hprepared.sound
  have hswept := swept_discard htidy hd
  exact hswept

end Release

namespace Memory

variable {m m' : Memory} {r x : Ref}

theorem Change.swept (h : Change m m') : Swept m m' := by
  cases h with
  | recount hrecounted _ => exact .of_recounted hrecounted
  | rearrange _ types scopes applied => exact .of_fields fun _ o ho => ⟨o, ho, rfl⟩
  | search _ _ => exact .of_fields fun _ o ho => ⟨o, ho, rfl⟩
  | @freeze s members components id hreg =>
    refine .of_fields fun x o' ho' => ?_
    have hobject : (s.frozen members components id).memory.object? x = _ :=
      object?_markFrozen id x members { s.memory with components }
    rw [hobject] at ho'
    split at ho'
    · obtain ⟨o, ho, rfl⟩ := Option.map_eq_some_iff.1 ho'
      exact ⟨o, ho, rfl⟩
    · exact ⟨o', ho', rfl⟩
  | step hbalanced hstep => exact hstep.swept hbalanced

theorem Changes.swept (h : Changes m m') : Swept m m' :=
  h.induction .refl .trans Change.swept

/-! ## Counts -/

/-- Some objects are gone. Of the others all counts are the same, and so is what their strong fields refer to. -/
structure SameCounts (gone : List Ref) (m m' : Memory) : Prop where
  isLive : ∀ x, m'.isLive x = true ↔ x ∉ gone ∧ m.isLive x = true
  object : ∀ x o o', m.object? x = some o → m'.object? x = some o' →
    o'.count = o.count ∧ o'.internal = o.internal ∧ o'.strongTargets = o.strongTargets
  components : m'.components = m.components

namespace SameCounts

theorem refl (m : Memory) : SameCounts [] m m where
  isLive x := by simp
  object x o o' ho ho' := by
    obtain rfl := Option.some.inj (ho.symm.trans ho')
    exact ⟨rfl, rfl, rfl⟩
  components := rfl

theorem setTarget {o : Object} {index : Nat} (ho : m.object? r = some o)
    (hweak : o.fields[index]?.any (·.weak) = true) (target : Option Ref) :
    SameCounts [] m (m.update r (·.setTarget index target)) where
  isLive x := by simp [isLive_update]
  object x o₁ o' ho₁ ho' := by
    rw [object?_update] at ho'
    split at ho'
    · next hx =>
      subst hx
      obtain rfl := Option.some.inj (ho.symm.trans ho₁)
      rw [ho] at ho'
      obtain rfl := Option.some.inj ho'
      obtain ⟨f, hf, hfweak⟩ := (Option.any_eq_true _ _).1 hweak
      have hstrong := Object.strongTargets_setTarget_of_weak hf hfweak target
      obtain ⟨payload, he⟩ := o.setTarget_eq index target
      dsimp only
      rw [he] at hstrong ⊢
      exact ⟨rfl, rfl, hstrong⟩
    · obtain rfl := Option.some.inj (ho₁.symm.trans ho')
      exact ⟨rfl, rfl, rfl⟩
  components := rfl

/-- Writing a weak field. -/
theorem setField {o : Object} {index : Nat} {target : Option Ref} (ho : m.object? r = some o)
    (hweak : o.fields[index]?.any (·.weak) = true) (hout : (m.setField r index target).memory? = some m') :
    SameCounts [] m m' := by
  rw [Memory.setField, ho] at hout
  dsimp only at hout
  cases hfault : m.fieldFault? o index target with
  | some fault =>
    rw [hfault] at hout
    obtain rfl := Option.some.inj hout
    exact .refl m
  | none =>
    rw [hfault] at hout
    dsimp only at hout
    have hset := SameCounts.setTarget ho hweak target
    by_cases harena : o.arena?.isSome = true
    · rw [if_pos harena] at hout
      obtain rfl := Option.some.inj hout
      exact hset
    · rw [if_neg harena, if_pos hweak] at hout
      obtain rfl := Option.some.inj hout
      obtain ⟨referrers, he, -⟩ := m.writeWeak_eq r index (o.target? index) target
      rw [he]
      exact ⟨hset.isLive, hset.object, hset.components⟩

theorem of_without {group : List Ref} (h : Without group m m') : SameCounts group m m' where
  isLive := h.isLive_iff
  object x o o' ho ho' := by
    obtain ⟨-, o₁, ho₁, halike⟩ := h.back x o' ho'
    obtain rfl := Option.some.inj (ho.symm.trans ho₁)
    exact ⟨halike.count_eq, halike.internal_eq, halike.2⟩
  components := h.components

end SameCounts

/-! ## Objects outside arenas -/

/-- Whether a cell holds an object that is in no arena. -/
def isOutside (m : Memory) (x : Ref) : Bool :=
  (m.object? x).any (·.arena?.isNone)

/-- What a weak field of an object outside arenas refers to. -/
def watchedTarget? (m : Memory) (x : Ref) (i : Nat) : Option Ref :=
  ((m.object? x).filter (·.arena?.isNone)).bind (·.weakTarget? i)

/-- The list of weak fields is right, and nothing in it is gone. -/
structure Watched (m : Memory) : Prop where
  listed : ∀ t x i, (m.referrers.getD t []).count (x, i) = if m.watchedTarget? x i = some t then 1 else 0
  outside : ∀ x i t, m.watchedTarget? x i = some t → m.isOutside t = true
  targets : ∃ targets : Finset Ref, (∀ t, t ∈ targets ↔ ∃ x i, m.watchedTarget? x i = some t) ∧
    m.watchedCount = targets.card

/-- A new object refers to nothing. Of one that stays the weak fields are emptied that refer to what is gone, once the
field that the command writes is written, and no others. -/
def Follows (c : Command) (m m' : Memory) : Prop :=
  ∀ x o', m'.object? x = some o' → o'.arena? = none →
    (m.object? x = none ∧ ∀ i, o'.target? i = none) ∨ ∃ o, (c.written m).object? x = some o ∧
      o'.fields = emptiedFields (fun i => (o.weakTarget? i).any fun t => !m'.isOutside t) o.fields

variable {n n' : Memory} {regions regions' : Regions} {held held' lost lost' : Multiset Ref} {c : Command}

theorem isOutside_joined (h : Divided n regions held lost) (x : Ref) :
    (n.joined regions).isOutside x = n.isLive x := by
  rcases object?_joined_cases (r := x) h.apart with ⟨-, ho⟩ | ⟨o, hsome, hempty, ho⟩
  · rw [isOutside, ho, isLive]
    cases hn : n.object? x with
    | none => rfl
    | some o => simp [h.consistent.tidy.no_arena x o hn]
  · have harena := h.apart.arena x o hsome
    rw [isOutside, ho, isLive, hempty, Option.any_some, ← Option.not_isSome, harena]
    rfl

theorem watchedTarget?_joined (h : Divided n regions held lost) (x : Ref) (i : Nat) :
    (n.joined regions).watchedTarget? x i = n.weakTarget? x i := by
  rcases object?_joined_cases (r := x) h.apart with ⟨-, ho⟩ | ⟨o, hsome, hempty, ho⟩
  · rw [watchedTarget?, ho, weakTarget?]
    cases hn : n.object? x with
    | none => rfl
    | some o => rw [Option.filter_some_pos (by simp [h.consistent.tidy.no_arena x o hn])]
  · have harena := h.apart.arena x o hsome
    rw [watchedTarget?, ho, weakTarget?, hempty, Option.filter_some_neg (by simpa [← Option.not_isSome] using harena)]

theorem watched_joined (h : Divided n regions held lost) (htight : n.Tight) : (n.joined regions).Watched := by
  have hwired := h.consistent.tidy.wired
  have hwatched : ∀ x i, (n.joined regions).watchedTarget? x i = n.weakTarget? x i := watchedTarget?_joined h
  refine ⟨fun t x i => ?_, fun x i t ht => ?_, ?_⟩
  · rw [hwatched]
    exact hwired.listed t x i
  · rw [hwatched] at ht
    rw [isOutside_joined h]
    exact hwired.live x i t ht
  · simp only [hwatched]
    exact htight.exists_targets hwired

/-! ## What a command does to fields -/

theorem isSome_fieldFault?_joined (h : Divided n regions held lost) {o : Object} (harena : o.arena? = none)
    (index : Nat) (target : Option Ref) :
    ((n.joined regions).fieldFault? o index target).isSome = (n.fieldFault? o index target).isSome := by
  cases target with
  | none => rfl
  | some t =>
    rcases object?_joined_cases (r := t) h.apart with ⟨-, ho⟩ | ⟨o', hsome, hempty, ho⟩
    · unfold fieldFault?
      rw [Option.map_some, Option.map_some, ho]
    · -- an object of an arena cannot be referred to from outside, nor one that memory does not know
      have hne : ¬ o.arena? = o'.arena? := fun he => by
        have hsome' := h.apart.arena t o' hsome
        rw [← he, harena] at hsome'
        exact absurd hsome' (by decide)
      unfold fieldFault?
      rw [Option.map_some, Option.map_some, ho, hempty]
      dsimp only
      rw [if_neg hne]
      split
      · rfl
      · split <;> rfl

/-- Which field a command writes does not depend on arenas. -/
theorem object?_written_joined (h : Divided n regions held lost) (c : Command) (hx : regions.objects x = none) :
    (c.written (n.joined regions)).object? x = (c.written n).object? x := by
  have hsame := object?_joined_of_none (n := n) hx
  cases c with
  | operation op =>
    cases op with
    | setField r index target =>
      rw [Command.written, Command.written, Operation.written, Operation.written]
      rcases object?_joined_cases (r := r) h.apart with ⟨hr, ho⟩ | ⟨o, hsome, hempty, ho⟩
      · rw [ho]
        cases hn : n.object? r with
        | none => exact hsame
        | some o =>
          dsimp only
          rw [isSome_fieldFault?_joined h (h.consistent.tidy.no_arena r o hn), writeWeak_joined hr, update_joined hr]
          split
          · exact hsame
          · split <;> exact object?_joined_of_none hx
      · have hne : x ≠ r := fun he => by
          rw [he, hsome] at hx
          exact absurd hx (by simp)
        rw [ho, hempty]
        dsimp only
        split
        · exact hsame
        · split
          · obtain ⟨referrers, he, -⟩ := (n.joined regions).writeWeak_eq r index (o.target? index) target
            rw [he]
            exact ((n.joined regions).object?_update r x _).trans ((if_neg hne).trans hsame)
          · rw [object?_update, if_neg hne, hsame]
    | _ => exact hsame
  | _ => exact hsame

theorem isLive_written (m : Memory) (c : Command) (x : Ref) : (c.written m).isLive x = m.isLive x := by
  rcases Command.written_cases m c with he | ⟨r, index, target, referrers, he⟩
  · rw [he]
  · rw [he]
    exact m.isLive_update r x _

/-- Where nothing is gone nothing is to be emptied. -/
theorem Wired.fields_eq {o : Object} (hw : m.Wired) (ho : m.object? x = some o) :
    o.fields = emptiedFields (fun i => (o.weakTarget? i).any fun t => !m.isLive t) o.fields := by
  refine (emptiedFields_false o.fields).symm.trans (emptiedFields_congr fun i _ _ _ => ?_)
  cases hi : o.weakTarget? i with
  | none => rfl
  | some t =>
    have hweak : m.weakTarget? x i = some t := by
      rw [weakTarget?, ho, Option.bind_some, hi]
    rw [Option.any_some, hw.live x i t hweak]
    rfl

/-- A new object comes where none was, in arenas neither. -/
theorem object?_joined_of_placed {o : Object} (h : regions.Apart n) (hplaced : Placed r o n n') :
    (n.joined regions).object? r = none := by
  rcases object?_joined_cases (r := r) h with ⟨-, he⟩ | ⟨o', hsome, -, -⟩
  · exact he.trans hplaced.free
  · have hempty := (h.of_placed hplaced).empty r o' hsome
    rw [hplaced.object, if_pos rfl] at hempty
    exact absurd hempty (by simp)

theorem follows_joined (h : Divided n regions held lost) (h' : Divided n' regions' held' lost')
    (hadvance : c.Advance n n') : Follows c (n.joined regions) (n'.joined regions') := by
  intro x o' ho' harena
  have hwired := h'.consistent.tidy.wired
  -- the object is one of counted memory
  have hn' : n'.object? x = some o' := object?_of_outside h'.apart ho' harena
  have houtside : ∀ t, (n'.joined regions').isOutside t = n'.isLive t := isOutside_joined h'
  simp only [houtside]
  have hstays : ∀ o, (c.written n).object? x = some o → (c.written (n.joined regions)).object? x = some o := by
    intro o ho
    have hlive : n.isLive x = true := isLive_written n c x ▸ isLive_of_object? ho
    rw [object?_written_joined h c (objects_eq_none_of_isLive h.apart hlive), ho]
  have hsame : c.written n = n → n.object? x = some o' → ∃ o, (c.written (n.joined regions)).object? x = some o ∧
      o'.fields = emptiedFields (fun i => (o.weakTarget? i).any fun t => !n'.isLive t) o.fields :=
    fun hwritten ho => ⟨o', hstays o' (by rw [hwritten, ho]), hwired.fields_eq hn'⟩
  cases hadvance with
  | changed deferred hchanges =>
    obtain ⟨o, ho, hfields⟩ := hchanges.swept.exact hwired hn'
    exact .inr ⟨o, hstays o ho, hfields⟩
  | @placed r o hwritten hplaced =>
    have hcell := hn'
    rw [hplaced.object] at hcell
    split at hcell
    · next hx =>
      subst hx
      obtain rfl := Option.some.inj hcell
      exact .inl ⟨object?_joined_of_placed h.apart hplaced, Command.target?_of_isBlank hplaced.blank⟩
    · exact .inr (hsame hwritten hcell)
  | beside hc hbeside =>
    have hwritten := Command.written_of_concernsArena hc n
    exact .inr (hsame hwritten ((hbeside.object x).symm.trans hn'))

/-! ## What is taken out -/

/-- Some objects are taken out of memory, and of the fields of the others exactly the weak ones are emptied that
referred to them. -/
structure Forgets (group : List Ref) (m m' : Memory) : Prop extends SameCounts group m m' where
  fields : ∀ x o', m'.object? x = some o' → o'.arena? = none → ∃ o, m.object? x = some o ∧
    o'.fields = emptiedFields (fun i => (o.weakTarget? i).any fun t => t ∈ group) o.fields

theorem Tidy.forgets (h : n.Tidy) {group : List Ref} (hnodup : group.Nodup)
    (hlive : ∀ x ∈ group, n.isLive x = true) : Forgets group n (group.foldl Memory.remove n) where
  toSameCounts := .of_without (Without.removeAll h hnodup hlive).1
  fields x o' ho' _ := by
    obtain ⟨hwithout, htidy⟩ := Without.removeAll h hnodup hlive
    obtain ⟨o, ho, hfields⟩ := (Swept.removeAll group h).exact htidy.wired ho'
    refine ⟨o, ho, hfields.trans (emptiedFields_congr fun i _ _ _ => ?_)⟩
    cases hi : o.weakTarget? i with
    | none => rfl
    | some t =>
      have hweak : n.weakTarget? x i = some t := by
        rw [weakTarget?, ho, Option.bind_some, hi]
      have hiff := hwithout.isLive_iff t
      rw [h.wired.live x i t hweak] at hiff
      rw [Option.any_some, Option.any_some, Bool.eq_iff_iff]
      simp [← Bool.not_eq_true, hiff]

theorem forgets_joined {group : List Ref} (h : regions.Apart n) (h' : regions.Apart n')
    (hforgets : Forgets group n n') (hgroup : ∀ x ∈ group, n.isLive x = true) :
    Forgets group (n.joined regions) (n'.joined regions) where
  isLive x := by
    rcases object?_joined_cases (r := x) h with ⟨hx, ho⟩ | ⟨o, hx, hempty, ho⟩
    · rw [isLive, isLive, ho, object?_joined_of_none hx]
      exact hforgets.isLive x
    · have hout : x ∉ group := fun hmem => by
        obtain ⟨o', ho'⟩ := isLive_iff.1 (hgroup x hmem)
        exact absurd (hempty.symm.trans ho') (by simp)
      rw [isLive, isLive, ho, object?_joined_of_some h' hx]
      simp [hout]
  object x o o' ho ho' := by
    rcases object?_joined_cases (r := x) h with ⟨hx, he⟩ | ⟨o₁, hx, -, he⟩
    · rw [he] at ho
      rw [object?_joined_of_none hx] at ho'
      exact hforgets.object x o o' ho ho'
    · rw [object?_joined_of_some h' hx] at ho'
      obtain rfl := Option.some.inj (ho.symm.trans (he.trans ho'))
      exact ⟨rfl, rfl, rfl⟩
  components := hforgets.components
  fields x o' ho' harena := by
    obtain ⟨o, ho, hfields⟩ := hforgets.fields x o' (object?_of_outside h' ho' harena) harena
    exact ⟨o, object?_joined h ho, hfields⟩

theorem removeAll_forgets (h : Divided n regions held lost) {group : List Ref} (hnodup : group.Nodup)
    (hgroup : ∀ x ∈ group, (n.joined regions).isOutside x = true) :
    Forgets group (n.joined regions) (group.foldl Memory.remove (n.joined regions)) := by
  have htidy := h.consistent.tidy
  have hlive : ∀ x ∈ group, n.isLive x = true := fun x hx => isOutside_joined h x ▸ hgroup x hx
  have hapart := h.apart.of_steady (.of_without (Without.removeAll htidy hnodup hlive).1)
  rw [removeAll_joined h.apart htidy hnodup hlive]
  exact forgets_joined h.apart hapart (htidy.forgets hnodup hlive) hlive

end Memory

variable {config : Config} {secret : UInt64} {m : Memory} {held : Multiset Ref}

/-- In every state that a program gets to the list of weak fields is right. Whatever command comes next, it empties
exactly the weak fields that would dangle. Writing a weak field and taking out objects leave all other counts alone,
and the latter empties exactly the weak fields that refer to what is taken out. -/
theorem weak_fields_follow (h : Attained config secret m held) :
    m.Watched ∧
      (∀ (c : Command) (m' : Memory), c.Allowed m held → (c.outcome m).memory? = some m' → Memory.Follows c m m') ∧
      (∀ (r : Ref) (o : Object) (index : Nat) (target : Option Ref) (m' : Memory), m.object? r = some o →
        o.fields[index]?.any (·.weak) = true → (m.setField r index target).memory? = some m' →
          Memory.SameCounts [] m m') ∧
      ∀ group : List Ref, group.Nodup → (∀ x ∈ group, m.isOutside x = true) →
        Memory.Forgets group m (group.foldl Memory.remove m) := by
  have hstart : ∀ machine, (Memory.ofConfigOn config secret machine).Tight := fun _ t ht =>
    absurd ht Std.HashMap.not_mem_emptyWithCapacity
  obtain ⟨n, regions, lost, rfl, hdivided, htight⟩ := h.induction hstart fun _ _ hadvance hn => hn.advance hadvance
  refine ⟨Memory.watched_joined hdivided htight, fun c m' hc hout => ?_, fun r o index target m' => .setField, ?_⟩
  · obtain ⟨n', regions', held', lost', rfl, hdivided', hadvance⟩ := Command.advance hdivided hc hout
    exact Memory.follows_joined hdivided hdivided' hadvance
  · exact fun group => Memory.removeAll_forgets hdivided

/-- An object with a weak field, for the program. -/
def Memory.watcher : ObjectSpec :=
  { tag := 0, payload := .ofFlags [true] }

/-- An object that refers to itself, but only weakly. -/
def Memory.glance : Memory :=
  ((Memory.ofConfig {} 0).allocate Memory.watcher).1.writeWeak 0 0 none (some 0)

theorem attained_glance : Attained {} 0 .glance {0} := by
  have hblank : Memory.watcher.IsBlank := ObjectSpec.isBlank_ofFlags 0 [true] false false
  have hone := (@Attained.start {} 0 .flat).done (.operation (.allocate Memory.watcher)) (.inr hblank) rfl
  refine hone.done (.operation (.setField 0 0 (some 0))) (.inr ⟨rfl, fun t ht => ?_⟩) rfl
  obtain rfl := Option.some.inj ht
  refine ⟨rfl, fun o f ho _ hf hweak => ?_⟩
  obtain rfl := Option.some.inj ho
  obtain rfl := Option.some.inj hf
  exact absurd hweak (by decide)

theorem weak_fields_follow_glance : Memory.glance.Watched ∧
    (∀ m', ((Command.operation (.release 0)).outcome .glance).memory? = some m' →
      Memory.Follows (.operation (.release 0)) .glance m') ∧
      Memory.SameCounts [] .glance (Memory.glance.writeWeak 0 0 (some 0) none) ∧
        Memory.Forgets [0] .glance (Memory.glance.remove 0) := by
  obtain ⟨hwatched, hfollows, hcounts, hforgets⟩ := weak_fields_follow attained_glance
  exact ⟨hwatched, fun m' => hfollows _ m' (.inr (Multiset.mem_singleton_self 0)), hcounts 0 _ 0 none _ rfl rfl rfl,
    hforgets [0] (List.nodup_singleton 0) (List.forall_mem_singleton.2 rfl)⟩

end Reclamation
