import Mathlib
import Reclamation.Proofs.Memory.Lagging

/-!
# Putting decrements off

A program can give up its references at once, or put that off and let safe points catch up now and
then. `Deferral` relates a program of the first kind to one of the second: each `release` becomes a
`defer`, and there are safe points wherever one likes. If the first program is allowed to do what it
does, both get to the same objects in the end (`deferral_agrees`).

The two runs are compared after each operation of the first program. What the second has in memory
besides lags behind (`Trails`): it is only there because of references that wait, and the queue may
apply a batch of them at any time, be it full or at a safe point. `Trails.next` and `Trails.point` are
the two kinds of steps, and the induction over the programs puts them together (`Trails.run`).

References that wait are still counted, so a count can be higher with the delay than without it. The
counts of the second program are asked to fit their words as those of the first one are. No operation
makes more than one reference, and so it takes a program of 2^32 operations to get a count so high
(`Deferral.fits`).
-/

set_option autoImplicit false

namespace Reclamation

/-! ## Programs -/

namespace Operation

/-- The memory that an operation leaves and what the program holds then. An operation that is refused
gives and takes nothing. -/
def after (op : Operation) (m : Memory) (held : Multiset Ref) : Option (Memory × Multiset Ref) :=
  match op.outcome m with
  | .done m' made => some (m', op.heldAfter m held made)
  | .refused m' _ => some (m', held)
  | .broken | .outOfMemory => none

/-- What a sequence of operations leaves. -/
def afterAll : List Operation → Memory → Multiset Ref → Option (Memory × Multiset Ref)
  | [], m, held => some (m, held)
  | op :: ops, m, held => (op.after m held).bind fun next => afterAll ops next.1 next.2

/-- Each operation of a sequence meets a condition when its turn comes. -/
def Throughout (P : Operation → Memory → Multiset Ref → Prop) :
    List Operation → Memory → Multiset Ref → Prop
  | [], _, _ => True
  | op :: ops, m, held => P op m held ∧
      ∀ m' held', op.after m held = some (m', held') → Throughout P ops m' held'

/-- Requests for plain objects of the heap, none of them put off. -/
def OnHeap : Operation → Prop
  | allocate spec => spec.symmetric = false
  | registerType _ _ | allocateType _ _ | acquire _ | release _ | setField _ _ _ => True
  | allocateSlot _ | allocateSlotType _ _ | defer _ | safePoint | drain | freeze _
  | acquireComponent _ | freeTree _ | enterScope | exitScope _ | allocateScoped _
  | allocateScopedType _ _ | releaseScoped _ => False

/-- The operation with its decrement put off. -/
def deferring : Operation → Operation
  | release r => defer r
  | op => op

/-- The counts that an operation raises stay below the width of their words. References that wait are
still counted, so this is not the same with and without delay. -/
def Fits (m : Memory) : Operation → Prop
  | acquire r => m.CanAcquire r
  | setField r index target => ∀ t, target = some t → ∀ o f, m.object? r = some o →
      o.frozen = false → o.fields[index]? = some f → f.weak = false → m.CanRefer t
  | _ => True

theorem after_allocate (spec : ObjectSpec) (m : Memory) (held : Multiset Ref) :
    (allocate spec).after m held = some ((m.allocate spec).1, (m.allocate spec).2 ::ₘ held) :=
  rfl

theorem after_allocateType (tag : TypeTag) (shared : Bool) (m : Memory) (held : Multiset Ref) :
    (allocateType tag shared).after m held = match m.spec tag with
      | .error _ => some (m, held)
      | .ok spec => (allocate { spec with shared }).after m held := by
  rw [after, outcome, Memory.allocateType]
  cases m.spec tag <;> rfl

end Operation

/-- The second program does what the first one does, but puts all decrements off and has safe points in
between. -/
inductive Deferral : List Operation → List Operation → Prop
  | done : Deferral [] []
  | point {ops ops' : List Operation} : Deferral ops ops' → Deferral ops (.safePoint :: ops')
  | next {ops ops' : List Operation} (op : Operation) : Deferral ops ops' →
      Deferral (op :: ops) (op.deferring :: ops')

/-! ## Writing a field -/

namespace Memory

variable {m n : Memory} {held : Multiset Ref} {r : Ref} {o : Object} {index : Nat} {f : RefField}
  {target : Option Ref}

theorem setField_of_fault {fault : Fault} (ho : m.object? r = some o)
    (hfault : m.fieldFault? o index target = some fault) :
    m.setField r index target = .refused m fault := by
  simp [setField, ho, hfault]

theorem setField_of_weak (ho : m.object? r = some o) (harena : o.arena? = none)
    (hfault : m.fieldFault? o index target = none) (hf : o.fields[index]? = some f)
    (hweak : f.weak = true) :
    m.setField r index target = .done (m.writeWeak r index f.target target) () := by
  simp [setField, ho, harena, hfault, hf, hweak, Object.target?_of_field hf]

theorem setField_of_strong (ho : m.object? r = some o) (harena : o.arena? = none)
    (hfault : m.fieldFault? o index target = none) (hf : o.fields[index]? = some f)
    (hweak : f.weak = false) : m.setField r index target =
      .ofRelease (fun _ => ()) ((m.strongRelease r index f.target target).bind Release.run) := by
  simp [setField, ho, harena, hfault, hf, hweak, Object.target?_of_field hf, writeStrong_eq]

/-- A registered type asks for a plain object. -/
theorem spec_plain {tag : TypeTag} {spec : ObjectSpec} (hspec : m.spec tag = .ok spec)
    (shared : Bool) : ({ spec with shared } : ObjectSpec).IsBlank ∧ spec.symmetric = false := by
  unfold Memory.spec at hspec
  cases hl : m.layout tag with
  | error fault =>
    rw [hl] at hspec
    exact absurd hspec (by simp [Except.map])
  | ok l =>
    rw [hl] at hspec
    obtain rfl := Except.ok.inj hspec
    exact ⟨ObjectSpec.isBlank_ofFlags tag l.weakFlags shared false, rfl⟩

/-- But for counts, the release that writing a strong field starts finds the field written. -/
theorem strongRelease_recounted {old : Option Ref} {s : Release}
    (hs : m.strongRelease r index old target = some s) : ∃ m', Recounted m m' ∧
      Recounted (m'.update r (·.setTarget index target)) s.memory ∧
        (m.Plain → s.memory.Plain) := by
  unfold strongRelease at hs
  dsimp only at hs
  have hacquired : Recounted m (target.elim m m.acquireEdge) ∧
      (m.Plain → (target.elim m m.acquireEdge).Plain) := by
    cases target with
    | none => exact ⟨.refl m, fun h => h⟩
    | some t => exact ⟨recounted_acquireEdge m t, fun h => h.acquireEdge t⟩
  refine ⟨_, hacquired.1, ?_⟩
  cases old with
  | none =>
    obtain rfl := Option.some.inj hs
    exact ⟨.refl _, fun h => (hacquired.2 h).setTarget r index target⟩
  | some t =>
    refine ⟨Release.recounted_dropEdge hs, fun h => ?_⟩
    exact Release.plain_dropEdge ((hacquired.2 h).setTarget r index target) hs

/-- To write a strong field makes at most one reference. -/
theorem card_references_strongRelease (ho : m.object? r = some o) (hf : o.fields[index]? = some f)
    (hweak : f.weak = false) {s : Release} (hs : m.strongRelease r index f.target target = some s) :
    Multiset.card s.memory.references ≤ Multiset.card m.references + 1 := by
  obtain ⟨m', hm', hwritten, -⟩ := strongRelease_recounted hs
  obtain ⟨o', ho', hf'⟩ : ∃ o', m'.object? r = some o' ∧ o'.fields[index]? = some f := by
    obtain ⟨count, internal, ho'⟩ := hm'.forth ho
    exact ⟨_, ho', hf⟩
  have hwrite : (m'.update r (·.setTarget index target)).references + ↑f.target.toList =
      m'.references + ↑target.toList :=
    references_setTarget ho' hf' hweak List.not_mem_nil
  have hcard := congrArg Multiset.card hwrite
  have hone : target.toList.length ≤ 1 := by cases target <;> simp
  rw [Multiset.card_add, Multiset.card_add, Multiset.coe_card, Multiset.coe_card] at hcard
  rw [references_congr hwritten.strongTargets, ← references_congr hm'.strongTargets]
  omega

/-- A field can be written in both memories or in none. -/
theorem Lags.fieldFault?_eq (h : Lags m n held) {o' : Object} (ho : m.object? r = some o)
    (ho' : n.object? r = some o') (hm : m.Tidy) (hn : n.Tidy)
    (htarget : ∀ t, target = some t → m.isLive t = true) :
    n.fieldFault? o' index target = m.fieldFault? o index target := by
  obtain ⟨hweak, hfrozen⟩ := h.map_weak ho ho'
  have hlength := congrArg List.length hweak
  rw [List.length_map, List.length_map] at hlength
  unfold fieldFault?
  rw [hfrozen, hlength]
  cases target with
  | none => rfl
  | some t =>
    obtain ⟨ot, hot⟩ := isLive_iff.1 (htarget t rfl)
    obtain ⟨ot', hot', -⟩ := h.exists_object hot
    simp only [Option.map_some, hot, hot', hm.no_arena _ _ ho, hn.no_arena _ _ ho',
      hm.no_arena _ _ hot, hn.no_arena _ _ hot', ↓reduceIte]

end Memory

/-! ## Two runs side by side -/

open Memory

/-- Where two runs of a program are, the first without delay and the second with all decrements put
off, after the same operations. There are at most `most` references in the second one. -/
structure Trails (m n : Memory) (held : Multiset Ref) (most : Nat) : Prop where
  ahead : m.Consistent held 0
  behind : n.Consistent held 0
  prompt : m.deferred = []
  plain : m.Plain ∧ n.Plain
  lags : Lags m n held
  load : n.load held ≤ most

namespace Trails

variable {m n : Memory} {held : Multiset Ref} {most : Nat} {r : Ref}

theorem start (config : Config) (secret : UInt64) (machine : Machine) :
    Trails (.ofConfigOn config secret machine) (.ofConfigOn config secret machine) 0 0 where
  ahead := .ofConfigOn config secret machine
  behind := .ofConfigOn config secret machine
  prompt := rfl
  plain := ⟨.ofConfigOn config secret machine, .ofConfigOn config secret machine⟩
  lags := .refl (Consistent.ofConfigOn config secret machine).tidy.wired
  load := le_rfl

theorem weaken (h : Trails m n held most) {more : Nat} (hmore : most ≤ more) :
    Trails m n held more :=
  ⟨h.ahead, h.behind, h.prompt, h.plain, h.lags, h.load.trans hmore⟩

/-- No count gets to its limit as long as there are so few references. -/
theorem room (h : Trails m n held most) (hmost : most + 1 < UInt32.size) (r : Ref) :
    n.CanAcquire r ∧ n.CanRefer r := by
  have hcount : ∀ o, n.object? r = some o → o.count.toNat + 1 < UInt32.size := fun o ho => by
    have := h.plain.2.count_le_load h.behind ho
    have := h.load
    omega
  refine ⟨fun o ho _ => hcount o ho, fun o ho _ => ?_⟩
  rw [(h.plain.2.object r o ho).symmetric]
  exact hcount o ho

/-- Without delay nothing is there that is not held or in a field. -/
theorem referred (h : Trails m n held most) (x : Ref) (hx : m.isLive x = true) :
    x ∈ held ∨ x ∈ m.references := by
  rcases h.plain.1.referred h.ahead hx with hmem | hmem | hmem
  · exact .inl hmem
  · rw [h.prompt] at hmem
    exact absurd hmem List.not_mem_nil
  · exact .inr hmem

/-! ### Catching up -/

/-- Some of the references that wait are given up. -/
theorem applyDeferred (h : Trails m n held most) (k : Nat) : ∃ n' applied,
    n.applyDeferred k = .done n' applied ∧ Trails m n' held most ∧
      n'.deferred = n.deferred.drop k := by
  unfold Memory.applyDeferred
  dsimp only
  by_cases hempty : (n.deferred.take k).isEmpty = true
  · refine ⟨n, 0, if_pos hempty, h, ?_⟩
    have hsplit := List.take_append_drop k n.deferred
    rw [List.isEmpty_iff.1 hempty, List.nil_append] at hsplit
    exact hsplit.symm
  · rw [if_neg hempty]
    obtain ⟨s, hs, hcompletes⟩ := (h.behind.undefer k).drops
    obtain ⟨t, hsteps, hrun, ht, hbal⟩ := hcompletes.ends
    have hrecounted := Release.recounted_foldlM Release.recounted_dropRef hs
    have hplain : s.memory.Plain :=
      Release.plain_foldlM (fun h hd => Release.plain_dropRef h hd) (h.plain.2.of_cells rfl rfl rfl) hs
    have hqueue : Lags m { n with deferred := n.deferred.drop k } held :=
      h.lags.of_cells rfl rfl h.lags.types
    have hlags := hqueue.recounted (.refl m) hrecounted
    obtain ⟨hlags', hplain'⟩ := hlags.release_behind h.referred hplain hbal
      (fun x hx => by simp [hx]) hsteps
    have hdeferred : t.memory.deferred = n.deferred.drop k :=
      (hsteps.steady hbal).aside.deferred.trans hrecounted.aside.deferred
    have hreferences : t.memory.references ≤ n.references :=
      (hsteps.references_le hplain hbal).trans (references_congr hrecounted.strongTargets).le
    have hload : t.memory.load held ≤ n.load held := by
      have hwaiting : (n.deferred.drop k).length ≤ n.deferred.length := by simp
      rw [Memory.load, Memory.load, hdeferred]
      exact Nat.add_le_add (Nat.add_le_add_left hwaiting _) (Multiset.card_le_card hreferences)
    rw [hs, Option.bind_some, hrun]
    refine ⟨_, _, rfl, ⟨h.ahead, ht.of_stats _ _, h.prompt, ⟨h.plain.1, ?_⟩, ?_, ?_⟩, hdeferred⟩
    · exact hplain'.of_cells rfl rfl rfl
    · exact hlags'.of_cells rfl rfl hlags'.types
    · exact hload.trans h.load

/-- A safe point. -/
theorem point (h : Trails m n held most) : ∃ n',
    Operation.safePoint.after n held = some (n', held) ∧ Trails m n' held most := by
  obtain ⟨n', applied, hout, h', -⟩ := h.applyDeferred n.batchSize
  refine ⟨n', ?_, h'⟩
  rw [Operation.after, Operation.outcome, Memory.safePoint, hout]
  rfl

/-- All references that wait are given up. -/
theorem drain (h : Trails m n held most) : ∃ n',
    Operation.drain.after n held = some (n', held) ∧ Trails m n' held most ∧ n'.deferred = [] := by
  obtain ⟨n', applied, hout, h', hdeferred⟩ := h.applyDeferred n.deferred.length
  refine ⟨n', ?_, h', by rw [hdeferred, List.drop_length]⟩
  rw [Operation.after, Operation.outcome, Memory.drain, hout]
  rfl

/-- A reference that waits, be the queue full with it or not. -/
theorem defer (h : Trails m { n with deferred := n.deferred ++ [r] } held most) :
    ∃ n' applied, n.defer r = .done n' applied ∧ Trails m n' held most := by
  unfold Memory.defer
  dsimp only
  split
  · obtain ⟨n', applied, hout, h', -⟩ :=
      h.applyDeferred ({ n with deferred := n.deferred ++ [r] } : Memory).batchSize
    exact ⟨n', applied, hout, h'⟩
  · exact ⟨_, 0, rfl, h⟩

/-! ### One operation -/

/-- The first program gives up a reference, and in the second one it waits. -/
theorem release (h : Trails m n held most) (hr : r ∈ held) : ∃ m' freed,
    m.release r = .done m' freed ∧
      Trails m' { n with deferred := n.deferred ++ [r] } (held.erase r) most := by
  have hbehind : n.Consistent (r ::ₘ held.erase r) 0 := by
    rw [Multiset.cons_erase hr]
    exact h.behind
  have hahead : m.Consistent (r ::ₘ held.erase r) 0 := by
    rw [Multiset.cons_erase hr]
    exact h.ahead
  obtain ⟨s, hs, hcompletes⟩ := hahead.drop
  obtain ⟨t, hsteps, hrun, ht, hbal⟩ := hcompletes.ends
  have hrecounted := Release.recounted_dropRef hs
  have hlags : Lags s.memory n (held.erase r) :=
    (h.lags.recounted hrecounted (.refl n)).mono fun _ => Multiset.mem_of_mem_erase
  obtain ⟨hlags', hplain'⟩ := hlags.release_ahead (Release.plain_dropRef h.plain.1 hs) hbal
    (fun x hx => by simp [hx]) hsteps
  refine ⟨t.memory, t.freed, ?_, ht, hbehind.defer, ?_, ⟨hplain', h.plain.2.of_cells rfl rfl rfl⟩,
    hlags'.of_cells rfl rfl hlags'.types, ?_⟩
  · rw [Memory.release, hs, Option.bind_some, hrun]
    rfl
  · exact (hsteps.steady hbal).aside.deferred.trans (hrecounted.aside.deferred.trans h.prompt)
  · -- the reference goes from the program to the queue
    have hload := h.load
    have hcard := Multiset.card_erase_add_one hr
    have hreferences : ({ n with deferred := n.deferred ++ [r] } : Memory).references = n.references :=
      rfl
    rw [Memory.load] at hload ⊢
    rw [hreferences, List.length_append, List.length_singleton]
    omega

theorem acquire (h : Trails m n held most) (hr : m.isLive r = true) (hroom : m.CanAcquire r)
    (hroom' : n.CanAcquire r) : Trails (m.acquire r) (n.acquire r) (r ::ₘ held) (most + 1) where
  ahead := h.ahead.acquire hr hroom
  behind := h.behind.acquire (h.lags.isLive hr) hroom'
  prompt := (recounted_acquire m r).aside.deferred.trans h.prompt
  plain := ⟨h.plain.1.acquire r, h.plain.2.acquire r⟩
  lags := (h.lags.recounted (recounted_acquire m r) (recounted_acquire n r)).hold
    (by rwa [(recounted_acquire m r).isLive])
  load := by
    have hload := h.load
    rw [Memory.load] at hload ⊢
    rw [(recounted_acquire n r).aside.deferred,
      references_congr (recounted_acquire n r).strongTargets, Multiset.card_cons]
    omega

/-- An object is allocated, in the same cell of both memories. -/
theorem allocate (h : Trails m n held most) {spec : ObjectSpec} (hspec : spec.IsBlank)
    (hsym : spec.symmetric = false) : ∃ m' n' held',
      (Operation.allocate spec).after m held = some (m', held') ∧
        (Operation.allocate spec).after n held = some (n', held') ∧
          Trails m' n' held' (most + 1) := by
  have hsame : (n.allocate spec).2 = (m.allocate spec).2 := h.lags.size
  have hbehind := h.behind.allocate hspec
  rw [hsame] at hbehind
  refine ⟨_, _, _, Operation.after_allocate spec m held, ?_, h.ahead.allocate hspec, hbehind, h.prompt,
    ⟨h.plain.1.allocate hsym, h.plain.2.allocate hsym⟩, h.lags.allocate h.behind.tidy.wired hspec, ?_⟩
  · rw [Operation.after_allocate, hsame]
  · have hload := h.load
    have hdeferred : (n.allocate spec).1.deferred = n.deferred := rfl
    rw [Memory.load] at hload ⊢
    rw [hdeferred, references_congr (Born.allocate n hspec).strongTargets, Multiset.card_cons]
    omega

/-- A weak field is written. -/
theorem writeWeak (h : Trails m n held most) {o o' : Object} {index : Nat} {f f' : RefField}
    {target : Option Ref} (ho : m.object? r = some o) (ho' : n.object? r = some o')
    (hf : o.fields[index]? = some f) (hf' : o'.fields[index]? = some f') (hweak : f.weak = true)
    (hweak' : f'.weak = true) (htarget : ∀ t, target = some t → m.isLive t = true) :
    Trails (m.writeWeak r index f.target target) (n.writeWeak r index f'.target target) held most := by
  have hlags := h.lags.setTarget h.ahead.balanced.targets_live r index htarget
  have hplain := h.plain.1.setTarget r index target
  have hplain' := h.plain.2.setTarget r index target
  have hahead := h.ahead.writeWeak ho hf hweak htarget
  have hbehind := h.behind.writeWeak ho' hf' hweak' fun t ht => h.lags.isLive (htarget t ht)
  have hreferences : (n.writeWeak r index f'.target target).references = n.references := by
    have := (Without.writeWeak ho' hf' hweak' target).references List.nodup_nil (by simp)
    simpa using this.symm
  obtain ⟨referrers, he, -⟩ := m.writeWeak_eq r index f.target target
  obtain ⟨referrers', he', -⟩ := n.writeWeak_eq r index f'.target target
  rw [he] at hahead ⊢
  rw [he'] at hbehind hreferences ⊢
  refine ⟨hahead, hbehind, h.prompt, ⟨hplain.of_cells rfl rfl rfl, hplain'.of_cells rfl rfl rfl⟩,
    hlags.of_cells rfl rfl hlags.types, ?_⟩
  rw [Memory.load, hreferences]
  exact h.load

/-- A strong field is written, and what it referred to is given up in both memories at once. -/
theorem writeStrong (h : Trails m n held most) {o o' : Object} {index : Nat} {f f' : RefField}
    {target : Option Ref} (ho : m.object? r = some o) (ho' : n.object? r = some o')
    (hf : o.fields[index]? = some f) (hf' : o'.fields[index]? = some f') (hweak : f.weak = false)
    (hweak' : f'.weak = false) (hfrozen : o.frozen = false) (hfrozen' : o'.frozen = false)
    (htarget : ∀ t, target = some t → m.isLive t = true ∧ m.CanRefer t ∧ n.CanRefer t) :
    ∃ s s' t t', m.strongRelease r index f.target target = some s ∧ s.run = some t ∧
      n.strongRelease r index f'.target target = some s' ∧ s'.run = some t' ∧
        Trails t.memory t'.memory held (most + 1) := by
  obtain ⟨s, hs, hcompletes⟩ := h.ahead.writeStrong ho hf hweak hfrozen fun t ht =>
    ⟨(htarget t ht).1, (htarget t ht).2.1⟩
  obtain ⟨s', hs', hcompletes'⟩ := h.behind.writeStrong ho' hf' hweak' hfrozen' fun t ht =>
    ⟨h.lags.isLive (htarget t ht).1, (htarget t ht).2.2⟩
  obtain ⟨t, hsteps, hrun, ht, hbal⟩ := hcompletes.ends
  obtain ⟨t', hsteps', hrun', ht', hbal'⟩ := hcompletes'.ends
  obtain ⟨m₁, hm₁, hwritten, hplain⟩ := strongRelease_recounted hs
  obtain ⟨n₁, hn₁, hwritten', hplain'⟩ := strongRelease_recounted hs'
  have htargets : ∀ y, ∀ x ∈ m₁.strongTargets y, m₁.isLive x = true := fun y x hx => by
    rw [hm₁.strongTargets] at hx
    rw [hm₁.isLive]
    exact h.ahead.balanced.targets_live y x hx
  have hlags := ((h.lags.recounted hm₁ hn₁).setTarget htargets r index fun t ht => by
    rw [hm₁.isLive]
    exact (htarget t ht).1).recounted hwritten hwritten'
  have hprompt : t.memory.deferred = [] := by
    rw [(hsteps.steady hbal).aside.deferred, hwritten.aside.deferred]
    exact hm₁.aside.deferred.trans h.prompt
  -- first the release without delay comes to its end, then the other one
  obtain ⟨hlags₁, hplain₁⟩ := hlags.release_ahead (hplain h.plain.1) hbal (fun x hx => by simp [hx])
    hsteps
  have hreferred : ∀ x, t.memory.isLive x = true → x ∈ held ∨ x ∈ t.memory.references := by
    intro x hx
    have := hplain₁.referred ht hx
    rwa [hprompt, or_iff_right (List.not_mem_nil (a := x))] at this
  obtain ⟨hlags₂, hplain₂⟩ := hlags₁.release_behind hreferred (hplain' h.plain.2) hbal'
    (fun x hx => by simp [hx]) hsteps'
  refine ⟨s, s', t, t', hs, hrun, hs', hrun', ht, ht', hprompt, ⟨hplain₁, hplain₂⟩, hlags₂, ?_⟩
  have hload := h.load
  have hmade := card_references_strongRelease ho' hf' hweak' hs'
  have hkept := Multiset.card_le_card (hsteps'.references_le (hplain' h.plain.2) hbal')
  have hdeferred : t'.memory.deferred = n.deferred := by
    rw [(hsteps'.steady hbal').aside.deferred, hwritten'.aside.deferred]
    exact hn₁.aside.deferred
  rw [Memory.load] at hload ⊢
  rw [hdeferred]
  omega

/-- A field is written or cannot be written, in both memories. -/
theorem setField (h : Trails m n held most) {index : Nat} {target : Option Ref}
    (hop : (Operation.setField r index target).Allowed m held)
    (hfits : (Operation.setField r index target).Fits n) : ∃ m' n',
      (Operation.setField r index target).after m held = some (m', held) ∧
        (Operation.setField r index target).after n held = some (n', held) ∧
          Trails m' n' held (most + 1) := by
  obtain ⟨hr, htarget⟩ := hop
  obtain ⟨o, ho⟩ := isLive_iff.1 hr
  obtain ⟨o', ho', -⟩ := h.lags.exists_object ho
  obtain ⟨hmap, hsame⟩ := h.lags.map_weak ho ho'
  have harena := h.ahead.tidy.no_arena r o ho
  have harena' := h.behind.tidy.no_arena r o' ho'
  have hfault' : n.fieldFault? o' index target = m.fieldFault? o index target :=
    h.lags.fieldFault?_eq ho ho' h.ahead.tidy h.behind.tidy fun t ht => (htarget t ht).1
  rw [Operation.after, Operation.after, Operation.outcome, Operation.outcome]
  rcases Operation.fieldFault?_cases m o index target with
    ⟨fault, hfault⟩ | ⟨hfault, hfrozen, f, hf⟩
  · rw [hfault] at hfault'
    rw [setField_of_fault ho hfault, setField_of_fault ho' hfault']
    exact ⟨m, n, rfl, rfl, h.weaken (Nat.le_succ most)⟩
  · rw [hfault] at hfault'
    obtain ⟨f', hf', hflag⟩ : ∃ f', o'.fields[index]? = some f' ∧ f'.weak = f.weak := by
      have hone := congrArg (·[index]?) hmap
      simp only [List.getElem?_map, hf, Option.map_some] at hone
      exact Option.map_eq_some_iff.1 hone
    cases hweak : f.weak with
    | true =>
      have hweak' := hflag.trans hweak
      rw [setField_of_weak ho harena hfault hf hweak, setField_of_weak ho' harena' hfault' hf' hweak']
      have h' := h.writeWeak ho ho' hf hf' hweak hweak' fun t ht => (htarget t ht).1
      exact ⟨_, _, rfl, rfl, h'.weaken (Nat.le_succ most)⟩
    | false =>
      have hweak' := hflag.trans hweak
      have hfrozen' := hsame.trans hfrozen
      obtain ⟨s, s', t, t', hs, hrun, hs', hrun', h'⟩ := h.writeStrong ho ho' hf hf' hweak hweak'
        hfrozen hfrozen' fun t ht => ⟨(htarget t ht).1, (htarget t ht).2 o f ho hfrozen hf hweak,
          hfits t ht o' f' ho' hfrozen' hf' hweak'⟩
      rw [setField_of_strong ho harena hfault hf hweak,
        setField_of_strong ho' harena' hfault' hf' hweak', hs, hs', Option.bind_some,
        Option.bind_some, hrun, hrun']
      exact ⟨_, _, rfl, rfl, h'⟩

/-- Both programs go on with the same operation, but for the delay. -/
theorem next (h : Trails m n held most) {op : Operation} (hheap : op.OnHeap)
    (hop : op.Allowed m held) (hfits : op.deferring.Fits n) : ∃ m' n' held',
      op.after m held = some (m', held') ∧ op.deferring.after n held = some (n', held') ∧
        Trails m' n' held' (most + 1) := by
  cases op with
  | registerType tag layout =>
    refine ⟨_, _, held, rfl, rfl, h.ahead.of_stats _ m.stats, h.behind.of_stats _ n.stats, h.prompt,
      ⟨h.plain.1.of_cells rfl rfl rfl, h.plain.2.of_cells rfl rfl rfl⟩, h.lags.of_cells rfl rfl ?_,
      h.load.trans (Nat.le_succ most)⟩
    show n.types.insert tag layout = m.types.insert tag layout
    rw [h.lags.types]
  | allocate spec => exact h.allocate hop hheap
  | allocateType tag shared =>
    have htypes : n.spec tag = m.spec tag := by
      rw [Memory.spec, Memory.spec, Memory.layout, Memory.layout, h.lags.types]
    show ∃ m' n' held', (Operation.allocateType tag shared).after m held = some (m', held') ∧
      (Operation.allocateType tag shared).after n held = some (n', held') ∧
        Trails m' n' held' (most + 1)
    rw [Operation.after_allocateType, Operation.after_allocateType, htypes]
    cases hspec : m.spec tag with
    | error fault => exact ⟨m, n, held, rfl, rfl, h.weaken (Nat.le_succ most)⟩
    | ok spec =>
      obtain ⟨hblank, hsym⟩ := Memory.spec_plain hspec shared
      exact h.allocate hblank hsym
  | acquire r =>
    exact ⟨_, _, _, rfl, rfl, h.acquire hop.1 hop.2 hfits⟩
  | release r =>
    obtain ⟨m', freed, hout, hqueued⟩ := h.release hop
    obtain ⟨n', applied, hout', h'⟩ := hqueued.defer
    refine ⟨m', n', held.erase r, ?_, ?_, h'.weaken (Nat.le_succ most)⟩
    · rw [Operation.after, Operation.outcome, hout]
      rfl
    · rw [Operation.deferring, Operation.after, Operation.outcome, hout']
      rfl
  | setField r index target =>
    obtain ⟨m', n', hout, hout', h'⟩ := h.setField hop hfits
    exact ⟨m', n', held, hout, hout', h'⟩
  | _ => exact absurd hheap id

/-! ### Whole programs -/

/-- From one state to the next along both programs. -/
theorem run {ops ops' : List Operation} (hdeferral : Deferral ops ops')
    (hheap : ∀ op ∈ ops, op.OnHeap) (h : Trails m n held most)
    (hops : Operation.Throughout (fun op m held => op.Allowed m held) ops m held)
    (hfits : Operation.Throughout (fun op n _ => op.Fits n) ops' n held) :
    ∃ m' n' held', Operation.afterAll ops m held = some (m', held') ∧
      Operation.afterAll ops' n held = some (n', held') ∧ Trails m' n' held' (most + ops.length) := by
  induction hdeferral generalizing m n held most with
  | done => exact ⟨m, n, held, rfl, rfl, h⟩
  | point _ ih =>
    obtain ⟨n₁, hafter, h₁⟩ := h.point
    obtain ⟨m', n', held', hrun, hrun', h'⟩ := ih hheap h₁ hops (hfits.2 n₁ held hafter)
    refine ⟨m', n', held', hrun, ?_, h'⟩
    rw [Operation.afterAll, hafter]
    exact hrun'
  | next op _ ih =>
    have hhead := hheap op List.mem_cons_self
    obtain ⟨m₁, n₁, held₁, hafter, hafter', h₁⟩ := h.next hhead hops.1 hfits.1
    obtain ⟨m', n', held', hrun, hrun', h'⟩ :=
      ih (fun op' hop' => hheap op' (List.mem_cons_of_mem op hop')) h₁ (hops.2 m₁ held₁ hafter)
        (hfits.2 n₁ held₁ hafter')
    rw [Nat.add_right_comm] at h'
    refine ⟨m', n', held', ?_, ?_, h'⟩
    · rw [Operation.afterAll, hafter]
      exact hrun
    · rw [Operation.afterAll, hafter']
      exact hrun'

/-- Counts that an operation raises fit their words as long as there are so few references. -/
theorem fits (h : Trails m n held most) (hmost : most + 1 < UInt32.size) (op : Operation) :
    op.Fits n := by
  cases op with
  | acquire r => exact (h.room hmost r).1
  | setField r index target => exact fun t _ _ _ _ _ _ _ => (h.room hmost t).2
  | _ => trivial

/-- Each operation makes at most one reference. -/
theorem fits_throughout {ops ops' : List Operation} (hdeferral : Deferral ops ops')
    (hheap : ∀ op ∈ ops, op.OnHeap) (h : Trails m n held most)
    (hops : Operation.Throughout (fun op m held => op.Allowed m held) ops m held)
    (hmost : most + ops.length < UInt32.size) :
    Operation.Throughout (fun op n _ => op.Fits n) ops' n held := by
  induction hdeferral generalizing m n held most with
  | done => trivial
  | point _ ih =>
    refine ⟨trivial, fun n' held' hafter => ?_⟩
    obtain ⟨n₁, hafter₁, h₁⟩ := h.point
    obtain ⟨rfl, rfl⟩ := Prod.mk.inj (Option.some.inj (hafter₁.symm.trans hafter))
    exact ih hheap h₁ hops hmost
  | next op _ ih =>
    rw [List.length_cons] at hmost
    have hfits := h.fits (by omega) op.deferring
    refine ⟨hfits, fun n' held' hafter => ?_⟩
    obtain ⟨m₁, n₁, held₁, hafter₁, hafter', h₁⟩ :=
      h.next (hheap op List.mem_cons_self) hops.1 hfits
    obtain ⟨rfl, rfl⟩ := Prod.mk.inj (Option.some.inj (hafter'.symm.trans hafter))
    exact ih (fun op' hop' => hheap op' (List.mem_cons_of_mem op hop')) h₁
      (hops.2 m₁ held₁ hafter₁) (by omega)

end Trails

section Programs

variable {config : Config} {secret : UInt64} {machine : Machine} {ops ops' : List Operation}

/-- In a program of fewer than 2^32 operations no count gets too high for its word, however long
decrements are put off. -/
theorem Deferral.fits (hdeferral : Deferral ops ops') (hheap : ∀ op ∈ ops, op.OnHeap)
    (hops : Operation.Throughout (fun op m held => op.Allowed m held) ops (.ofConfigOn config secret machine) 0)
    (hlength : ops.length < UInt32.size) :
    Operation.Throughout (fun op n _ => op.Fits n) ops' (.ofConfigOn config secret machine) 0 :=
  Trails.fits_throughout hdeferral hheap (.start config secret machine) hops (by omega)

end Programs

end Reclamation
