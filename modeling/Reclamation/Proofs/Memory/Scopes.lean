import Mathlib
import Reclamation.Memory.Scopes
import Reclamation.Proofs.Memory.Placement

/-!
# What scopes own

A scope knows its objects by handles, so what it owns is decided by the generations of slots. That
keeps the list of a scope right whatever happens to memory: generations only grow, so a handle that is
no longer good never becomes good again, and as long as the object is there the generation of its slot
is the one in the handle (`Ages`). So while the scope's references are on the ledger, what a scope owns
does not change (`Ages.owned`).

A list that has one entry for each object loses exactly one reference when an object is taken off it
(`owned_filter`, `Scoped.ownedBy_disown`), and gets exactly one when a new object is put on it
(`owned_add`).
-/

set_option autoImplicit false

namespace Reclamation

theorem SlotPool.handle_eq_ok {p : SlotPool} {secret : UInt64} {r : Ref} {h : Handle}
    (hh : p.handle secret r = .ok h) : p.machine.address r < Handle.addressLimit ∧ ∃ x, p.slot? r = some x ∧
      x.inUse = true ∧
        h = .ofParts (handleTag (p.machine.address r) x.generation secret) (p.machine.address r) := by
  unfold handle at hh
  dsimp only at hh
  split at hh
  · exact absurd hh (by simp)
  · next hfit =>
    split at hh
    · exact absurd hh (by simp)
    · next x hx =>
      split at hh
      · next huse => exact ⟨Nat.lt_of_not_le hfit, x, hx, huse, (Except.ok.inj hh).symm⟩
      · exact absurd hh (by simp)

namespace Memory

variable {m m' : Memory} {e : Ref × Handle} {scope : Scope} {r : Ref}

/-! ## Entries -/

/-- The entry of a scope: the handle was made for a symmetric object in the cell, in a generation of
the slot that the slot may have left. -/
def Entry (m : Memory) (e : Ref × Handle) : Prop :=
  ∃ g x, e.2 = .ofParts (handleTag (m.machine.address e.1) g m.secret) (m.machine.address e.1) ∧
    m.machine.address e.1 < Handle.addressLimit ∧ m.pool.slot? e.1 = some x ∧ g % 2 = 0 ∧ g ≤ x.generation ∧
      (x.generation = g → ∀ o, m.object? e.1 = some o → o.symmetric = true)

/-- Whether the object of an entry is still there. -/
theorem Entry.deref? {g : Nat} {x : Slot} (hpool : m.pool.Sound)
    (hhandle : e.2 = .ofParts (handleTag (m.machine.address e.1) g m.secret) (m.machine.address e.1))
    (hfit : m.machine.address e.1 < Handle.addressLimit) (hx : m.pool.slot? e.1 = some x) (heven : g % 2 = 0)
    (hle : g ≤ x.generation) : m.deref? e.2 = if x.generation = g then some e.1 else none := by
  have hlt : g < 2 ^ 16 := Nat.lt_of_le_of_lt hle (SlotPool.generation_lt hpool hx)
  rw [Memory.deref?, hhandle, machine, SlotPool.deref?_ofParts hpool hx hfit hlt]
  by_cases hg : x.generation = g
  · have huse := (hpool.even_iff e.1 x hx).1 (by rw [hg]; exact heven)
    rw [if_pos ⟨huse, hg⟩, if_pos hg]
  · rw [if_neg (fun h => hg h.2), if_neg hg]

/-- What an entry names is the object in its cell, which is symmetric. -/
theorem Entry.eq_of_deref? (h : m.Entry e) (hpool : m.pool.Sound) {x : Ref}
    (hx : m.deref? e.2 = some x) :
    e.1 = x ∧ m.pool.isInUse x = true ∧ ∀ o, m.object? x = some o → o.symmetric = true := by
  obtain ⟨g, s, hhandle, hfit, hs, heven, hle, hsym⟩ := h
  rw [Entry.deref? hpool hhandle hfit hs heven hle] at hx
  split at hx
  · next hg =>
    obtain rfl := Option.some.inj hx
    have huse := (hpool.even_iff e.1 s hs).1 (by rw [hg]; exact heven)
    exact ⟨rfl, isInUse_iff_slot?.2 ⟨s, hs, huse⟩, hsym hg⟩
  · exact absurd hx (by simp)

/-! ## The passing of time -/

/-- Slots move on to other generations, except those of objects that stay, and what stays is symmetric
or not as it was. -/
structure Ages (m m' : Memory) : Prop where
  secret : m'.secret = m.secret
  machine : m'.machine = m.machine
  slot : ∀ y x, m.pool.slot? y = some x →
    ∃ x', m'.pool.slot? y = some x' ∧ (x' = x ∨ x.generation < x'.generation)
  stays : ∀ y, m.pool.isInUse y = true → m'.isLive y = true → m'.pool.slot? y = m.pool.slot? y
  object : ∀ y o', m.isLive y = true → m'.object? y = some o' →
    ∃ o, m.object? y = some o ∧ o'.symmetric = o.symmetric

namespace Ages

theorem of_steady (h : Steady m m') (hhoused : m'.Housed) : Ages m m' where
  secret := h.aside.secret
  machine := h.aside.machine
  slot y x hx := by
    rcases h.slots y with he | ⟨x₀, x', hx₀, hx', hlt, -⟩
    · exact ⟨x, he.trans hx, .inl rfl⟩
    · obtain rfl := Option.some.inj (hx₀.symm.trans hx)
      exact ⟨x', hx', .inr hlt⟩
  stays y _ hlive := by
    rcases h.slots y with he | ⟨x, x', -, hx', -, huse⟩
    · exact he
    · -- a slot with an object is in use
      obtain ⟨o, ho⟩ := isLive_iff.1 hlive
      have hin := (hhoused.inUse_iff y).2 ⟨o, ho, hhoused.slot_only y x' o hx' ho⟩
      obtain ⟨z, hz, hzuse⟩ := isInUse_iff_slot?.1 hin
      obtain rfl := Option.some.inj (hx'.symm.trans hz)
      rw [huse] at hzuse
      exact absurd hzuse (by decide)
  object y o' _ ho' := h.object y o' ho'

theorem of_born {o : Object} (hborn : Born r o m m') (hsecret : m'.secret = m.secret)
    (hmachine : m'.machine = m.machine)
    (hslot : ∀ y x, m.pool.slot? y = some x → m'.pool.slot? y = some x ∨
      (x.inUse = false ∧ m'.pool.slot? y = some ⟨x.generation + 1, true⟩)) : Ages m m' where
  secret := hsecret
  machine := hmachine
  slot y x hx := by
    rcases hslot y x hx with hx' | ⟨-, hx'⟩
    · exact ⟨x, hx', .inl rfl⟩
    · exact ⟨_, hx', .inr (Nat.lt_succ_self _)⟩
  stays y huse _ := by
    obtain ⟨x, hx, hxuse⟩ := isInUse_iff_slot?.1 huse
    rcases hslot y x hx with hx' | ⟨hnot, -⟩
    · rw [hx', hx]
    · rw [hxuse] at hnot
      exact absurd hnot (by decide)
  object y o' hlive ho' := by
    obtain ⟨o₀, ho₀⟩ := isLive_iff.1 hlive
    obtain rfl := Option.some.inj ((hborn.object_of_some ho₀).symm.trans ho')
    exact ⟨o₀, ho₀, rfl⟩

/-- A pool that has no slot to give. -/
theorem exhausted (ht : (m.pool.take (m.cells.size + 1)).2 = none) :
    Ages m { m with pool := (m.pool.take (m.cells.size + 1)).1 } where
  secret := rfl
  machine := SlotPool.machine_take ..
  slot y x hx := ⟨x, (SlotPool.slot?_take_none ht y).trans hx, .inl rfl⟩
  stays y _ _ := SlotPool.slot?_take_none ht y
  object _ o' _ ho' := ⟨o', ho', rfl⟩

theorem entry (h : Ages m m') (hhoused : m.Housed) (he : m.Entry e) : m'.Entry e := by
  obtain ⟨g, x, hhandle, hfit, hx, heven, hle, hsym⟩ := he
  obtain ⟨x', hx', hcases⟩ := h.slot e.1 x hx
  refine ⟨g, x', by rw [h.secret, h.machine, hhandle], h.machine ▸ hfit, hx', heven, ?_, fun hg o' ho' => ?_⟩
  · rcases hcases with rfl | hlt
    · exact hle
    · exact Nat.le_trans hle (Nat.le_of_lt hlt)
  · rcases hcases with rfl | hlt
    · have huse := (hhoused.pool.even_iff e.1 x' hx).1 (by rw [hg]; exact heven)
      obtain ⟨o, ho, -⟩ := (hhoused.inUse_iff e.1).1 (isInUse_iff_slot?.2 ⟨x', hx, huse⟩)
      obtain ⟨o₀, ho₀, hs⟩ := h.object e.1 o' (isLive_of_object? ho) ho'
      rw [hs]
      exact hsym hg o₀ ho₀
    · omega

/-- A scope owns what it owned, as long as that is there. -/
theorem owned (h : Ages m m') (hpool : m.pool.Sound) (hpool' : m'.pool.Sound)
    (hentries : ∀ e ∈ scope, m.Entry e) (hlive : ∀ x ∈ m.owned scope, m'.isLive x = true) :
    m'.owned scope = m.owned scope := by
  refine List.filterMap_congr fun e he => ?_
  obtain ⟨g, x, hhandle, hfit, hx, heven, hle, -⟩ := hentries e he
  obtain ⟨x', hx', hcases⟩ := h.slot e.1 x hx
  have hhandle' : e.2 = .ofParts (handleTag (m'.machine.address e.1) g m'.secret) (m'.machine.address e.1) := by
    rw [h.secret, h.machine, hhandle]
  have hle' : g ≤ x'.generation := by
    rcases hcases with rfl | hlt
    · exact hle
    · exact Nat.le_trans hle (Nat.le_of_lt hlt)
  have hbefore := Entry.deref? hpool hhandle hfit hx heven hle
  have hafter := Entry.deref? hpool' hhandle' (h.machine ▸ hfit) hx' heven hle'
  rw [hbefore, hafter]
  by_cases hg : x.generation = g
  · rw [if_pos hg] at hbefore
    have hown : e.1 ∈ m.owned scope := List.mem_filterMap.2 ⟨e, he, hbefore⟩
    have huse := (hpool.even_iff e.1 x hx).1 (by rw [hg]; exact heven)
    have hstays := h.stays e.1 (isInUse_iff_slot?.2 ⟨x, hx, huse⟩) (hlive e.1 hown)
    obtain rfl := Option.some.inj (hx'.symm.trans (hstays.trans hx))
    rfl
  · have hlt : g < x'.generation := by
      rcases hcases with rfl | hlt
      · omega
      · omega
    rw [if_neg hg, if_neg (Nat.ne_of_gt hlt)]

end Ages

/-! ## One scope -/

/-- What some entries own does not depend on their order. -/
theorem perm_owned {entries : Scope} (h : entries.Perm scope) : (m.owned entries).Perm (m.owned scope) :=
  h.filterMap _

/-- The entries of the innermost scope, in another order. -/
theorem perm_innermost {entries : Scope} {scopes : List Scope} (h : m.scopes = scope :: scopes) :
    entries.Perm m.innermost ↔ entries.Perm scope := by
  rw [innermost, h, List.headD_cons]
  exact (List.reverse_perm scope).congr_right entries

theorem mem_owned {x : Ref} : x ∈ m.owned scope ↔ ∃ e ∈ scope, m.deref? e.2 = some x := by
  simp only [owned, List.mem_filterMap]

/-- Values that are the keys of their entries are keys. -/
theorem filterMap_sublist_keys {f : Ref × Handle → Option Ref} : ∀ {entries : Scope},
    (∀ e ∈ entries, ∀ x, f e = some x → e.1 = x) →
      (entries.filterMap f).Sublist (entries.map Prod.fst) := by
  intro entries
  induction entries with
  | nil => exact fun _ => .slnil
  | cons e entries ih =>
    intro hkey
    have hrest := ih fun e he => hkey e (List.mem_cons_of_mem _ he)
    cases hf : f e with
    | none =>
      rw [List.filterMap_cons_none hf]
      exact hrest.cons _
    | some x =>
      obtain rfl := hkey e List.mem_cons_self x hf
      rw [List.filterMap_cons_some hf]
      exact hrest.cons_cons _

/-- What a scope owns it owns once. -/
theorem nodup_owned (hentries : ∀ e ∈ scope, m.Entry e) (hdistinct : (scope.map Prod.fst).Nodup)
    (hpool : m.pool.Sound) : (m.owned scope).Nodup := by
  refine (filterMap_sublist_keys fun e he x hx => ?_).nodup hdistinct
  exact ((hentries e he).eq_of_deref? hpool hx).1

/-- A scope has an entry that names an object exactly if it owns a reference to it. -/
theorem any_entry_iff (hentries : ∀ e ∈ scope, m.Entry e) (hpool : m.pool.Sound) :
    (scope.any fun entry => entry.1 == r && m.deref? entry.2 == some r) = true ↔
      r ∈ m.owned scope := by
  rw [List.any_eq_true, mem_owned]
  constructor
  · rintro ⟨e, he, hd⟩
    simp only [Bool.and_eq_true, beq_iff_eq] at hd
    exact ⟨e, he, hd.2⟩
  · rintro ⟨e, he, hd⟩
    have hx := ((hentries e he).eq_of_deref? hpool hd).1
    exact ⟨e, he, by simp [hx, hd]⟩

/-- With its entry the value of one key is lost. -/
theorem filterMap_filter_ne {f : Ref × Handle → Option Ref} (hdistinct : (scope.map Prod.fst).Nodup)
    (he : e ∈ scope) (hr : f e = some e.1) :
    e.1 ::ₘ (↑((scope.filter (·.1 != e.1)).filterMap f) : Multiset Ref) = ↑(scope.filterMap f) := by
  obtain ⟨pre, post, rfl⟩ := List.append_of_mem he
  have hnodup : (pre.map Prod.fst ++ e.1 :: post.map Prod.fst).Nodup := by simpa using hdistinct
  have hnot : e.1 ∉ pre.map Prod.fst ++ post.map Prod.fst :=
    (List.nodup_cons.1 (List.nodup_middle.1 hnodup)).1
  rw [List.mem_append, not_or] at hnot
  have hkeep : ∀ l : Scope, e.1 ∉ l.map Prod.fst → l.filter (·.1 != e.1) = l := fun l hl => by
    refine List.filter_eq_self.2 fun d hd => ?_
    simp only [bne_iff_ne, ne_eq]
    exact fun heq => hl (List.mem_map.2 ⟨d, hd, heq⟩)
  have hfilter : (pre ++ e :: post).filter (·.1 != e.1) = pre ++ post := by
    rw [List.filter_append, List.filter_cons_of_neg (by simp), hkeep pre hnot.1, hkeep post hnot.2]
  rw [hfilter, List.filterMap_append, List.filterMap_append, List.filterMap_cons_some hr,
    Multiset.cons_coe]
  exact Multiset.coe_eq_coe.2 List.perm_middle.symm

/-- With the entry of an object a scope loses one reference. -/
theorem owned_filter (hentries : ∀ e ∈ scope, m.Entry e) (hdistinct : (scope.map Prod.fst).Nodup)
    (hpool : m.pool.Sound) (hr : r ∈ m.owned scope) :
    (m.owned (scope.filter (·.1 != r)) : Multiset Ref) = (m.owned scope : Multiset Ref).erase r := by
  obtain ⟨e, he, hd⟩ := mem_owned.1 hr
  obtain rfl := ((hentries e he).eq_of_deref? hpool hd).1
  rw [owned, owned, ← filterMap_filter_ne hdistinct he hd, Multiset.erase_cons_head]

/-- An entry that names nothing can go. -/
theorem filterMap_add {f : Ref × Handle → Option Ref} {h : Handle}
    (hstale : ∀ e ∈ scope, e.1 = r → f e = none) (hr : f (r, h) = some r) :
    (↑((scope.add r h).filterMap f) : Multiset Ref) = r ::ₘ ↑(scope.filterMap f) := by
  have hsame : (scope.filter (·.1 != r)).filterMap f = scope.filterMap f := by
    rw [List.filterMap_filter]
    refine List.filterMap_congr fun e he => ?_
    by_cases her : e.1 = r
    · rw [hstale e he her]
      simp
    · simp [her]
  rw [Scope.add, List.filterMap_cons_some hr, hsame, Multiset.cons_coe]

/-- An object that a scope did not own gets an entry. -/
theorem owned_add {h : Handle} (hentries : ∀ e ∈ scope, m.Entry e) (hpool : m.pool.Sound)
    (hnot : r ∉ m.owned scope) (hr : m.deref? h = some r) :
    (m.owned (scope.add r h) : Multiset Ref) = r ::ₘ ↑(m.owned scope) := by
  refine filterMap_add (fun e he her => ?_) hr
  cases hd : m.deref? e.2 with
  | none => rfl
  | some x =>
    have hx := ((hentries e he).eq_of_deref? hpool hd).1
    exact absurd (mem_owned.2 ⟨e, he, hx ▸ hd⟩) (her ▸ hnot)

/-! ## All scopes -/

/-- The entries of all scopes are in order. -/
structure Scoped (m : Memory) : Prop where
  entries : ∀ scope ∈ m.scopes, ∀ e ∈ scope, m.Entry e
  distinct : ∀ scope ∈ m.scopes, (scope.map Prod.fst).Nodup

/-- The references that scopes own. -/
def scopeRefs (m : Memory) : Multiset Ref :=
  ↑(m.scopes.flatMap m.owned)

/-- The references that each scope owns, those of the innermost first. -/
def ownedBy (m : Memory) : List (Multiset Ref) :=
  m.scopes.map fun scope => ↑(m.owned scope)

theorem sum_ownedBy (m : Memory) : m.ownedBy.sum = m.scopeRefs := by
  unfold ownedBy scopeRefs
  generalize m.scopes = scopes
  induction scopes with
  | nil => rfl
  | cons scope scopes ih =>
    rw [List.map_cons, List.sum_cons, ih, List.flatMap_cons, ← Multiset.coe_add]

theorem mem_scopeRefs {x : Ref} : x ∈ m.scopeRefs ↔ ∃ scope ∈ m.scopes, x ∈ m.owned scope := by
  simp [scopeRefs]

theorem Scoped.nodup_of_mem_ownedBy (h : m.Scoped) (hpool : m.pool.Sound) {own : Multiset Ref}
    (hown : own ∈ m.ownedBy) : own.Nodup := by
  obtain ⟨scope, hs, rfl⟩ := List.mem_map.1 hown
  exact Multiset.coe_nodup.2 (nodup_owned (h.entries scope hs) (h.distinct scope hs) hpool)

theorem Scoped.of_ages (h : m.Scoped) (hages : Ages m m') (hhoused : m.Housed)
    (hscopes : m'.scopes = m.scopes) : m'.Scoped where
  entries scope hs e he := hages.entry hhoused (h.entries scope (hscopes ▸ hs) e he)
  distinct scope hs := h.distinct scope (hscopes ▸ hs)

/-- Each scope owns what it owned, as long as that is there. -/
theorem Scoped.ownedBy_eq (h : m.Scoped) (hages : Ages m m') (hpool : m.pool.Sound)
    (hpool' : m'.pool.Sound) (hscopes : m'.scopes = m.scopes)
    (hlive : ∀ x ∈ m.scopeRefs, m'.isLive x = true) : m'.ownedBy = m.ownedBy := by
  unfold ownedBy
  rw [hscopes]
  refine List.map_congr_left fun scope hs => congrArg _ ?_
  exact hages.owned hpool hpool' (h.entries scope hs) fun x hx =>
    hlive x (mem_scopeRefs.2 ⟨scope, hs, hx⟩)

theorem Scoped.scopeRefs_eq (h : m.Scoped) (hages : Ages m m') (hpool : m.pool.Sound)
    (hpool' : m'.pool.Sound) (hscopes : m'.scopes = m.scopes)
    (hlive : ∀ x ∈ m.scopeRefs, m'.isLive x = true) : m'.scopeRefs = m.scopeRefs := by
  rw [← sum_ownedBy, h.ownedBy_eq hages hpool hpool' hscopes hlive, sum_ownedBy]

theorem Scoped.symmetric (h : m.Scoped) (hpool : m.pool.Sound) {x : Ref} (hx : x ∈ m.scopeRefs)
    {o : Object} (ho : m.object? x = some o) : o.symmetric = true := by
  obtain ⟨scope, hs, hx⟩ := mem_scopeRefs.1 hx
  obtain ⟨e, he, hd⟩ := mem_owned.1 hx
  exact ((h.entries scope hs e he).eq_of_deref? hpool hd).2.2 o ho

/-! ## Taking an object off its scope -/

/-- Take a reference out of the first of several lots that has it. -/
def withdraw (r : Ref) : List (Multiset Ref) → List (Multiset Ref)
  | [] => []
  | own :: outer => if r ∈ own then own.erase r :: outer else own :: withdraw r outer

theorem cons_sum_withdraw : ∀ {owns : List (Multiset Ref)}, r ∈ owns.sum →
    r ::ₘ (withdraw r owns).sum = owns.sum := by
  intro owns
  induction owns with
  | nil => exact fun hr => absurd hr (Multiset.notMem_zero r)
  | cons own outer ih =>
    intro hr
    rw [withdraw]
    by_cases hown : r ∈ own
    · rw [if_pos hown, List.sum_cons, List.sum_cons, ← Multiset.cons_add, Multiset.cons_erase hown]
    · rw [List.sum_cons, Multiset.mem_add] at hr
      rw [if_neg hown, List.sum_cons, List.sum_cons, ← Multiset.add_cons, ih (hr.resolve_left hown)]

theorem withdraw_of_notMem : ∀ {owns : List (Multiset Ref)}, r ∉ owns.sum → withdraw r owns = owns := by
  intro owns
  induction owns with
  | nil => exact fun _ => rfl
  | cons own outer ih =>
    intro hr
    rw [List.sum_cons, Multiset.mem_add, not_or] at hr
    rw [withdraw, if_neg hr.1, ih hr.2]

/-- The innermost scope that owns a reference to an object loses it. -/
theorem map_owned_disown (hpool : m.pool.Sound) : ∀ {scopes : List Scope},
    (∀ scope ∈ scopes, ∀ e ∈ scope, m.Entry e) → (∀ scope ∈ scopes, (scope.map Prod.fst).Nodup) →
      (m.disown r scopes).map (fun scope => (↑(m.owned scope) : Multiset Ref)) =
        withdraw r (scopes.map fun scope => ↑(m.owned scope)) := by
  intro scopes
  induction scopes with
  | nil => exact fun _ _ => rfl
  | cons scope scopes ih =>
    intro hentries hdistinct
    have hiff := any_entry_iff (r := r) (hentries scope List.mem_cons_self) hpool
    rw [disown, List.map_cons, withdraw]
    by_cases hr : r ∈ m.owned scope
    · rw [if_pos (hiff.2 hr), if_pos (Multiset.mem_coe.2 hr), List.map_cons,
        owned_filter (hentries scope List.mem_cons_self) (hdistinct scope List.mem_cons_self) hpool hr]
    · rw [if_neg (fun hany => hr (hiff.1 hany)), if_neg (fun hmem => hr (Multiset.mem_coe.1 hmem)),
        List.map_cons, ih (fun s hs => hentries s (List.mem_cons_of_mem _ hs))
          (fun s hs => hdistinct s (List.mem_cons_of_mem _ hs))]

theorem exists_sublist_of_mem_disown {scope' : Scope} : ∀ {scopes : List Scope},
    scope' ∈ m.disown r scopes → ∃ scope ∈ scopes, scope'.Sublist scope := by
  intro scopes
  induction scopes with
  | nil => exact fun hs => absurd hs List.not_mem_nil
  | cons scope scopes ih =>
    intro hs
    rw [disown] at hs
    split at hs
    · rcases List.mem_cons.1 hs with rfl | hs
      · exact ⟨scope, List.mem_cons_self, List.filter_sublist⟩
      · exact ⟨scope', List.mem_cons_of_mem _ hs, .refl _⟩
    · rcases List.mem_cons.1 hs with rfl | hs
      · exact ⟨scope', List.mem_cons_self, .refl _⟩
      · obtain ⟨scope₀, hs₀, hsub⟩ := ih hs
        exact ⟨scope₀, List.mem_cons_of_mem _ hs₀, hsub⟩

theorem Scoped.ownedBy_disown (h : m.Scoped) (hpool : m.pool.Sound) (r : Ref) :
    ({ m with scopes := m.disown r m.scopes } : Memory).ownedBy = withdraw r m.ownedBy :=
  map_owned_disown hpool h.entries h.distinct

end Memory

end Reclamation
