import Mathlib
import Reclamation.Plan.Ownership
import Reclamation.Proofs.Program.Store

/-!
# Owners and transfers

The owners of a value are the locals to which it gets by moves and copies between whole locals
(`mem_ownersOf`), each listed once. A transfer is the statement that stands at its position
(`mem_transfers`), and it makes its destination refer to what its source does (`Transfer.Is.exec`).
-/

set_option autoImplicit false

namespace Reclamation

theorem Place.eq_ofLocal {p : Place} {l : LocalId} (h : p.local? = some l) : p = .ofLocal l := by
  obtain ⟨base, projection⟩ := p
  rw [Place.local?] at h
  split at h
  · next hempty =>
    obtain rfl := Option.some.inj h
    obtain rfl := List.isEmpty_iff.1 hempty
    rfl
  · exact absurd h (by simp)

@[simp] theorem Place.local?_ofLocal (l : LocalId) : (Place.ofLocal l).local? = some l := rfl

/-! ## The locals a value gets to -/

namespace Ownership

theorem freshDests_snoc (ts : List Transfer) (t : Transfer) (source : LocalId) (seen : List LocalId) :
    freshDests (ts ++ [t]) source seen =
      if t.source = source ∧ t.dest ∉ seen ∧ t.dest ∉ freshDests ts source seen then
        freshDests ts source seen ++ [t.dest]
      else freshDests ts source seen := by
  rw [freshDests, List.foldl_append]
  rfl

theorem mem_freshDests_iff {ts : List Transfer} {source : LocalId} {seen : List LocalId} {l : LocalId} :
    l ∈ freshDests ts source seen ↔ l ∉ seen ∧ ∃ t ∈ ts, t.source = source ∧ t.dest = l := by
  constructor
  · intro h
    obtain ⟨t, ht, hdest, hsource, hseen⟩ := mem_freshDests h
    exact ⟨hseen, t, ht, hsource, hdest⟩
  · rintro ⟨hseen, t, ht, hsource, hdest⟩
    induction ts using List.reverseRecOn with
    | nil => simp at ht
    | append_singleton ts t' ih =>
      rw [freshDests_snoc]
      rcases List.mem_append.1 ht with ht | ht
      · split
        · exact List.mem_append_left _ (ih ht)
        · exact ih ht
      · obtain rfl := List.mem_singleton.1 ht
        split
        · simp [hdest]
        · next hcond =>
          simp only [hsource, hdest, hseen, not_false_eq_true, true_and, not_not] at hcond
          exact hcond

theorem nodup_freshDests (ts : List Transfer) (source : LocalId) (seen : List LocalId) :
    (freshDests ts source seen).Nodup := by
  induction ts using List.reverseRecOn with
  | nil => exact List.nodup_nil
  | append_singleton ts t ih =>
    rw [freshDests_snoc]
    split
    · next hcond => exact ih.append (List.nodup_singleton _) (by simpa using hcond.2.2)
    · exact ih

/-- A local is moved or copied to another. -/
def Passes (ts : List Transfer) (source dest : LocalId) : Prop :=
  ∃ t ∈ ts, t.source = source ∧ t.dest = dest

theorem spread_sound {ts : List Transfer} {root : LocalId} {queue seen : List LocalId}
    (hqueue : ∀ l ∈ queue, l ∈ seen) (hseen : ∀ l ∈ seen, Relation.ReflTransGen (Passes ts) root l) :
    ∀ l ∈ spread ts queue seen, Relation.ReflTransGen (Passes ts) root l := by
  fun_induction spread ts queue seen with
  | case1 seen => exact hseen
  | case2 seen source queue fresh ih =>
    refine ih (fun l hl => ?_) fun l hl => ?_
    · rcases List.mem_append.1 hl with hl | hl
      · exact List.mem_append_left _ (hqueue l (List.mem_cons_of_mem _ hl))
      · exact List.mem_append_right _ hl
    · rcases List.mem_append.1 hl with hl | hl
      · exact hseen l hl
      · exact (hseen source (hqueue source List.mem_cons_self)).tail (mem_freshDests_iff.1 hl).2

theorem subset_spread {ts : List Transfer} {queue seen : List LocalId} :
    ∀ l ∈ seen, l ∈ spread ts queue seen := by
  fun_induction spread ts queue seen with
  | case1 seen => exact fun l hl => hl
  | case2 seen source queue fresh ih => exact fun l hl => ih l (List.mem_append_left _ hl)

/-- What is found is closed: the locals that wait to be looked at are the only ones whose destinations
may be missing. -/
theorem spread_closed {ts : List Transfer} {queue seen : List LocalId}
    (hseen : ∀ l ∈ seen, l ∈ queue ∨ ∀ l', Passes ts l l' → l' ∈ seen) {l l' : LocalId}
    (hl : l ∈ spread ts queue seen) (hpass : Passes ts l l') : l' ∈ spread ts queue seen := by
  fun_induction spread ts queue seen with
  | case1 seen => exact (hseen l hl).elim (fun h => absurd h (by simp)) fun h => h l' hpass
  | case2 seen source queue fresh ih =>
    refine ih (fun x hx => ?_) hl
    rcases List.mem_append.1 hx with hx | hx
    · rcases hseen x hx with hqueue | hclosed
      · rcases List.mem_cons.1 hqueue with rfl | hqueue
        · refine .inr fun y hy => ?_
          by_cases hmem : y ∈ seen
          · exact List.mem_append_left _ hmem
          · exact List.mem_append_right _ (mem_freshDests_iff.2 ⟨hmem, hy⟩)
        · exact .inl (List.mem_append_left _ hqueue)
      · exact .inr fun y hy => List.mem_append_left _ (hclosed y hy)
    · exact .inl (List.mem_append_right _ hx)

theorem nodup_spread {ts : List Transfer} {queue seen : List LocalId} (h : seen.Nodup) :
    (spread ts queue seen).Nodup := by
  fun_induction spread ts queue seen with
  | case1 seen => exact h
  | case2 seen source queue fresh ih =>
    refine ih (h.append (nodup_freshDests ..) fun l hl hfresh => ?_)
    exact (mem_freshDests_iff.1 hfresh).1 hl

/-- The owners of a value are the locals to which it gets from the one it is written to. -/
theorem mem_ownersOf {o : Ownership} {p : Place} {l : LocalId} :
    l ∈ o.ownersOf p ↔ ∃ root, p.local? = some root ∧ Relation.ReflTransGen (Passes o.transfers) root l := by
  rw [ownersOf]
  cases h : p.local? with
  | none => simp
  | some root =>
    constructor
    · intro hl
      refine ⟨root, rfl, spread_sound (fun l hl => hl) (fun l hl => ?_) l hl⟩
      rw [List.mem_singleton.1 hl]
    · rintro ⟨root', hroot, hreach⟩
      obtain rfl := Option.some.inj hroot
      induction hreach with
      | refl => exact subset_spread root (List.mem_singleton.2 rfl)
      | tail _ hpass ih => exact spread_closed (fun l hl => .inl hl) ih hpass

/-- What holds of the local written to, and is handed on by moves and copies, holds of every owner. -/
theorem of_mem_ownersOf {o : Ownership} {P : LocalId → Prop} {root l : LocalId}
    (hl : l ∈ o.ownersOf (.ofLocal root)) (hroot : P root)
    (hpass : ∀ t ∈ o.transfers, P t.source → P t.dest) : P l := by
  obtain ⟨root', hroot', hreach⟩ := mem_ownersOf.1 hl
  obtain rfl := Option.some.inj hroot'
  clear hl
  induction hreach with
  | refl => exact hroot
  | tail _ h ih =>
    obtain ⟨t, ht, rfl, rfl⟩ := h
    exact hpass t ht ih

theorem nodup_ownersOf (o : Ownership) (p : Place) : (o.ownersOf p).Nodup := by
  rw [ownersOf]
  cases p.local? with
  | none => exact List.nodup_nil
  | some root => exact nodup_spread (List.nodup_singleton root)

theorem ownersOf_ofLocal_head (o : Ownership) (root : LocalId) :
    (o.ownersOf (.ofLocal root)).head? = some root := by
  have hprefix : ∀ (ts : List Transfer) (queue seen : List LocalId), seen.head? = some root →
      (spread ts queue seen).head? = some root := by
    intro ts queue seen
    fun_induction spread ts queue seen with
    | case1 seen => exact id
    | case2 seen source queue fresh ih =>
      intro h
      refine ih ?_
      rw [List.head?_append, h]
      rfl
  exact hprefix _ _ _ rfl

/-- A local that is not handed on is the only owner of what is written to it. -/
theorem ownersOf_eq_singleton {o : Ownership} {root : LocalId} (h : ∀ t ∈ o.transfers, t.source ≠ root) :
    o.ownersOf (.ofLocal root) = [root] := by
  have hfresh : freshDests o.transfers root [root] = [] := by
    refine List.eq_nil_iff_forall_not_mem.2 fun l hl => ?_
    obtain ⟨-, t, ht, hsource, -⟩ := mem_freshDests_iff.1 hl
    exact h t ht hsource
  rw [ownersOf, Place.local?_ofLocal]
  simp only [spread, hfresh, List.append_nil]

end Ownership

/-! ## Transfers as statements -/

namespace Transfer

/-- The statement that makes a transfer. -/
structure Is (t : Transfer) (s : Statement) : Prop where
  ne : t.source ≠ t.dest
  eq : s = .assign (.ofLocal t.dest)
    (.use (if t.isMove then .move (.ofLocal t.source) else .copy (.ofLocal t.source)))

theorem of_between {p q : Place} {loc : Location} {isMove : Bool} {t : Transfer}
    (h : Statement.transfer?.between loc p q isMove = some t) :
    t.loc = loc ∧ t.isMove = isMove ∧ t.source ≠ t.dest ∧ p = .ofLocal t.dest ∧ q = .ofLocal t.source := by
  simp only [Statement.transfer?.between, Option.bind_eq_bind, Option.bind_eq_some_iff] at h
  obtain ⟨dest, hdest, source, hsource, h⟩ := h
  split at h
  · exact absurd h (by simp)
  · next hne =>
    obtain rfl := Option.some.inj h
    exact ⟨rfl, rfl, hne, Place.eq_ofLocal hdest, Place.eq_ofLocal hsource⟩

theorem transfer?_eq_some {s : Statement} {loc : Location} {t : Transfer} :
    s.transfer? loc = some t ↔ t.loc = loc ∧ t.Is s := by
  constructor
  · intro h
    unfold Statement.transfer? at h
    split at h
    · obtain ⟨hloc, hmove, hne, rfl, rfl⟩ := of_between h
      exact ⟨hloc, hne, by rw [hmove]; rfl⟩
    · obtain ⟨hloc, hmove, hne, rfl, rfl⟩ := of_between h
      exact ⟨hloc, hne, by rw [hmove]; rfl⟩
    · exact absurd h (by simp)
  · rintro ⟨rfl, hne, rfl⟩
    obtain ⟨loc, source, dest, isMove⟩ := t
    cases isMove <;> simp_all [Statement.transfer?, Statement.transfer?.between]

variable {t : Transfer} {s : Statement}

theorem Is.effects (h : t.Is s) : s.effects = { uses := [t.source], defs := [t.dest] } := by
  rw [h.eq]
  cases t.isMove <;> rfl

/-- After a transfer its destination refers to what its source does. -/
theorem Is.exec (h : t.Is s) (σ : Store) (loc : Location) :
    σ.exec loc (.statement s) = σ.setLocal t.dest (σ.locals t.source) := by
  rw [h.eq]
  cases t.isMove <;> rfl

end Transfer

namespace Body

variable {b : Body}

theorem mem_transfers {t : Transfer} :
    t ∈ b.ownership.transfers ↔ ∃ s, b.instruction? t.loc = some (.statement s) ∧ t.Is s := by
  simp only [ownership, List.mem_filterMap, Prod.exists, Transfer.transfer?_eq_some]
  constructor
  · rintro ⟨loc, s, hs, rfl, h⟩
    exact ⟨s, mem_statements.1 hs, h⟩
  · rintro ⟨s, hs, h⟩
    exact ⟨t.loc, s, mem_statements.2 hs, rfl, h⟩

/-- A position makes at most one transfer. -/
theorem transfer_unique {t t' : Transfer} (ht : t ∈ b.ownership.transfers) (ht' : t' ∈ b.ownership.transfers)
    (hloc : t.loc = t'.loc) : t = t' := by
  obtain ⟨s, hs, h⟩ := mem_transfers.1 ht
  obtain ⟨s', hs', h'⟩ := mem_transfers.1 ht'
  rw [hloc, hs'] at hs
  obtain rfl := Instruction.statement.inj (Option.some.inj hs)
  have hsome := Transfer.transfer?_eq_some.2 ⟨hloc, h⟩
  rw [Transfer.transfer?_eq_some.2 ⟨rfl, h'⟩] at hsome
  exact (Option.some.inj hsome).symm

theorem nodup_transfers (b : Body) : b.ownership.transfers.Nodup := by
  have hstatements : b.statements.Nodup := (nodup_statements_location b).of_map
  refine hstatements.filterMap fun a a' t ht ht' => ?_
  have hloc := (Transfer.transfer?_eq_some.1 ht).1.symm.trans (Transfer.transfer?_eq_some.1 ht').1
  obtain ⟨loc, s⟩ := a
  obtain ⟨loc', s'⟩ := a'
  obtain rfl : loc = loc' := hloc
  have hs := (Transfer.transfer?_eq_some.1 ht).2.eq.trans (Transfer.transfer?_eq_some.1 ht').2.eq.symm
  exact congrArg _ hs

end Body

end Reclamation
