import Reclamation.Memory.Ref

/-!
# The registry of frozen components

A frozen cycle of objects is released as one: its members share a single count, kept here. The
registry is a table of bounded size whose entries are used again, so the id of a component holds the
entry's index and its epoch, which moves on with each use of the entry. An id is good for as long as
its component is live; afterwards it names nothing, even when its entry has a new component
(`entry?_isSome_iff`).

Main statements: taking a live component leaves one live entry less (`liveEntries_take`), and
registering fails exactly when no entry is free and the table is full (`register?_eq_none_iff`).
-/

set_option autoImplicit false

namespace Reclamation

/-! ## Ids -/

/-- The id of a component: the epoch of its entry in the high half of the word and one more than the
entry's index in the low half. A word whose low half is zero names no entry. -/
structure ComponentId where
  word : UInt64
  deriving DecidableEq, Repr

namespace ComponentId

/-- The id of an entry at an epoch. -/
def ofParts (index : Nat) (epoch : UInt32) : ComponentId :=
  ⟨epoch.toUInt64 <<< 32 ||| UInt64.ofNat (index + 1)⟩

/-- The index of the entry. -/
def index? (id : ComponentId) : Option Nat :=
  match id.word.toNat % UInt32.size with
  | 0 => none
  | n + 1 => some n

/-- The epoch of the entry. -/
def epoch (id : ComponentId) : UInt32 :=
  (id.word >>> 32).toUInt32

/-- The text of an id in reports. -/
def text (id : ComponentId) : String :=
  match id.index? with
  | some i => "scc" ++ toString i ++ "@" ++ toString id.epoch.toNat
  | none => "scc?"

theorem toNat_ofParts (index : Nat) (epoch : UInt32) (h : index + 1 < UInt32.size) :
    (ofParts index epoch).word.toNat = epoch.toNat * UInt32.size + (index + 1) := by
  have hb : index + 1 < 2 ^ 32 := h
  have hm : (index + 1) % 2 ^ 64 = index + 1 := Nat.mod_eq_of_lt (by omega)
  have he : epoch.toNat <<< 32 % 2 ^ 64 = epoch.toNat <<< 32 := by
    apply Nat.mod_eq_of_lt
    rw [Nat.shiftLeft_eq]
    have := epoch.toNat_lt
    omega
  simp only [ofParts, UInt64.toNat_or, UInt64.toNat_shiftLeft, UInt32.toNat_toUInt64,
    UInt64.toNat_ofNat', hm]
  rw [show (32 : UInt64).toNat % 64 = 32 from rfl, he, ← Nat.shiftLeft_add_eq_or_of_lt hb,
    Nat.shiftLeft_eq]

theorem index?_ofParts (index : Nat) (epoch : UInt32) (h : index + 1 < UInt32.size) :
    (ofParts index epoch).index? = some index := by
  have hlow : (ofParts index epoch).word.toNat % UInt32.size = index + 1 := by
    rw [toNat_ofParts index epoch h, Nat.add_comm, Nat.add_mul_mod_self_right,
      Nat.mod_eq_of_lt h]
  unfold index?
  rw [hlow]

theorem epoch_ofParts (index : Nat) (epoch : UInt32) (h : index + 1 < UInt32.size) :
    (ofParts index epoch).epoch = epoch := by
  apply UInt32.toNat_inj.1
  have := epoch.toNat_lt
  have hword := toNat_ofParts index epoch h
  have hhigh : (ofParts index epoch).word.toNat >>> 32 = epoch.toNat := by
    rw [hword, Nat.shiftRight_eq_div_pow]
    unfold UInt32.size at *
    omega
  simp only [ComponentId.epoch, UInt64.toNat_toUInt32, UInt64.toNat_shiftRight]
  rw [show (32 : UInt64).toNat % 64 = 32 from rfl, hhigh, Nat.mod_eq_of_lt this]

end ComponentId

/-! ## The table -/

/-- One entry of the table. -/
structure ComponentEntry where
  /-- How often the entry was used, modulo the width of the word. -/
  epoch : UInt32 := 0
  live : Bool := false
  /-- The references to members from outside the component. -/
  external : Nat := 0
  members : List Ref := []
  deriving Repr

/-- Use an entry for a new component, at its next epoch. -/
def ComponentEntry.renew (e : ComponentEntry) (members : List Ref) (external : Nat) :
    ComponentEntry :=
  { epoch := e.epoch + 1, live := true, external, members }

/-- The table of components. -/
structure ComponentRegistry where
  /-- How many components may be live at once. -/
  capacity : Nat
  entries : Array ComponentEntry := #[]
  /-- The entries without a live component; the first is used next. -/
  free : List Nat := []
  /-- How many components are live. -/
  liveCount : Nat := 0
  deriving Repr

namespace ComponentRegistry

/-- The entry of a live component. -/
def entry? (t : ComponentRegistry) (id : ComponentId) : Option ComponentEntry :=
  (id.index?.bind (t.entries[·]?)).filter fun e => e.live && e.epoch == id.epoch

/-- Whether an id names a live component. -/
def isLive (t : ComponentRegistry) (id : ComponentId) : Bool :=
  (t.entry? id).isSome

/-- The shared count of a live component. -/
def external? (t : ComponentRegistry) (id : ComponentId) : Option Nat :=
  (t.entry? id).map (·.external)

/-- The members of a live component, in the order in which they were registered. -/
def members? (t : ComponentRegistry) (id : ComponentId) : Option (List Ref) :=
  (t.entry? id).map (·.members)

/-- How many entries have a live component. -/
def liveEntries (t : ComponentRegistry) : Nat :=
  t.entries.countP (·.live)

/-- Change the entry of a live component; an id that names none changes nothing. -/
def update (t : ComponentRegistry) (id : ComponentId) (f : ComponentEntry → ComponentEntry) :
    ComponentRegistry :=
  if t.isLive id then { t with entries := t.entries.modify (id.index?.getD 0) f } else t

/-- One more reference to a component. -/
def raise (t : ComponentRegistry) (id : ComponentId) : ComponentRegistry :=
  t.update id fun e => { e with external := e.external + 1 }

/-- One reference to a component less; a count of zero stays. -/
def lower (t : ComponentRegistry) (id : ComponentId) : ComponentRegistry :=
  t.update id fun e => { e with external := e.external - 1 }

/-- Enter a component: into the entry that was freed last or, if none is free, into a new one. -/
def register? (t : ComponentRegistry) (members : List Ref) (external : Nat) :
    Option (ComponentRegistry × ComponentId) :=
  match t.free with
  | i :: free =>
    let epoch := (t.entries[i]?.getD {}).epoch + 1
    let entries := t.entries.modify i (·.renew members external)
    some ({ t with entries, free, liveCount := t.liveCount + 1 }, .ofParts i epoch)
  | [] =>
    if t.entries.size < t.capacity then
      let e := ComponentEntry.renew {} members external
      some ({ t with entries := t.entries.push e, liveCount := t.liveCount + 1 },
        .ofParts t.entries.size e.epoch)
    else none

/-- End a component. Its entry is free again, and its id names nothing. -/
def take (t : ComponentRegistry) (id : ComponentId) : ComponentRegistry :=
  if t.isLive id then
    let i := id.index?.getD 0
    { t with
      entries := t.entries.modify i fun e => { e with live := false, members := [] }
      free := i :: t.free
      liveCount := t.liveCount - 1 }
  else t

/-! ## Laws -/

/-- An id is good exactly when its entry is live at the id's epoch. -/
theorem entry?_isSome_iff (t : ComponentRegistry) (id : ComponentId) :
    t.isLive id = true ↔
      ∃ i e, id.index? = some i ∧ t.entries[i]? = some e ∧ e.live = true ∧ e.epoch = id.epoch := by
  simp only [isLive, entry?, Option.isSome_iff_exists, Option.filter_eq_some_iff,
    Option.bind_eq_some_iff, Bool.and_eq_true, beq_iff_eq]
  constructor
  · rintro ⟨e, ⟨i, hi, he⟩, hl, hep⟩
    exact ⟨i, e, hi, he, hl, hep⟩
  · rintro ⟨i, e, hi, he, hl, hep⟩
    exact ⟨e, ⟨i, hi, he⟩, hl, hep⟩

/-- Registering fails exactly when no entry is free and the table has reached its capacity. -/
theorem register?_eq_none_iff (t : ComponentRegistry) (members : List Ref) (external : Nat) :
    t.register? members external = none ↔ t.free = [] ∧ t.capacity ≤ t.entries.size := by
  unfold register?
  cases t.free with
  | cons i free => simp
  | nil =>
    by_cases h : t.entries.size < t.capacity
    · simp [h]
    · simp only [h, ↓reduceIte, true_and, true_iff]
      omega

/-- A change of the counts of a component leaves as many entries live. -/
theorem liveEntries_update (t : ComponentRegistry) (id : ComponentId)
    {f : ComponentEntry → ComponentEntry} (hf : ∀ e, (f e).live = e.live) :
    (t.update id f).liveEntries = t.liveEntries := by
  unfold update
  split
  · rename_i h
    obtain ⟨i, e, hi, he, hl, -⟩ := (t.entry?_isSome_iff id).1 h
    obtain ⟨hlt, rfl⟩ := Array.getElem?_eq_some_iff.1 he
    have hpos : 0 < t.entries.countP (·.live) :=
      Array.countP_pos_iff.2 ⟨t.entries[i], Array.getElem_mem hlt, hl⟩
    simp only [hi, Option.getD_some, liveEntries, Array.modify, Array.modifyM, hlt, ↓reduceDIte]
    simp [Array.countP_set, hl, hf]
    omega
  · rfl

/-- Taking a live component leaves one live entry less. -/
theorem liveEntries_take {t : ComponentRegistry} {id : ComponentId} (h : t.isLive id = true) :
    (t.take id).liveEntries + 1 = t.liveEntries := by
  obtain ⟨i, e, hi, he, hl, -⟩ := (t.entry?_isSome_iff id).1 h
  obtain ⟨hlt, rfl⟩ := Array.getElem?_eq_some_iff.1 he
  have hpos : 0 < t.entries.countP (·.live) :=
    Array.countP_pos_iff.2 ⟨t.entries[i], Array.getElem_mem hlt, hl⟩
  simp only [take, h, ↓reduceIte, hi, Option.getD_some, liveEntries, Array.modify, Array.modifyM,
    hlt, ↓reduceDIte]
  simp [Array.countP_set, hl]
  omega

end ComponentRegistry

end Reclamation
