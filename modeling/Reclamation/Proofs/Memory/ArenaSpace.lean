import Mathlib
import Reclamation.Memory.Region

/-!
# The space of an arena

Each object of an arena has bytes of its own in one of the chunks (`Extent`). A request is met from what is left of
the chunk opened last, or from a chunk that is opened for it and is as large as it needs (`BumpStore.place?_cases`), so
whatever was taken before stays where it is and the bytes taken last lie behind it (`BumpStore.Packed.place`).

A request fails only where it does not fit and no chunk can be opened for it: there are as many as there may be, or it
would be larger than any that can be asked for (`objects_packed`).
-/

set_option autoImplicit false

namespace Reclamation

/-! ## Bytes -/

/-- The bytes that an object takes. -/
structure Extent where
  /-- The chunk in which they lie, counted from the one that was opened first. -/
  chunk : Nat
  /-- How far from the beginning of the chunk the first one is. -/
  offset : Nat
  size : Nat
  deriving DecidableEq, Repr

namespace Extent

/-- How far from the beginning of the chunk the bytes end. -/
def limit (e : Extent) : Nat :=
  e.offset + e.size

/-- No byte is in both. -/
def Apart (e f : Extent) : Prop :=
  e.chunk = f.chunk → e.limit ≤ f.offset ∨ f.limit ≤ e.offset

end Extent

/-- The boundary on which chunks begin. -/
def chunkAlignment : Nat := 16

namespace BumpStore

variable {b b' : BumpStore} {c : BumpChunk} {size align offset i : Nat} {extents : List Extent}

/-! ## Chunks in the order in which they were opened -/

/-- A chunk, counted from the one that was opened first. -/
def chunk? (b : BumpStore) (i : Nat) : Option BumpChunk :=
  b.chunks.reverse[i]?

theorem chunk?_of_cons {rest : List BumpChunk} (h : b.chunks = c :: rest) (i : Nat) :
    b.chunk? i = if i = rest.length then some c else rest.reverse[i]? := by
  rw [chunk?, h, List.reverse_cons]
  split
  · next hi =>
    rw [List.getElem?_append_right (by simp [hi])]
    simp [hi]
  · next hi =>
    rcases Nat.lt_or_gt_of_ne hi with hlt | hgt
    · rw [List.getElem?_append_left (by simpa using hlt)]
    · rw [List.getElem?_eq_none (by simpa using hgt), List.getElem?_eq_none (by simpa using hgt.le)]

theorem lt_of_chunk? (h : b.chunk? i = some c) : i < b.chunks.length := by
  obtain ⟨hlt, -⟩ := List.getElem?_eq_some_iff.1 h
  simpa using hlt

theorem mem_of_chunk? (h : b.chunk? i = some c) : c ∈ b.chunks :=
  List.mem_reverse.1 (List.mem_of_getElem? h)

/-! ## Requests -/

/-- Whether a request fits in what is left of the chunk opened last. -/
def fits (b : BumpStore) (size align : Nat) : Bool :=
  b.chunks.head?.any fun c => alignUp c.used align + size ≤ c.capacity

/-- The bytes that a request gets. -/
def extent? (b : BumpStore) (size align : Nat) : Option Extent :=
  (b.place? size align).map fun (b', offset) => { chunk := b'.chunks.length - 1, offset, size }

/-- A chunk for a request is opened where there may be one more that is as large. -/
theorem open?_eq_some (h : b.open? size align = some (b', offset)) :
    b.chunks.length < b.maxChunks ∧ b.sizeFor size align ≤ maxChunkSize ∧ offset = 0 ∧
      b' = { b with chunks := { capacity := b.sizeFor size align, used := size } :: b.chunks } := by
  unfold open? at h
  dsimp only at h
  split at h
  · next hroom =>
    obtain ⟨⟨c, _⟩, hplace, he⟩ := Option.map_eq_some_iff.1 h
    simp only [BumpChunk.place?, alignUp_zero, Nat.zero_add, Option.ite_none_right_eq_some, Option.some.injEq,
      Prod.mk.injEq] at hplace he
    obtain ⟨-, rfl, rfl⟩ := hplace
    exact ⟨hroom.1, hroom.2, he.2.symm, he.1.symm⟩
  · exact absurd h (by simp)

/-- A request that fits in what is left of the chunk opened last is met from there. -/
theorem place?_of_fits (h : b.fits size align = true) : ∃ c rest d offset, b.chunks = c :: rest ∧
    c.place? size align = some (d, offset) ∧ b.place? size align = some ({ b with chunks := d :: rest }, offset) := by
  obtain ⟨c, hc, hfit⟩ := (Option.any_eq_true _ _).1 h
  obtain ⟨rest, hchunks⟩ := List.head?_eq_some_iff.1 hc
  have hplace : c.place? size align = some _ := if_pos (of_decide_eq_true hfit)
  refine ⟨c, rest, _, _, hchunks, hplace, ?_⟩
  simp only [place?, hchunks, hplace]

/-- For any other request a chunk is opened. -/
theorem place?_of_not_fits (h : b.fits size align = false) : b.place? size align = b.open? size align := by
  unfold place?
  split
  · rfl
  · next c rest hchunks =>
    have hfit : ¬ alignUp c.used align + size ≤ c.capacity := by simpa [fits, hchunks] using h
    have hplace : c.place? size align = none := if_neg hfit
    rw [hplace]

/-- The two ways in which a request is met. -/
theorem place?_cases (h : b.place? size align = some (b', offset)) :
    (b.fits size align = true ∧ ∃ c rest d, b.chunks = c :: rest ∧ c.place? size align = some (d, offset) ∧
      b' = { b with chunks := d :: rest }) ∨
    (b.fits size align = false ∧ b.chunks.length < b.maxChunks ∧ offset = 0 ∧
      b' = { b with chunks := { capacity := b.sizeFor size align, used := size } :: b.chunks }) := by
  cases hfits : b.fits size align with
  | true =>
    obtain ⟨c, rest, d, offset', hchunks, hchunk, hplace⟩ := place?_of_fits hfits
    obtain ⟨rfl, rfl⟩ := Prod.mk.inj (Option.some.inj (h.symm.trans hplace))
    exact .inl ⟨rfl, c, rest, d, hchunks, hchunk, rfl⟩
  | false =>
    obtain ⟨hroom, -, hoffset, hb'⟩ := open?_eq_some ((place?_of_not_fits hfits).symm.trans h)
    exact .inr ⟨rfl, hroom, hoffset, hb'⟩

/-- A chunk is opened exactly for the requests that do not fit. -/
theorem opened?_of_place? (h : b.place? size align = some (b', offset)) :
    b.opened? b' = if b.fits size align then none else some (b.sizeFor size align) := by
  obtain ⟨hfits, c, rest, d, hchunks, -, rfl⟩ | ⟨hfits, -, -, rfl⟩ := place?_cases h
  · simp [opened?, hfits, hchunks]
  · simp [opened?, hfits]

/-- A request fails if it does not fit and no chunk can be opened for it. -/
theorem place?_eq_none_iff : b.place? size align = none ↔
    b.fits size align = false ∧ (b.maxChunks ≤ b.chunks.length ∨ maxChunkSize < b.sizeFor size align) := by
  rw [← open?_eq_none_iff]
  cases hfits : b.fits size align with
  | true =>
    obtain ⟨c, rest, d, offset, -, -, hplace⟩ := place?_of_fits hfits
    simp [hplace]
  | false => simp [place?_of_not_fits hfits]

/-! ## What lies in the chunks -/

/-- There are no more chunks than there may be, and the bytes that were given out lie in them, on boundaries and
apart. -/
structure Packed (align : Nat) (b : BumpStore) (extents : List Extent) : Prop where
  count : b.chunks.length ≤ b.maxChunks
  used : ∀ c ∈ b.chunks, c.used ≤ c.capacity
  /-- A chunk was opened for the bytes with which it begins. -/
  opened : ∀ i c, b.chunk? i = some c → ∃ e ∈ extents, e.chunk = i ∧ e.offset = 0 ∧ c.capacity = b.sizeFor e.size align
  within : ∀ e ∈ extents, ∃ c, b.chunk? e.chunk = some c ∧ e.limit ≤ c.used
  aligned : ∀ e ∈ extents, align ∣ e.offset
  apart : extents.Pairwise Extent.Apart

namespace Packed

theorem empty (align chunkSize maxChunks : Nat) : Packed align { chunkSize, maxChunks } [] where
  count := Nat.zero_le _
  used _ hc := absurd hc List.not_mem_nil
  opened _ _ hc := absurd (mem_of_chunk? hc) List.not_mem_nil
  within _ he := absurd he List.not_mem_nil
  aligned _ he := absurd he List.not_mem_nil
  apart := .nil

/-- The bytes that are taken from the chunk opened last lie behind those taken before. -/
theorem bump (h : Packed align b extents) (ha : 0 < align) {rest : List BumpChunk} {d : BumpChunk}
    (hchunks : b.chunks = c :: rest) (hplace : c.place? size align = some (d, offset)) :
    Packed align { b with chunks := d :: rest } ({ chunk := rest.length, offset, size } :: extents) := by
  obtain ⟨hle, haligned, hused, hfit, hcapacity⟩ := BumpChunk.place?_eq_some ha hplace
  have hbefore : ∀ i, b.chunk? i = if i = rest.length then some c else rest.reverse[i]? := chunk?_of_cons hchunks
  have hafter : ∀ i, ({ b with chunks := d :: rest } : BumpStore).chunk? i =
      if i = rest.length then some d else rest.reverse[i]? := chunk?_of_cons rfl
  have hkept : ∀ e ∈ extents, e.chunk = rest.length → e.limit ≤ c.used := by
    intro e he hlast
    obtain ⟨x, hx, hlimit⟩ := h.within e he
    rw [hbefore, if_pos hlast] at hx
    exact Option.some.inj hx ▸ hlimit
  refine ⟨?_, ?_, fun i x hx => ?_, fun e he => ?_, ?_, ?_⟩
  · have hcount := h.count
    rwa [hchunks] at hcount
  · refine List.forall_mem_cons.2 ⟨hfit, fun x hx => h.used x ?_⟩
    exact hchunks ▸ List.mem_cons_of_mem _ hx
  · -- no chunk was opened, and none has another size
    have hold : ∃ y, b.chunk? i = some y ∧ x.capacity = y.capacity := by
      rw [hafter] at hx
      rw [hbefore]
      split at hx
      · next hi => exact ⟨c, if_pos hi, Option.some.inj hx ▸ hcapacity⟩
      · next hi => exact ⟨x, by rw [if_neg hi, hx], rfl⟩
    obtain ⟨y, hy, hsame⟩ := hold
    obtain ⟨e, he, hchunk, hfirst, hsize⟩ := h.opened i y hy
    exact ⟨e, List.mem_cons_of_mem _ he, hchunk, hfirst, hsame.trans hsize⟩
  · rcases List.mem_cons.1 he with rfl | he
    · exact ⟨d, (hafter _).trans (if_pos rfl), hused.ge⟩
    · by_cases hlast : e.chunk = rest.length
      · refine ⟨d, (hafter _).trans (if_pos hlast), (hkept e he hlast).trans ?_⟩
        omega
      · obtain ⟨x, hx, hlimit⟩ := h.within e he
        rw [hbefore, if_neg hlast] at hx
        exact ⟨x, ((hafter _).trans (if_neg hlast)).trans hx, hlimit⟩
  · exact List.forall_mem_cons.2 ⟨haligned, h.aligned⟩
  · refine List.pairwise_cons.2 ⟨fun e he hlast => .inr ?_, h.apart⟩
    exact (hkept e he hlast.symm).trans hle

/-- The bytes for which a chunk is opened lie in a chunk of their own. -/
theorem openChunk (h : Packed align b extents) (hroom : b.chunks.length < b.maxChunks) :
    Packed align { b with chunks := { capacity := b.sizeFor size align, used := size } :: b.chunks }
      ({ chunk := b.chunks.length, offset := 0, size } :: extents) := by
  have hfit : size ≤ b.sizeFor size align := by
    unfold sizeFor
    omega
  have hafter : ∀ i, ({ b with chunks := { capacity := b.sizeFor size align, used := size } :: b.chunks } :
      BumpStore).chunk? i = if i = b.chunks.length then some { capacity := b.sizeFor size align, used := size }
        else b.chunk? i := chunk?_of_cons rfl
  refine ⟨hroom, List.forall_mem_cons.2 ⟨hfit, h.used⟩,
    fun i x hx => ?_, fun e he => ?_, List.forall_mem_cons.2 ⟨Nat.dvd_zero _, h.aligned⟩, ?_⟩
  · rw [hafter] at hx
    split at hx
    · next hi =>
      obtain rfl := Option.some.inj hx
      exact ⟨_, List.mem_cons_self, hi.symm, rfl, rfl⟩
    · obtain ⟨e, he, hopened⟩ := h.opened i x hx
      exact ⟨e, List.mem_cons_of_mem _ he, hopened⟩
  · rcases List.mem_cons.1 he with rfl | he
    · exact ⟨_, (hafter _).trans (if_pos rfl), Nat.zero_add size |>.le⟩
    · obtain ⟨x, hx, hlimit⟩ := h.within e he
      exact ⟨x, ((hafter _).trans (if_neg (lt_of_chunk? hx).ne)).trans hx, hlimit⟩
  · refine List.pairwise_cons.2 ⟨fun e he hlast => ?_, h.apart⟩
    obtain ⟨x, hx, -⟩ := h.within e he
    have hlt := lt_of_chunk? hx
    rw [← hlast] at hlt
    exact absurd hlt (lt_irrefl _)

/-- What is in the chunks after a request that is met. -/
theorem place (h : Packed align b extents) (ha : 0 < align) (hplace : b.place? size align = some (b', offset)) :
    ∃ e, b.extent? size align = some e ∧ Packed align b' (e :: extents) ∧ b'.chunkSize = b.chunkSize ∧
      b'.maxChunks = b.maxChunks := by
  have hextent : b.extent? size align = some { chunk := b'.chunks.length - 1, offset, size } := by
    rw [extent?, hplace, Option.map_some]
  obtain ⟨-, c, rest, d, hchunks, hchunk, rfl⟩ | ⟨-, hroom, rfl, rfl⟩ := place?_cases hplace
  · exact ⟨_, hextent, h.bump ha hchunks hchunk, rfl, rfl⟩
  · exact ⟨_, hextent, h.openChunk hroom, rfl, rfl⟩

end Packed

end BumpStore

/-! ## Arenas -/

namespace Memory

variable {m m' : Memory} {id : ArenaId} {a : Arena}

/-- The bytes that an object with so many fields gets in an arena. -/
def extent? (m : Memory) (id : ArenaId) (fieldCount : Nat) : Option Extent :=
  m.arenas[id]?.bind fun a => a.store.extent? (Arena.objectSize fieldCount) Arena.alignment

/-- What comes of an allocation in an arena that is not destroyed depends on its store. -/
theorem allocateFields_eq (ha : m.arenas[id]? = some a) (hopen : a.destroyed = false) (tag : TypeTag)
    (weak : List Bool) : m.allocateFields id tag weak =
      match a.store.place? (Arena.objectSize weak.length) Arena.alignment with
      | none => .refused m (.arenaExhausted a.store.maxChunks)
      | some (store, _) =>
        if (a.store.opened? store).any (!m.machine.grants m.cells.size ·) then .outOfMemory
        else .done ((m.place { tag, payload := .ofFlags weak, origin := .arena id }).1.setArena id
          { a with store, objects := m.cells.size :: a.objects }) m.cells.size := by
  unfold allocateFields Arena.reserve
  rw [ha]
  dsimp only
  rw [if_neg (by simp [hopen])]
  cases a.store.place? (Arena.objectSize weak.length) Arena.alignment <;> rfl

end Memory

/-- One of the arenas of a program, from when it is started until it is destroyed: its objects and the bytes that each
was given, the latest first. Whatever else the program does, it leaves these alone. -/
inductive Fills (limits : ArenaLimits) (id : ArenaId) : Memory → List (Ref × Extent) → Prop
  | started {m : Memory} : m.config.arena = limits → m.arenas.size = id → Fills limits id m.newArena.1 []
  | allocated {m m' : Memory} {placed : List (Ref × Extent)} {tag : TypeTag} {weak : List Bool} {r : Ref} :
      Fills limits id m placed → m.allocateFields id tag weak = .done m' r →
        Fills limits id m' ((m.extent? id weak.length).toList.map (r, ·) ++ placed)
  | refused {m m' : Memory} {placed : List (Ref × Extent)} {tag : TypeTag} {weak : List Bool} {fault : Fault} :
      Fills limits id m placed → m.allocateFields id tag weak = .refused m' fault → Fills limits id m' placed
  | beside {m m' : Memory} {placed : List (Ref × Extent)} {a a' : Arena} :
      Fills limits id m placed → m.arenas[id]? = some a → m'.arenas[id]? = some a' → a'.store = a.store →
        a'.objects = a.objects → a'.destroyed = a.destroyed → Fills limits id m' placed

namespace Fills

variable {limits : ArenaLimits} {id : ArenaId} {m m' : Memory} {placed : List (Ref × Extent)} {a : Arena}

/-- The objects of an arena and the bytes they were given agree with its store. -/
structure Agrees (limits : ArenaLimits) (a : Arena) (placed : List (Ref × Extent)) : Prop where
  isOpen : a.destroyed = false
  chunkSize : a.store.chunkSize = max limits.chunkSize 1
  maxChunks : a.store.maxChunks = limits.maxChunks
  objects : a.objects = placed.map (·.1)
  packed : a.store.Packed Arena.alignment (placed.map (·.2))

/-- A chunk for an object is as large as the limits ask for, or as the object needs. -/
theorem Agrees.sizeFor (h : Agrees limits a placed) (size : Nat) :
    a.store.sizeFor size Arena.alignment = max limits.chunkSize (size + Arena.alignment) := by
  rw [BumpStore.sizeFor, h.chunkSize, Arena.alignment]
  omega

/-- An allocation that is carried out gives an object bytes behind those of the others. -/
theorem Agrees.allocated (h : Agrees limits a placed) (ha : m.arenas[id]? = some a) {tag : TypeTag} {weak : List Bool}
    {r : Ref} (hout : m.allocateFields id tag weak = .done m' r) :
    ∃ a', m'.arenas[id]? = some a' ∧
      Agrees limits a' ((m.extent? id weak.length).toList.map (r, ·) ++ placed) := by
  rw [Memory.allocateFields_eq ha h.isOpen] at hout
  split at hout
  · exact absurd hout (by simp)
  · next store offset hplace =>
    split at hout
    · exact absurd hout (by simp)
    · obtain ⟨rfl, rfl⟩ := Outcome.done.inj hout
      obtain ⟨e, he, hpacked, hsize, hmost⟩ := h.packed.place (by decide) hplace
      obtain ⟨hlt, -⟩ := Array.getElem?_eq_some_iff.1 ha
      have hextent : m.extent? id weak.length = some e := by rw [Memory.extent?, ha, Option.bind_some, he]
      rw [hextent]
      exact ⟨_, Array.getElem?_setIfInBounds_self_of_lt hlt, h.isOpen, hsize.trans h.chunkSize,
        hmost.trans h.maxChunks, congrArg _ h.objects, hpacked⟩

/-- An allocation that is refused leaves memory as it is. -/
theorem Agrees.eq_of_refused (h : Agrees limits a placed) (ha : m.arenas[id]? = some a) {tag : TypeTag}
    {weak : List Bool} {fault : Fault} (hout : m.allocateFields id tag weak = .refused m' fault) :
    m' = m ∧ fault = .arenaExhausted limits.maxChunks := by
  rw [Memory.allocateFields_eq ha h.isOpen] at hout
  split at hout
  · obtain ⟨rfl, rfl⟩ := Outcome.refused.inj hout
    exact ⟨rfl, by rw [h.maxChunks]⟩
  · split at hout
    · exact absurd hout (by simp)
    · exact absurd hout (by simp)

/-- There is no space for an object if it does not fit and no chunk can be opened for it. -/
theorem Agrees.place?_eq_none_iff (h : Agrees limits a placed) (size : Nat) :
    a.store.place? size Arena.alignment = none ↔ a.store.fits size Arena.alignment = false ∧
      (a.chunkCount = limits.maxChunks ∨ BumpStore.maxChunkSize < max limits.chunkSize (size + Arena.alignment)) := by
  have hcount := h.packed.count
  rw [h.maxChunks] at hcount
  rw [BumpStore.place?_eq_none_iff, h.sizeFor, h.maxChunks, Arena.chunkCount, hcount.ge_iff_eq]

/-- An allocation is refused if there is no space for the object. -/
theorem Agrees.refused_iff (h : Agrees limits a placed) (ha : m.arenas[id]? = some a) (tag : TypeTag)
    (weak : List Bool) : m.allocateFields id tag weak = .refused m (.arenaExhausted limits.maxChunks) ↔
      a.store.place? (Arena.objectSize weak.length) Arena.alignment = none := by
  rw [Memory.allocateFields_eq ha h.isOpen, h.maxChunks]
  split
  · next hplace => simp [hplace]
  · next hplace => split <;> simp [hplace]

/-- An allocation ends the program if a chunk is opened for the object that the system does not grant. -/
theorem Agrees.outOfMemory_iff (h : Agrees limits a placed) (ha : m.arenas[id]? = some a) (tag : TypeTag)
    (weak : List Bool) : m.allocateFields id tag weak = .outOfMemory ↔
      a.store.place? (Arena.objectSize weak.length) Arena.alignment ≠ none ∧
        a.store.fits (Arena.objectSize weak.length) Arena.alignment = false ∧
        m.machine.grants m.cells.size (max limits.chunkSize (Arena.objectSize weak.length + Arena.alignment)) = false := by
  rw [Memory.allocateFields_eq ha h.isOpen]
  split
  · next hplace => simp [hplace]
  · next store offset hplace =>
    rw [BumpStore.opened?_of_place? hplace, h.sizeFor]
    cases a.store.fits (Arena.objectSize weak.length) Arena.alignment <;> simp [hplace]

/-- An allocation is refused, or ends the program, or is carried out. -/
theorem Agrees.outcome_cases (h : Agrees limits a placed) (ha : m.arenas[id]? = some a) (tag : TypeTag)
    (weak : List Bool) : m.allocateFields id tag weak = .refused m (.arenaExhausted limits.maxChunks) ∨
      m.allocateFields id tag weak = .outOfMemory ∨ ∃ m' r, m.allocateFields id tag weak = .done m' r := by
  rw [Memory.allocateFields_eq ha h.isOpen, h.maxChunks]
  split
  · exact .inl rfl
  · split
    · exact .inr (.inl rfl)
    · exact .inr (.inr ⟨_, _, rfl⟩)

theorem agrees (h : Fills limits id m placed) : ∃ a, m.arenas[id]? = some a ∧ Agrees limits a placed := by
  induction h with
  | @started m hlimits hid =>
    subst hlimits hid
    exact ⟨_, Array.getElem?_push_size, rfl, rfl, rfl, rfl, .empty ..⟩
  | allocated _ hout ih =>
    obtain ⟨a, ha, hagrees⟩ := ih
    exact hagrees.allocated ha hout
  | refused _ hout ih =>
    obtain ⟨a, ha, hagrees⟩ := ih
    obtain ⟨rfl, -⟩ := hagrees.eq_of_refused ha hout
    exact ⟨a, ha, hagrees⟩
  | @beside m m' placed b b' _ hb hb' hstore hobjects hdestroyed ih =>
    obtain ⟨a, ha, hagrees⟩ := ih
    obtain rfl := Option.some.inj (ha.symm.trans hb)
    exact ⟨b', hb', hdestroyed.trans hagrees.isOpen, hstore ▸ hagrees.chunkSize, hstore ▸ hagrees.maxChunks,
      hobjects.trans hagrees.objects, hstore ▸ hagrees.packed⟩

end Fills

/-- The space of an arena that a program fills, with whatever limits and with objects of whatever sizes, until it is
destroyed.

Its objects lie on boundaries in its chunks, each in bytes of its own. There are at most as many chunks as there may be,
each as large as the limits ask for, or as the object for which it was opened needs if that is more.

An allocation in it is carried out, or ends the program, or is refused and leaves memory as it is. It is refused exactly
if the object does not fit in what is left of the chunk opened last and no chunk can be opened for it: because there are
as many as there may be, or because it would be larger than any that can be asked for. The program ends exactly if the
machine does not grant the chunk that is opened. -/
theorem objects_packed {limits : ArenaLimits} {id : ArenaId} {m : Memory} {placed : List (Ref × Extent)}
    (h : Fills limits id m placed) :
    ∃ a, m.arenas[id]? = some a ∧ a.objects = placed.map (·.1) ∧ a.chunkCount ≤ limits.maxChunks ∧
      (∀ p ∈ placed, ∃ c, a.store.chunk? p.2.chunk = some c ∧ p.2.limit ≤ c.capacity ∧
        ∀ base, chunkAlignment ∣ base → Arena.alignment ∣ base + p.2.offset) ∧
      (placed.map (·.2)).Pairwise Extent.Apart ∧
      (∀ i c, a.store.chunk? i = some c → ∃ p ∈ placed, p.2.chunk = i ∧ p.2.offset = 0 ∧
        c.capacity = max limits.chunkSize (p.2.size + Arena.alignment)) ∧
      ∀ tag weak,
        let size := Arena.objectSize weak.length
        let chunk := max limits.chunkSize (size + Arena.alignment)
        (m.allocateFields id tag weak = .refused m (.arenaExhausted limits.maxChunks) ↔
          a.store.fits size Arena.alignment = false ∧
            (a.chunkCount = limits.maxChunks ∨ BumpStore.maxChunkSize < chunk)) ∧
        (m.allocateFields id tag weak = .outOfMemory ↔ a.store.fits size Arena.alignment = false ∧
          a.chunkCount < limits.maxChunks ∧ m.machine.grants m.cells.size chunk = false ∧
            chunk ≤ BumpStore.maxChunkSize) ∧
        (m.allocateFields id tag weak = .refused m (.arenaExhausted limits.maxChunks) ∨
          m.allocateFields id tag weak = .outOfMemory ∨ ∃ m' r, m.allocateFields id tag weak = .done m' r) := by
  obtain ⟨a, ha, hagrees⟩ := h.agrees
  have hpacked := hagrees.packed
  refine ⟨a, ha, hagrees.objects, ?_, fun p hp => ?_, hpacked.apart, fun i c hc => ?_, fun tag weak => ?_⟩
  · rw [← hagrees.maxChunks]
    exact hpacked.count
  · have hmem : p.2 ∈ placed.map (·.2) := List.mem_map_of_mem hp
    obtain ⟨c, hc, hlimit⟩ := hpacked.within p.2 hmem
    refine ⟨c, hc, hlimit.trans (hpacked.used c (BumpStore.mem_of_chunk? hc)), fun base hbase => ?_⟩
    have halign : Arena.alignment ∣ chunkAlignment := by decide
    exact Nat.dvd_add (halign.trans hbase) (hpacked.aligned p.2 hmem)
  · obtain ⟨e, he, hchunk, hfirst, hcapacity⟩ := hpacked.opened i c hc
    obtain ⟨p, hp, rfl⟩ := List.mem_map.1 he
    exact ⟨p, hp, hchunk, hfirst, hcapacity.trans (hagrees.sizeFor _)⟩
  · have hnone := hagrees.place?_eq_none_iff (Arena.objectSize weak.length)
    refine ⟨(hagrees.refused_iff ha tag weak).trans hnone, ?_, hagrees.outcome_cases ha tag weak⟩
    have hcount : a.chunkCount ≤ limits.maxChunks := hagrees.maxChunks ▸ hpacked.count
    rw [hagrees.outOfMemory_iff ha, ne_eq, hnone]
    constructor
    · intro hmore
      obtain ⟨hroom, hfits, hsize⟩ := hmore
      rw [not_and, not_or] at hroom
      obtain ⟨hfew, hsmall⟩ := hroom hfits
      exact ⟨hfits, lt_of_le_of_ne hcount hfew, hsize, not_lt.1 hsmall⟩
    · intro hmore
      obtain ⟨hfits, hfew, hsize, hsmall⟩ := hmore
      exact ⟨fun hfull => hfull.2.elim hfew.ne hsmall.not_gt, hfits, hsize⟩

/-- In chunks of 100 bytes an object with four fields gets a chunk of its own, behind an object without fields. There
may be two chunks, so a third object that does not fit behind the second is refused. -/
theorem objects_packed_oversized : ∃ m, Fills ⟨100, 2⟩ 0 m [(1, ⟨1, 0, 128⟩), (0, ⟨0, 0, 64⟩)] ∧
    m.allocateFields 0 0 [] = .refused m (.arenaExhausted 2) := by
  have hstarted : Fills ⟨100, 2⟩ 0 (Memory.ofConfig { arena := ⟨100, 2⟩ } 0).newArena.1 [] := .started rfl rfl
  have hone := hstarted.allocated (rfl : Memory.allocateFields _ 0 0 [] = .done _ _)
  have htwo := hone.allocated (rfl : Memory.allocateFields _ 0 0 [false, false, false, false] = .done _ _)
  obtain ⟨a, ha, -, -, -, -, -, hout⟩ := objects_packed htwo
  obtain rfl := Option.some.inj ha
  exact ⟨_, htwo, (hout 0 []).1.2 (by decide)⟩

/-- With chunks of 2^63 bytes an arena refuses an object without fields, though it has none of the 4096 chunks that
there may be. -/
theorem refused_without_chunks :
    let m := (Memory.ofConfig { arena := ⟨2 ^ 63, 4096⟩ } 0).newArena.1
    m.arenas[0]?.map (fun a => (a.destroyed, a.chunkCount)) = some (false, 0) ∧ Arena.objectSize 0 < 2 ^ 62 ∧
      m.allocateFields 0 0 [] = .refused m (.arenaExhausted 4096) :=
  ⟨rfl, by decide, rfl⟩

end Reclamation
