/-!
# Bump allocation

Space is taken from the end of the last of a list of chunks, at the next offset that is aligned. If
it does not fit there, a new chunk is opened, of the ordinary size or as large as the request needs.
Nothing is given back before all chunks are.
-/

set_option autoImplicit false

namespace Reclamation

/-- A stretch of bytes of which the first `used` are taken. -/
structure BumpChunk where
  capacity : Nat
  used : Nat := 0
  deriving DecidableEq, Repr

/-- The least multiple of `align` that is not below `n`. -/
def alignUp (n align : Nat) : Nat :=
  (n + align - 1) / align * align

namespace BumpChunk

/-- Take `size` bytes at an aligned offset, if they fit: the chunk after and the offset. -/
def place? (c : BumpChunk) (size align : Nat) : Option (BumpChunk × Nat) :=
  let offset := alignUp c.used align
  if offset + size ≤ c.capacity then some ({ c with used := offset + size }, offset) else none

end BumpChunk

/-- The chunks from which space is taken, the last one first. -/
structure BumpStore where
  /-- The size of an ordinary chunk, at least one byte. -/
  chunkSize : Nat
  maxChunks : Nat
  chunks : List BumpChunk := []
  deriving DecidableEq, Repr

namespace BumpStore

/-- The largest chunk that can be asked for. -/
def maxChunkSize : Nat := 0x7ffffffffffffff0

/-- The size of a chunk opened for a request. -/
def sizeFor (b : BumpStore) (size align : Nat) : Nat :=
  max b.chunkSize (size + align)

/-- Open a chunk for a request. -/
def open? (b : BumpStore) (size align : Nat) : Option (BumpStore × Nat) :=
  let capacity := b.sizeFor size align
  if b.chunks.length < b.maxChunks ∧ capacity ≤ maxChunkSize then
    (BumpChunk.place? { capacity } size align).map fun (c, offset) =>
      ({ b with chunks := c :: b.chunks }, offset)
  else none

/-- Take space: the store after and the offset in its last chunk. -/
def place? (b : BumpStore) (size align : Nat) : Option (BumpStore × Nat) :=
  match b.chunks with
  | [] => b.open? size align
  | c :: chunks =>
    match c.place? size align with
    | some (c, offset) => some ({ b with chunks := c :: chunks }, offset)
    | none => b.open? size align

/-- The size of the chunk by which a store that was asked for space is ahead of what it was before. -/
def opened? (before after : BumpStore) : Option Nat :=
  if before.chunks.length < after.chunks.length then after.chunks.head?.map (·.capacity) else none

end BumpStore

/-! ## Laws -/

theorem le_alignUp (n : Nat) {align : Nat} (h : 0 < align) : n ≤ alignUp n align := by
  unfold alignUp
  have hlt := Nat.lt_div_mul_add (a := n + align - 1) h
  omega

theorem dvd_alignUp (n align : Nat) : align ∣ alignUp n align :=
  Nat.dvd_mul_left ..

theorem alignUp_zero (align : Nat) : alignUp 0 align = 0 := by
  unfold alignUp
  cases align with
  | zero => rfl
  | succ a => simp [Nat.div_eq_of_lt]

/-- The bytes that a request gets lie behind those taken before, aligned and within the chunk. -/
theorem BumpChunk.place?_eq_some {c d : BumpChunk} {size align offset : Nat} (ha : 0 < align)
    (h : c.place? size align = some (d, offset)) :
    c.used ≤ offset ∧ align ∣ offset ∧ d.used = offset + size ∧ d.used ≤ d.capacity ∧
      d.capacity = c.capacity := by
  simp only [place?, Option.ite_none_right_eq_some, Option.some.injEq, Prod.mk.injEq] at h
  obtain ⟨hfit, rfl, rfl⟩ := h
  exact ⟨le_alignUp _ ha, dvd_alignUp _ _, rfl, hfit, rfl⟩

/-- A chunk that is opened for a request holds it. -/
theorem BumpStore.open?_eq_none_iff (b : BumpStore) (size align : Nat) :
    b.open? size align = none ↔
      b.maxChunks ≤ b.chunks.length ∨ maxChunkSize < b.sizeFor size align := by
  have hfit : size ≤ b.sizeFor size align := by
    unfold sizeFor
    omega
  by_cases h : b.chunks.length < b.maxChunks ∧ b.sizeFor size align ≤ maxChunkSize
  · simp only [open?, h, and_self, ↓reduceIte, BumpChunk.place?, alignUp_zero, Nat.zero_add, hfit,
      Option.map_some, reduceCtorEq, false_iff]
    omega
  · simp only [open?, h, ↓reduceIte, true_iff]
    omega

end Reclamation
