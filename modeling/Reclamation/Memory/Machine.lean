import Reclamation.Memory.Handle
import Reclamation.Memory.Ref

/-!
# The machine

Which requests for memory are granted, and at what addresses the cells begin, is up to the system. A
`Machine` is what it does about both. It is known that two cells never begin at one address, and that
the cells of one request lie one after the other; that the slots it grants have addresses that fit a
handle is the condition `Machine.Low`.

`Machine.flat` is a machine of 32 GiB in which all cells lie one after the other.
-/

set_option autoImplicit false

namespace Reclamation

/-- What the system does about requests for memory. -/
structure Machine where
  /-- Whether a request for so many bytes is granted when the given cell is the first unused one. -/
  grants : Ref → Nat → Bool
  /-- The address at which a cell begins. -/
  address : Ref → Nat
  /-- The cell that begins at an address. -/
  cell? : Nat → Option Ref
  /-- Two cells never begin at one address. -/
  cell?_eq_some : ∀ {a : Nat} {r : Ref}, cell? a = some r ↔ a = address r
  /-- The cells that one request is granted lie one after the other. -/
  address_add : ∀ {r : Ref} {n k : Nat}, grants r (n * Ref.cellSize) = true → k < n →
    address (r + k) = address r + k * Ref.cellSize

namespace Machine

/-- The slots that the system grants have addresses that fit a handle. -/
def Low (s : Machine) : Prop :=
  ∀ r n k, s.grants r (n * Ref.cellSize) = true → k < n → s.address (r + k) < Handle.addressLimit

@[simp] theorem cell?_address (s : Machine) (r : Ref) : s.cell? (s.address r) = some r :=
  s.cell?_eq_some.2 rfl

/-! ## Cells in a row -/

/-- The memory of the flat machine in bytes. A request for as many is not granted. -/
def systemMemory : Nat := 0x800000000

/-- The machine in which all cells lie one after the other. -/
def flat : Machine where
  grants r bytes := bytes < systemMemory && r.address + bytes ≤ Handle.addressLimit
  address := Ref.address
  cell? := Ref.ofAddress?
  cell?_eq_some := ⟨Ref.eq_address_of_ofAddress?, fun h => h ▸ Ref.ofAddress?_address _⟩
  address_add _ _ := by
    rw [Ref.address, Ref.address, Nat.add_mul, Nat.add_assoc]

theorem flat_low : flat.Low := by
  intro r n k hgrant hk
  have hfits : r.address + n * Ref.cellSize ≤ Handle.addressLimit :=
    of_decide_eq_true (Bool.and_eq_true_iff.1 hgrant).2
  rw [flat.address_add hgrant hk]
  show r.address + k * Ref.cellSize < Handle.addressLimit
  have hlt : k * Ref.cellSize < n * Ref.cellSize := Nat.mul_lt_mul_of_pos_right hk (by decide)
  omega

end Machine

end Reclamation
