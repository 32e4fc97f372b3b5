/-!
# References

A reference names the cell of memory that holds an object. Programs outside see the address at which
the cell begins. The simplest way to place cells is one after the other, all of one size, above a fixed
origin (`Ref.address`). The address of a cell then determines the cell (`ofAddress?_address`), and a
number that is not the beginning of a cell names none.
-/

set_option autoImplicit false

namespace Reclamation

/-- The number of a memory cell. -/
abbrev Ref := Nat

namespace Ref

/-- The address of the first cell in a row. -/
def origin : Nat := 0x400000000000

/-- The bytes from one cell to the next. -/
def cellSize : Nat := 72

/-- The address at which a cell begins in a row of cells. -/
def address (r : Ref) : Nat :=
  origin + r * cellSize

/-- The cell of a row that begins at an address. -/
def ofAddress? (address : Nat) : Option Ref :=
  if origin ≤ address ∧ (address - origin) % cellSize = 0 then
    some ((address - origin) / cellSize)
  else none

theorem ofAddress?_address (r : Ref) : ofAddress? r.address = some r := by
  have hdiff : r.address - origin = r * cellSize := Nat.add_sub_cancel_left ..
  have hmod : r * cellSize % cellSize = 0 := Nat.mul_mod_left ..
  rw [ofAddress?, if_pos ⟨Nat.le_add_right .., by rw [hdiff, hmod]⟩, hdiff,
    Nat.mul_div_cancel _ (by decide)]

/-- An address names a cell only if it is the address of that cell. -/
theorem eq_address_of_ofAddress? {a : Nat} {r : Ref} (h : ofAddress? a = some r) :
    a = r.address := by
  unfold ofAddress? at h
  split at h
  · rename_i hc
    have hr := Option.some.inj h
    have := Nat.div_mul_cancel (Nat.dvd_of_mod_eq_zero hc.2)
    rw [address, ← hr, this]
    omega
  · simp at h

end Ref

end Reclamation
