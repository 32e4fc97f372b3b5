import Reclamation.Text.Numeral

/-!
# Handles

A handle is one 64-bit word that names an object of the slot pool: the address of its slot in the
low 48 bits and a tag of 16 bits above. The tag is a function of the address, a secret and the
generation of the slot, so a word made for one occupant of a slot does not fit a later one.

For a fixed slot and secret the tag steps through the residues of `2 ^ 16` by an odd number, one
step per generation (`handleTag_eq_iff`): two generations have one tag only if they agree modulo
`2 ^ 16`.
-/

set_option autoImplicit false

namespace Reclamation

/-! ## Tags -/

/-- A bijective scrambling of 64-bit words. -/
def mix64 (x : UInt64) : UInt64 :=
  let x := (x ^^^ (x >>> 30)) * 0xbf58476d1ce4e5b9
  let x := (x ^^^ (x >>> 27)) * 0x94d049bb133111eb
  x ^^^ (x >>> 31)

/-- The tag's change from one generation to the next; odd, so that it generates all residues. -/
def tagStep : UInt16 := 0x9E37

/-- The part of a tag that is the same for every generation of a slot. -/
def tagBase (address : Nat) (secret : UInt64) : UInt16 :=
  (mix64 (UInt64.ofNat address ^^^ secret) >>> 48).toUInt16

/-- The tag for the slot at an address, at one of its generations. -/
def handleTag (address generation : Nat) (secret : UInt64) : UInt16 :=
  tagBase address secret + UInt16.ofNat generation * tagStep

/-! ## Words -/

/-- A reference to an object of the slot pool, as the word that programs keep. -/
structure Handle where
  word : UInt64
  deriving DecidableEq, Repr

namespace Handle

/-- The addresses that fit the low 48 bits lie below this one. -/
def addressLimit : Nat := 0x1000000000000

/-- The word that is never valid. -/
def null : Handle := ⟨0⟩

/-- The handle with the given parts; the address must fit its bits. -/
def ofParts (tag : UInt16) (address : Nat) : Handle :=
  ⟨tag.toUInt64 <<< 48 ||| UInt64.ofNat address⟩

/-- The address of the slot. -/
def address (h : Handle) : Nat :=
  h.word.toNat % addressLimit

/-- The tag. -/
def tag (h : Handle) : UInt16 :=
  (h.word >>> 48).toUInt16

/-- The text of a handle in reports: both parts in hexadecimal. -/
def text (h : Handle) : String :=
  "Handle(0x" ++ Text.hex h.address ++ ", tag=0x" ++ Text.hexPadded 4 h.tag.toNat ++ ")"

end Handle

/-- The text of an address in reports. -/
def addressText (address : Nat) : String :=
  "ObjPtr(0x" ++ Text.hex address ++ ")"

/-! ## The parts of a word -/

theorem Handle.toNat_ofParts (tag : UInt16) {address : Nat} (h : address < Handle.addressLimit) :
    (Handle.ofParts tag address).word.toNat = tag.toNat * Handle.addressLimit + address := by
  have hb : address < 2 ^ 48 := h
  have hm : address % 2 ^ 64 = address := Nat.mod_eq_of_lt (by omega)
  have ht : tag.toNat <<< 48 % 2 ^ 64 = tag.toNat <<< 48 := by
    apply Nat.mod_eq_of_lt
    rw [Nat.shiftLeft_eq]
    have := tag.toNat_lt
    omega
  simp only [ofParts, UInt64.toNat_or, UInt64.toNat_shiftLeft, UInt16.toNat_toUInt64,
    UInt64.toNat_ofNat', hm]
  rw [show (48 : UInt64).toNat % 64 = 48 from rfl, ht, ← Nat.shiftLeft_add_eq_or_of_lt hb,
    Nat.shiftLeft_eq, addressLimit]

theorem Handle.address_ofParts (tag : UInt16) {address : Nat} (h : address < Handle.addressLimit) :
    (Handle.ofParts tag address).address = address := by
  rw [Handle.address, Handle.toNat_ofParts tag h, Nat.add_comm,
    Nat.add_mul_mod_self_right, Nat.mod_eq_of_lt h]

theorem Handle.tag_ofParts (tag : UInt16) {address : Nat} (h : address < Handle.addressLimit) :
    (Handle.ofParts tag address).tag = tag := by
  apply UInt16.toNat_inj.1
  have hlt := tag.toNat_lt
  have hhigh : (Handle.ofParts tag address).word.toNat >>> 48 = tag.toNat := by
    rw [Handle.toNat_ofParts tag h, Nat.shiftRight_eq_div_pow]
    unfold addressLimit at *
    omega
  simp only [Handle.tag, UInt64.toNat_toUInt16, UInt64.toNat_shiftRight]
  rw [show (48 : UInt64).toNat % 64 = 48 from rfl, hhigh, Nat.mod_eq_of_lt hlt]

/-! ## Tags of one slot -/

theorem tagStep_mul_inverse : tagStep * 0x7787 = 1 := by
  decide

theorem tagStep_mul_cancel {x y : UInt16} (h : x * tagStep = y * tagStep) : x = y := by
  have hx : x * tagStep * 0x7787 = x := by
    rw [UInt16.mul_assoc, tagStep_mul_inverse, UInt16.mul_one]
  have hy : y * tagStep * 0x7787 = y := by
    rw [UInt16.mul_assoc, tagStep_mul_inverse, UInt16.mul_one]
  rw [← hx, h, hy]

/-- Two generations of one slot have the same tag exactly when they agree modulo `2 ^ 16`. -/
theorem handleTag_eq_iff (address g g' : Nat) (secret : UInt64) :
    handleTag address g secret = handleTag address g' secret ↔ g % UInt16.size = g' % UInt16.size := by
  constructor
  · intro h
    have hstep := tagStep_mul_cancel (UInt16.add_right_inj _ |>.1 h)
    have := congrArg UInt16.toNat hstep
    simpa using this
  · intro h
    have : UInt16.ofNat g = UInt16.ofNat g' := by
      apply UInt16.toNat_inj.1
      simpa using h
    rw [handleTag, handleTag, this]

end Reclamation
