/-!
# Numerals

Reading and writing of unsigned numbers. A numeral is one or more digits, with at most one plus
sign in front; nothing else is tolerated, no blank and no grouping. A numeral beyond its limit is
refused and not cut down.
-/

set_option autoImplicit false

namespace Reclamation.Text

/-! ## Reading -/

/-- The value of a digit or letter as a digit of the given base. -/
def digitValue? (base : Nat) (c : Char) : Option Nat :=
  let n := c.toNat
  let value? :=
    if '0' ≤ c ∧ c ≤ '9' then some (n - '0'.toNat)
    else if 'a' ≤ c ∧ c ≤ 'z' then some (n - 'a'.toNat + 10)
    else if 'A' ≤ c ∧ c ≤ 'Z' then some (n - 'A'.toNat + 10)
    else none
  value?.filter (· < base)

/-- The number that digits spell, after a number `acc` spelt so far. -/
def digits? (base : Nat) (acc : Nat) : List Char → Option Nat
  | [] => some acc
  | c :: rest => do
    let d ← digitValue? base c
    digits? base (acc * base + d) rest

/-- A text without the plus sign it may start with. -/
def withoutPlus : List Char → List Char
  | '+' :: rest => rest
  | text => text

/-- A numeral below `limit`: digits, at least one, after at most one plus sign. -/
def unsigned? (base limit : Nat) (text : List Char) : Option Nat :=
  if (withoutPlus text).isEmpty then none
  else (digits? base 0 (withoutPlus text)).filter (· < limit)

/-- A decimal numeral of 64 bits. -/
def word? (text : List Char) : Option Nat :=
  unsigned? 10 UInt64.size text

/-- A numeral of 64 bits, hexadecimal after `0x` or `0X` and decimal otherwise. -/
def wordAnyBase? (text : List Char) : Option Nat :=
  match text with
  | '0' :: 'x' :: rest => unsigned? 16 UInt64.size rest
  | '0' :: 'X' :: rest => unsigned? 16 UInt64.size rest
  | _ => word? text

theorem unsigned?_lt {base limit n : Nat} {text : List Char}
    (h : unsigned? base limit text = some n) : n < limit := by
  unfold unsigned? at h
  split at h
  · simp at h
  · simpa using (Option.filter_eq_some_iff.1 h).2

/-! ## Writing -/

/-- The hexadecimal digits of a number, small letters, without a leading zero. -/
def hex (n : Nat) : String :=
  String.ofList (Nat.toDigits 16 n)

/-- The hexadecimal digits of a number, filled up with zeros in front to the given width. -/
def hexPadded (width n : Nat) : String :=
  let digits := Nat.toDigits 16 n
  String.ofList (List.replicate (width - digits.length) '0' ++ digits)

end Reclamation.Text
