import Mathlib
import Reclamation.Program.Place

/-!
# The texts of places

A dereference is printed around all that has been printed before it, a field behind it. So the text of a place begins
with one opening pair for each pointer that is followed, whatever fields lie between them. Then comes the local, and
behind it the steps stand in their order: a field as a point with its number, a dereference as the closing parenthesis
alone (`Place.toList_text`).

A numeral goes on for as long as there are digits, and no other part begins with one. So the parts can be told apart
from left to right, and no two places have the same text (`Place.text_inj`).
-/

set_option autoImplicit false

namespace Reclamation

/-! ## Numerals and letters at the ends of a text -/

namespace Text

theorem isDigit_of_mem_toDigits {n : Nat} {c : Char} (h : c ∈ Nat.toDigits 10 n) : c.isDigit = true :=
  Nat.isDigit_of_mem_toDigits (by decide) (by decide) h

theorem toDigits_inj {m n : Nat} : Nat.toDigits 10 m = Nat.toDigits 10 n ↔ m = n := by
  rw [← Nat.toList_repr, ← Nat.toList_repr, String.toList_inj, Nat.repr_inj]

/-- The digits with which a text begins are those of the numeral, if no digit follows it. -/
theorem takeWhile_toDigits_append {n : Nat} {rest : List Char} (h : ∀ c ∈ rest.head?, c.isDigit = false) :
    (Nat.toDigits 10 n ++ rest).takeWhile Char.isDigit = Nat.toDigits 10 n := by
  rw [List.takeWhile_append_of_pos fun _ => isDigit_of_mem_toDigits]
  cases rest with
  | nil => simp
  | cons c rest => simp [h c rfl]

theorem toDigits_append_inj {m n : Nat} {rest rest' : List Char} (h : ∀ c ∈ rest.head?, c.isDigit = false)
    (h' : ∀ c ∈ rest'.head?, c.isDigit = false) (heq : Nat.toDigits 10 m ++ rest = Nat.toDigits 10 n ++ rest') :
    m = n ∧ rest = rest' := by
  have hdigits : Nat.toDigits 10 m = Nat.toDigits 10 n := by
    rw [← takeWhile_toDigits_append h, heq, takeWhile_toDigits_append h']
  exact ⟨toDigits_inj.1 hdigits, List.append_cancel_left (hdigits ▸ heq)⟩

/-- The letter with which a text ends, if it ends with one. -/
def finalLetter? (text : List Char) : Option Char :=
  text.getLast?.filter Char.isAlpha

theorem finalLetter?_concat (text : List Char) (c : Char) :
    finalLetter? (text ++ [c]) = if c.isAlpha then some c else none := by
  rw [finalLetter?, List.getLast?_concat, Option.filter_some]

theorem isAlpha_of_isDigit {c : Char} (h : c.isDigit = true) : c.isAlpha = false := by
  grind [Char.isDigit, Char.isAlpha, Char.isUpper, Char.isLower]

theorem finalLetter?_append_toDigits (text : List Char) (n : Nat) :
    finalLetter? (text ++ Nat.toDigits 10 n) = none := by
  have hne : Nat.toDigits 10 n ≠ [] := Nat.toDigits_ne_nil
  have hlast := isAlpha_of_isDigit (isDigit_of_mem_toDigits (List.getLast_mem hne))
  rw [← List.dropLast_concat_getLast hne, ← List.append_assoc, finalLetter?_concat, if_neg (by simp [hlast])]

end Text

/-! ## The steps -/

namespace Projection

/-- What a step leaves behind the local. -/
def suffix : Projection → List Char
  | field index => '.' :: Nat.toDigits 10 index
  | deref => [')']

/-- No step begins with a digit, so a numeral in front of it ends there. -/
theorem isDigit_head?_suffixes (steps : List Projection) :
    ∀ c ∈ (steps.flatMap suffix).head?, c.isDigit = false := by
  cases steps with
  | nil => simp
  | cons s steps => cases s <;> simp [suffix]

theorem suffixes_inj : ∀ {steps steps' : List Projection},
    steps.flatMap suffix = steps'.flatMap suffix → steps = steps'
  | [], [], _ => rfl
  | [], s :: _, h | s :: _, [], h => by cases s <;> simp [suffix] at h
  | .deref :: _, .field _ :: _, h | .field _ :: _, .deref :: _, h => by simp [suffix] at h
  | .deref :: steps, .deref :: steps', h => by
    have hrest : steps.flatMap suffix = steps'.flatMap suffix := by simpa [suffix] using h
    rw [suffixes_inj hrest]
  | .field index :: steps, .field index' :: steps', h => by
    have hnumerals : Nat.toDigits 10 index ++ steps.flatMap suffix =
        Nat.toDigits 10 index' ++ steps'.flatMap suffix := by simpa [suffix] using h
    obtain ⟨rfl, hrest⟩ := Text.toDigits_append_inj (isDigit_head?_suffixes steps) (isDigit_head?_suffixes steps')
      hnumerals
    rw [suffixes_inj hrest]

end Projection

/-! ## The whole text -/

namespace Place

/-- The pairs that open dereferences. -/
def openings (n : Nat) : List Char :=
  (List.replicate n ['(', '*']).flatten

/-- Where the local begins, the pairs have ended. -/
theorem openings_append_inj : ∀ {m n : Nat} {rest rest' : List Char},
    openings m ++ '_' :: rest = openings n ++ '_' :: rest' → rest = rest'
  | 0, 0, _, _, h => by simpa [openings] using h
  | 0, _ + 1, _, _, h | _ + 1, 0, _, _, h => by simp [openings, List.replicate_succ] at h
  | m + 1, n + 1, rest, rest', h => by
    have hinner : openings m ++ '_' :: rest = openings n ++ '_' :: rest' := by
      simpa [openings, List.replicate_succ] using h
    exact openings_append_inj hinner

theorem toList_foldl_stepText : ∀ (steps : List Projection) (text : String),
    (steps.foldl stepText text).toList =
      openings (steps.count .deref) ++ (text.toList ++ steps.flatMap Projection.suffix)
  | [], text => by simp [openings]
  | .field index :: steps, text => by
    rw [List.foldl_cons, toList_foldl_stepText steps]
    simp [stepText, Projection.suffix]
  | .deref :: steps, text => by
    rw [List.foldl_cons, toList_foldl_stepText steps]
    -- later steps put their pairs in front of the one that is printed here
    simp [stepText, Projection.suffix, openings, List.replicate_succ']

/-- The pairs stand in front of the local, and what closes them stands behind it among the fields. -/
theorem toList_text (p : Place) :
    p.text.toList = openings (p.projection.count .deref) ++
      '_' :: (Nat.toDigits 10 p.base ++ p.projection.flatMap Projection.suffix) := by
  rw [text, toList_foldl_stepText]
  simp [LocalId.text]

/-- No two places have the same text. -/
theorem text_inj {p q : Place} : p.text = q.text ↔ p = q := by
  refine ⟨fun h => ?_, congrArg text⟩
  have hchars := congrArg String.toList h
  rw [toList_text, toList_text] at hchars
  obtain ⟨hbase, hsteps⟩ := Text.toDigits_append_inj (Projection.isDigit_head?_suffixes _)
    (Projection.isDigit_head?_suffixes _) (openings_append_inj hchars)
  cases p
  cases q
  rw [Place.mk.injEq]
  exact ⟨hbase, Projection.suffixes_inj hsteps⟩

theorem finalLetter?_stepText (text : String) (s : Projection) :
    Text.finalLetter? (stepText text s).toList = none := by
  cases s with
  | field index => simpa [stepText] using Text.finalLetter?_append_toDigits (text.toList ++ ['.']) index
  | deref => simpa [stepText] using Text.finalLetter?_concat ('(' :: '*' :: text.toList) ')'

/-- A place ends with a numeral or with a parenthesis. -/
theorem finalLetter?_text (p : Place) : Text.finalLetter? p.text.toList = none := by
  rw [text]
  obtain hnil | ⟨steps, s, hsteps⟩ := p.projection.eq_nil_or_concat
  · simpa [hnil, LocalId.text] using Text.finalLetter?_append_toDigits ['_'] p.base
  · rw [hsteps, List.concat_eq_append, List.foldl_concat]
    exact finalLetter?_stepText _ s

end Place

end Reclamation
