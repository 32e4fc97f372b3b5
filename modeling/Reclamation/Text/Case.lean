import Reclamation.Text.CaseTable

/-!
# Letter case

Three questions are asked of a character: is it a capital, is it a small letter, and what is its
lowercase form. The answers are those of the Unicode properties in `Reclamation.Text.CaseTable`,
so they hold for every script and not only for ASCII.

There are two ways to lowercase, and they differ on purpose. `lower` looks at one character alone;
`lowercase` reads a whole text, where a capital sigma that ends a word becomes the final form `ς`.
Everywhere else `lowercase` is `lower` on each character (`lowercase_eq_flatMap`).
-/

set_option autoImplicit false

namespace Reclamation.Text

/-- Whether a code point lies in a run. -/
def Run.contains (r : Run) (n : Nat) : Bool :=
  r.first ≤ n && n ≤ r.last && (n - r.first) % r.step == 0

/-- Whether a character lies in one of the runs of a table. -/
def inRuns (table : List Run) (c : Char) : Bool :=
  table.any (·.contains c.toNat)

/-- The property `Uppercase`. -/
def isUppercase (c : Char) : Bool :=
  inRuns uppercaseRuns c

/-- The property `Lowercase`. -/
def isLowercase (c : Char) : Bool :=
  inRuns lowercaseRuns c

/-- The property `Cased`: a capital, a small letter or a titlecase letter. -/
def isCased (c : Char) : Bool :=
  isUppercase c || isLowercase c || inRuns titlecaseRuns c

/-- The property `Case_Ignorable`. -/
def isCaseIgnorable (c : Char) : Bool :=
  inRuns caseIgnorableRuns c

/-- The lowercase form of one character on its own. Only the dotted capital I has a form of two
characters: a small i and the combining dot above. -/
def lower (c : Char) : List Char :=
  if c = 'İ' then ['i', Char.ofNat 0x307]
  else
    match lowerRuns.find? (·.run.contains c.toNat) with
    | some r => [Char.ofNat (c.toNat + r.offset).toNat]
    | none => [c]

/-- Whether the nearest character that is not case ignorable is a cased one. The list is read
away from the place in question: forwards after it, backwards before it. -/
def letterFollows : List Char → Bool
  | [] => false
  | c :: rest => if isCaseIgnorable c then letterFollows rest else isCased c

/-- The lowercase form of a text, of which `before` holds what has been read, nearest first. -/
def lowercaseAfter (before : List Char) : List Char → List Char
  | [] => []
  | c :: rest =>
    let form :=
      if c = 'Σ' then [if letterFollows before && !letterFollows rest then 'ς' else 'σ']
      else lower c
    form ++ lowercaseAfter (c :: before) rest

/-- The lowercase form of a whole text: a capital sigma that ends a word is written `ς`. -/
def lowercase (text : List Char) : List Char :=
  lowercaseAfter [] text

/-- The lowercase form of a whole string. -/
def lowercaseString (s : String) : String :=
  String.ofList (lowercase s.toList)

/-! ## The two ways to lowercase -/

theorem lower_ne_nil (c : Char) : lower c ≠ [] := by
  unfold lower
  split
  · simp
  · split <;> simp

theorem lowercaseAfter_eq_flatMap : ∀ (text before : List Char), 'Σ' ∉ text →
    lowercaseAfter before text = text.flatMap lower
  | [], _, _ => rfl
  | c :: rest, before, h => by
    have hc : c ≠ 'Σ' := fun e => h (by simp [e])
    have hr : 'Σ' ∉ rest := fun e => h (by simp [e])
    simp [lowercaseAfter, hc, lowercaseAfter_eq_flatMap rest _ hr]

/-- Without a capital sigma, a text is lowercased one character at a time. -/
theorem lowercase_eq_flatMap (text : List Char) (h : 'Σ' ∉ text) :
    lowercase text = text.flatMap lower :=
  lowercaseAfter_eq_flatMap text [] h

end Reclamation.Text
