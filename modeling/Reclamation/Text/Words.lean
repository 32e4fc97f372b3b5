import Reclamation.Text.Case

/-!
# The words of an identifier

An identifier such as `parentNode`, `parent_node` or `PARENT-NODE` names the words `parent` and
`node`. A word ends at an underscore or hyphen, and before a capital that follows a small letter
or a digit (a hump). A row of capitals therefore stays one word.

Words are given in lowercase, each character on its own.
-/

set_option autoImplicit false

namespace Reclamation.Text

/-- The characters that separate words and belong to none. -/
def isSeparator (c : Char) : Bool :=
  c == '_' || c == '-'

/-- Whether a capital right after this character starts a new word. -/
def endsHump (c : Char) : Bool :=
  isLowercase c || c.isDigit

/-- A word that is complete, unless nothing has been read of it. -/
def finishWord (word : List Char) : List (List Char) :=
  if word.isEmpty then [] else [word]

/-- The words of a text, where `word` has been read of the first one and `hump` says whether a
capital would now start the next. -/
def wordsAfter (word : List Char) (hump : Bool) : List Char → List (List Char)
  | [] => finishWord word
  | c :: rest =>
    if isSeparator c then finishWord word ++ wordsAfter [] false rest
    else if isUppercase c && hump && !word.isEmpty then
      word :: wordsAfter (lower c) (endsHump c) rest
    else wordsAfter (word ++ lower c) (endsHump c) rest

/-- The words of an identifier, in order and in lowercase. -/
def words (name : String) : List String :=
  (wordsAfter [] false name.toList).map String.ofList

/-! ## No word is empty -/

theorem finishWord_ne_nil {word w : List Char} (h : w ∈ finishWord word) : w ≠ [] := by
  unfold finishWord at h
  split at h
  · simp at h
  · rename_i hw
    simp only [List.mem_singleton] at h
    subst h
    simpa using hw

theorem wordsAfter_ne_nil {w : List Char} : ∀ (text word : List Char) (hump : Bool),
    w ∈ wordsAfter word hump text → w ≠ []
  | [], _, _, h => finishWord_ne_nil (by simpa [wordsAfter] using h)
  | c :: rest, word, hump, h => by
    unfold wordsAfter at h
    split at h
    · rcases List.mem_append.1 h with h | h
      · exact finishWord_ne_nil h
      · exact wordsAfter_ne_nil rest _ _ h
    · split at h
      · rename_i hcap
        rcases List.mem_cons.1 h with rfl | h
        · simp only [Bool.and_eq_true, Bool.not_eq_true', List.isEmpty_eq_false_iff] at hcap
          exact hcap.2
        · exact wordsAfter_ne_nil rest _ _ h
      · exact wordsAfter_ne_nil rest _ _ h

end Reclamation.Text
