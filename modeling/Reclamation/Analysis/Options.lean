import Reclamation.Text.Case

/-!
# Options of the analyses

What the analyses may assume: the words that mark a field as pointing backward, whether cycles of
the type graph are broken by structure, whether arenas may be used, and how far an argument escapes
into a function about which nothing is known.
-/

set_option autoImplicit false

namespace Reclamation

/-! ## Escape states -/

/-- How far a value may get out of the scope that makes it. -/
inductive EscapeState where
  /-- The value stays in its scope. -/
  | none
  /-- The value is handed to a function that may keep it. -/
  | arg
  /-- The value gets to the caller, to a global, to another thread or into a closure. -/
  | global
  deriving DecidableEq, Repr

namespace EscapeState

/-- The place of a state in the order from staying to escaping. -/
def rank : EscapeState → Nat
  | none => 0
  | arg => 1
  | global => 2

/-- The farther of two states. -/
def join (a b : EscapeState) : EscapeState :=
  if a.rank ≤ b.rank then b else a

theorem rank_join (a b : EscapeState) : (a.join b).rank = max a.rank b.rank := by
  cases a <;> cases b <;> rfl

theorem rank_injective {a b : EscapeState} (h : a.rank = b.rank) : a = b := by
  cases a <;> cases b <;> simp_all [rank]

end EscapeState

/-! ## Options -/

/-- The words that mark a field as pointing backward, unless others are given. -/
def defaultBackEdgeWords : List String :=
  ["parent", "prev", "previous", "owner", "enclosing", "back", "up"]

/-- What the analyses may assume. -/
structure AnalysisOptions where
  /-- A field with one of these words in its name may be found to point backward. -/
  backEdgeWords : List String := defaultBackEdgeWords
  /-- Whether a field that closes a cycle is weakened for its structure alone. -/
  structural : Bool := true
  /-- Whether allocations that qualify may be put into an arena. -/
  arenaOptIn : Bool := false
  /-- How far an argument escapes into a function about which nothing is known. -/
  unknownCallee : EscapeState := .arg
  deriving DecidableEq, Repr

namespace AnalysisOptions

/-- The options with one more word, in lowercase, unless they have it already. -/
def withWord (o : AnalysisOptions) (word : String) : AnalysisOptions :=
  let word := Text.lowercaseString word
  if word ∈ o.backEdgeWords then o else { o with backEdgeWords := o.backEdgeWords ++ [word] }

/-- The options with the given words, in lowercase, in place of those they have. -/
def withWords (o : AnalysisOptions) (words : List String) : AnalysisOptions :=
  { o with backEdgeWords := words.map Text.lowercaseString }

end AnalysisOptions

end Reclamation
