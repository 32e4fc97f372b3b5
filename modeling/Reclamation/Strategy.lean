import Reclamation.EntryPoint

/-!
# Strategies

How an allocation is reclaimed. The planner chooses one strategy for each allocation site; a
strategy fixes the entry point that releases a reference and, for the two that count each
reference at run time, the one that takes a reference.
-/

set_option autoImplicit false

namespace Reclamation

/-- How the memory of an allocation is given back. -/
inductive Strategy where
  /-- Freed at the one place where its only owner dies. -/
  | asap
  /-- Reference counted. -/
  | rc
  /-- Frozen into components of mutually reachable objects, each counted as a whole. -/
  | scc
  /-- Freed together with the arena it lives in. -/
  | arena
  /-- Counted apart by scopes and by fields, so that changing cycles can be collected. -/
  | symmetric
  deriving DecidableEq, Repr

namespace Strategy

/-- Every strategy, in the order of declaration. -/
def all : List Strategy :=
  [asap, rc, scc, arena, symmetric]

/-- The name used in reports. -/
def name : Strategy → String
  | asap => "asap"
  | rc => "rc"
  | scc => "scc"
  | arena => "arena"
  | symmetric => "symmetric-rc"

/-- The entry point called where a reference is given up. -/
def release : Strategy → EntryPoint
  | asap => .freeTree
  | rc => .decRef
  | scc => .sccRelease
  | arena => .arenaDestroy
  | symmetric => .symRelease

/-- The entry point called where another reference is taken, if the strategy counts them. -/
def acquire? : Strategy → Option EntryPoint
  | rc => some .incRef
  | symmetric => some .symAcquire
  | asap | scc | arena => none

/-- Whether values under this strategy carry a count. -/
def isCounted : Strategy → Bool
  | asap | arena => false
  | rc | scc | symmetric => true

theorem release_injective {s t : Strategy} (h : s.release = t.release) : s = t := by
  cases s <;> cases t <;> simp_all [release]

theorem acquire?_isSome_iff (s : Strategy) :
    s.acquire?.isSome ↔ s.isCounted = true ∧ s ≠ .scc := by
  cases s <;> simp [acquire?, isCounted]

end Strategy

end Reclamation
