import Mathlib
import Reclamation.Config

/-!
# What the environment settles

Each variable of the environment is read for itself, and one that no option accepts leaves the default in
place. The check of a configuration asks for more: a component count that fits its word, and two pairs of
options that fit each other. Only the limit of the slot pool is measured against its partner while it is read,
and only if it is set at all.

So the first four requirements of the check always hold of what is read from an environment, and which of the
others breaks is decided by three comparisons (`violation?_ofEnvironment`). The configuration passes the check
exactly if the environment is coherent (`violation?_ofEnvironment_eq_none_iff`), which the reading does not see
to (`violation?_of_incoherent`).
-/

set_option autoImplicit false

namespace Reclamation

namespace Environment

/-- What an option is set to is acceptable, or it is the default. -/
theorem accept_numberOr_or (env : Environment) (name : String) (accept : Nat → Bool) (fallback : Nat) :
    accept (env.numberOr name accept fallback) = true ∨ env.numberOr name accept fallback = fallback := by
  rw [numberOr]
  cases hn : (env.number? name).filter accept with
  | none => exact .inr rfl
  | some n => exact .inl (Option.filter_eq_some_iff.1 hn).2

theorem accept_numberOr (env : Environment) (name : String) (accept : Nat → Bool) {fallback : Nat}
    (h : accept fallback = true) : accept (env.numberOr name accept fallback) = true := by
  rcases accept_numberOr_or env name accept fallback with haccept | hdefault
  · exact haccept
  · rw [hdefault]
    exact h

variable {env : Environment} {name : String} {accept : Nat → Bool} {fallback : Nat}

theorem numberOr_of_accept {n : Nat} (hn : env.number? name = some n) (h : accept n = true) :
    env.numberOr name accept fallback = n := by
  rw [numberOr, hn, Option.filter_some, if_pos h, Option.getD_some]

/-- A value other than the default is the one that the variable holds. -/
theorem number?_of_numberOr (h : env.numberOr name accept fallback ≠ fallback) :
    env.number? name = some (env.numberOr name accept fallback) := by
  unfold numberOr at h ⊢
  cases hn : (env.number? name).filter accept with
  | none => exact absurd (by rw [hn, Option.getD_none]) h
  | some n => exact (Option.filter_eq_some_iff.1 hn).1

/-- The settings of an environment that have to fit together or within a word do so. -/
structure Coherent (env : Environment) : Prop where
  /-- A first chunk of more slots than the pool has by default comes with a limit that lets it in. -/
  pool : ∀ n, env.number? "VEIN_SLOT_POOL_INITIAL" = some n → 0x1000000 < n →
    ∃ limit, env.number? "VEIN_SLOT_POOL_MAX" = some limit ∧ n ≤ limit
  /-- The components that are asked for can be numbered by a word. -/
  components : ∀ n, env.number? "VEIN_SCC_CAPACITY" = some n → n < UInt32.size
  /-- A batch, set or not, fits into the queue, set or not. -/
  queue : env.numberOr "VEIN_DEFERRED_BATCH" (0 < ·) 128 ≤ env.numberOr "VEIN_DEFERRED_MAX" (0 < ·) 1024

end Environment

namespace Config

open Environment

variable (env : Environment)

/-- Three comparisons decide what is wrong with the configuration that an environment asks for. -/
theorem violation?_ofEnvironment : (ofEnvironment env).violation? =
    if (ofEnvironment env).pool.maxSlots < (ofEnvironment env).pool.initialSlots then some .poolBelowInitial
    else if UInt32.size ≤ (ofEnvironment env).componentCapacity then some .componentCapacityOutOfRange
    else if (ofEnvironment env).deferral.maxQueue < (ofEnvironment env).deferral.batch then
      some .queueBelowBatch
    else none := by
  have hchunk : minArenaChunk ≤ (ofEnvironment env).arena.chunkSize :=
    of_decide_eq_true (accept_numberOr env _ (minArenaChunk ≤ ·) rfl)
  have hchunks : 0 < (ofEnvironment env).arena.maxChunks :=
    of_decide_eq_true (accept_numberOr env _ (0 < ·) rfl)
  have hinitial : 0 < (ofEnvironment env).pool.initialSlots :=
    of_decide_eq_true (accept_numberOr env _ (0 < ·) rfl)
  have hcapacity : 0 < (ofEnvironment env).componentCapacity :=
    of_decide_eq_true (accept_numberOr env _ (0 < ·) rfl)
  have hbatch : 0 < (ofEnvironment env).deferral.batch :=
    of_decide_eq_true (accept_numberOr env _ (0 < ·) rfl)
  rw [violation?, if_neg (Nat.not_lt.2 hchunk), if_neg (Nat.ne_of_gt hchunks), if_neg (Nat.ne_of_gt hinitial),
    if_neg (Nat.ne_of_gt hbatch)]
  simp only [Nat.ne_of_gt hcapacity, false_or]

/-- The limit of the slot pool lets the first chunk in exactly if the settings of the two fit together. -/
theorem initialSlots_le_iff : (ofEnvironment env).pool.initialSlots ≤ (ofEnvironment env).pool.maxSlots ↔
    ∀ n, env.number? "VEIN_SLOT_POOL_INITIAL" = some n → 0x1000000 < n →
      ∃ limit, env.number? "VEIN_SLOT_POOL_MAX" = some limit ∧ n ≤ limit := by
  set initial := (ofEnvironment env).pool.initialSlots
  have hmax : (ofEnvironment env).pool.maxSlots =
      env.numberOr "VEIN_SLOT_POOL_MAX" (initial ≤ ·) 0x1000000 := rfl
  rw [hmax]
  constructor
  · intro hle n hn hlarge
    have heq : initial = n := numberOr_of_accept hn (decide_eq_true (Nat.zero_lt_of_lt hlarge))
    rw [heq] at hle
    refine ⟨_, number?_of_numberOr fun hdefault => ?_, hle⟩
    rw [hdefault] at hle
    omega
  · intro hfits
    rcases accept_numberOr_or env "VEIN_SLOT_POOL_MAX" (initial ≤ ·) 0x1000000 with haccept | hdefault
    · exact of_decide_eq_true haccept
    · rw [hdefault]
      by_contra hlarge
      -- beyond the default of the pool the first chunk is what its variable says, and so is the limit
      have hset : env.number? "VEIN_SLOT_POOL_INITIAL" = some initial := by
        refine number?_of_numberOr fun hdefault : initial = 256 => ?_
        omega
      obtain ⟨limit, hlimit, hle⟩ := hfits initial hset (Nat.lt_of_not_le hlarge)
      have heq : env.numberOr "VEIN_SLOT_POOL_MAX" (initial ≤ ·) 0x1000000 = limit :=
        numberOr_of_accept hlimit (decide_eq_true hle)
      omega

/-- The components that an environment asks for can be numbered exactly if its variable says so. -/
theorem componentCapacity_lt_iff : (ofEnvironment env).componentCapacity < UInt32.size ↔
    ∀ n, env.number? "VEIN_SCC_CAPACITY" = some n → n < UInt32.size := by
  constructor
  · intro hlt n hn
    by_cases hpos : 0 < n
    · have heq : (ofEnvironment env).componentCapacity = n := numberOr_of_accept hn (decide_eq_true hpos)
      exact heq ▸ hlt
    · exact Nat.lt_of_le_of_lt (Nat.le_of_not_lt hpos) (by decide)
  · intro hfits
    by_cases hdefault : (ofEnvironment env).componentCapacity = 65536
    · rw [hdefault]
      decide
    · exact hfits _ (number?_of_numberOr hdefault)

/-- The configuration that an environment asks for passes the check exactly if the environment is coherent. -/
theorem violation?_ofEnvironment_eq_none_iff : (ofEnvironment env).violation? = none ↔ env.Coherent := by
  have hpool := initialSlots_le_iff env
  have hcomponents := componentCapacity_lt_iff env
  rw [violation?_ofEnvironment]
  constructor
  · intro h
    split at h
    · simp at h
    split at h
    · simp at h
    split at h
    · simp at h
    · rename_i hqueue
      exact ⟨hpool.1 (by omega), hcomponents.1 (by omega), Nat.le_of_not_lt hqueue⟩
  · intro h
    have hqueue : (ofEnvironment env).deferral.batch ≤ (ofEnvironment env).deferral.maxQueue := h.queue
    rw [if_neg (Nat.not_lt.2 (hpool.2 h.pool)), if_neg (Nat.not_le.2 (hcomponents.2 h.components)),
      if_neg (Nat.not_lt.2 hqueue)]

/-- A number of components that does not fit a word is taken over, and so is an option that does not fit the
default of its partner. -/
theorem violation?_of_incoherent :
    (ofEnvironment fun name => if name = "VEIN_SCC_CAPACITY" then some "4294967296" else none).violation? =
      some .componentCapacityOutOfRange ∧
    (ofEnvironment fun name => if name = "VEIN_SLOT_POOL_INITIAL" then some "17000000" else none).violation? =
      some .poolBelowInitial ∧
    (ofEnvironment fun name => if name = "VEIN_DEFERRED_BATCH" then some "2048" else none).violation? =
      some .queueBelowBatch := by
  decide +kernel

end Config

end Reclamation
