import Reclamation.Text.Blank
import Reclamation.Text.Case
import Reclamation.Text.Numeral

/-!
# Configuration of the runtime

Limits and options, with their defaults, the check that they fit together, and the reading of
them from environment variables. A variable that is absent, that is not a numeral or a word of the
expected kind, or that would break a limit on its own, leaves the default in place.
-/

set_option autoImplicit false

namespace Reclamation

open Text

/-! ## Log levels -/

/-- How much is written to the log. -/
inductive LogLevel where
  | off
  | error
  | warn
  | info
  | debug
  | trace
  deriving DecidableEq, Repr

namespace LogLevel

/-- The name of a level. -/
def name : LogLevel → String
  | off => "off"
  | error => "error"
  | warn => "warn"
  | info => "info"
  | debug => "debug"
  | trace => "trace"

/-- The level that a text names in any case: by name, by a short form, or by its rank. -/
def ofText? (text : String) : Option LogLevel :=
  match lowercaseString text with
  | "off" | "none" | "0" => some off
  | "error" | "err" | "1" => some error
  | "warn" | "warning" | "2" => some warn
  | "info" | "3" => some info
  | "debug" | "4" => some debug
  | "trace" | "5" => some trace
  | _ => none

end LogLevel

/-! ## The options -/

/-- Limits of one arena. -/
structure ArenaLimits where
  /-- Bytes in an ordinary chunk. -/
  chunkSize : Nat := 8192
  maxChunks : Nat := 4096
  deriving DecidableEq, Repr

/-- Limits of the slot pool. -/
structure PoolLimits where
  /-- Slots in the first chunk; each later chunk doubles. -/
  initialSlots : Nat := 256
  maxSlots : Nat := 0x1000000
  deriving DecidableEq, Repr

/-- How decrements are put off. -/
structure DeferralOptions where
  /-- Whether the C entry point for decrements puts them off. -/
  enabled : Bool := false
  /-- How many a safe point applies. -/
  batch : Nat := 128
  /-- The queue length at which a batch is applied at once. -/
  maxQueue : Nat := 1024
  deriving DecidableEq, Repr

/-- What the log shows. -/
structure LogOptions where
  level : LogLevel := .info
  timestamps : Bool := true
  deriving DecidableEq, Repr

/-- All options of the runtime. -/
structure Config where
  arena : ArenaLimits := {}
  pool : PoolLimits := {}
  /-- How many frozen components may be live at once. -/
  componentCapacity : Nat := 65536
  deferral : DeferralOptions := {}
  /-- The secret mixed into the tags of handles; drawn at random if absent. -/
  handleSecret : Option UInt64 := none
  log : LogOptions := {}
  deriving DecidableEq, Repr

/-! ## The check -/

/-- The smallest arena chunk that is accepted. -/
def minArenaChunk : Nat := 1024

/-- Why a configuration is refused. -/
inductive ConfigError where
  | arenaChunkTooSmall
  | noArenaChunk
  | noInitialSlot
  | poolBelowInitial
  | componentCapacityOutOfRange
  | emptyBatch
  | queueBelowBatch
  deriving DecidableEq, Repr

namespace ConfigError

/-- The option that is at fault. -/
def option : ConfigError → String
  | arenaChunkTooSmall => "arena.chunk_size"
  | noArenaChunk => "arena.max_chunks"
  | noInitialSlot => "slots.initial_slots"
  | poolBelowInitial => "slots.max_slots"
  | componentCapacityOutOfRange => "scc.capacity"
  | emptyBatch => "deferred.batch"
  | queueBelowBatch => "deferred.max_queue"

/-- What the option has to satisfy. -/
def requirement : ConfigError → String
  | arenaChunkTooSmall => "must be at least " ++ toString minArenaChunk ++ " bytes"
  | noArenaChunk | noInitialSlot | emptyBatch => "must be at least 1"
  | poolBelowInitial => "must be at least initial_slots"
  | componentCapacityOutOfRange => "must be between 1 and u32::MAX"
  | queueBelowBatch => "must be at least deferred.batch"

/-- The text of the error. -/
def message (e : ConfigError) : String :=
  "invalid configuration for '" ++ e.option ++ "': " ++ e.requirement

end ConfigError

namespace Config

/-- The first requirement that a configuration breaks, if any. -/
def violation? (c : Config) : Option ConfigError :=
  if c.arena.chunkSize < minArenaChunk then some .arenaChunkTooSmall
  else if c.arena.maxChunks = 0 then some .noArenaChunk
  else if c.pool.initialSlots = 0 then some .noInitialSlot
  else if c.pool.maxSlots < c.pool.initialSlots then some .poolBelowInitial
  else if c.componentCapacity = 0 ∨ UInt32.size ≤ c.componentCapacity then
    some .componentCapacityOutOfRange
  else if c.deferral.batch = 0 then some .emptyBatch
  else if c.deferral.maxQueue < c.deferral.batch then some .queueBelowBatch
  else none

/-- The configuration itself, if it breaks no requirement. -/
def checked (c : Config) : Except ConfigError Config :=
  match c.violation? with
  | some e => .error e
  | none => .ok c

/-- A configuration passes the check when its limits are positive and fit together. -/
theorem violation?_eq_none_iff (c : Config) :
    c.violation? = none ↔
      minArenaChunk ≤ c.arena.chunkSize ∧ 0 < c.arena.maxChunks ∧ 0 < c.pool.initialSlots ∧
      c.pool.initialSlots ≤ c.pool.maxSlots ∧ 0 < c.componentCapacity ∧
      c.componentCapacity < UInt32.size ∧ 0 < c.deferral.batch ∧
      c.deferral.batch ≤ c.deferral.maxQueue := by
  unfold violation?
  repeat' split
  all_goals simp only [reduceCtorEq, false_iff, true_iff]
  all_goals omega

theorem violation?_default : ({} : Config).violation? = none := by
  decide

end Config

/-! ## Environment variables -/

/-- The values of the environment variables that are set. -/
abbrev Environment := String → Option String

namespace Environment

/-- The number that a variable holds. -/
def number? (env : Environment) (name : String) : Option Nat :=
  (env name).bind fun value => word? (trim value.toList)

/-- The 64-bit word that a variable holds, decimal or hexadecimal. -/
def secret? (env : Environment) (name : String) : Option Nat :=
  (env name).bind fun value => wordAnyBase? (trim value.toList)

/-- The truth value that a variable holds, in any case. -/
def switch? (env : Environment) (name : String) : Option Bool :=
  (env name).bind fun value =>
    match String.ofList (lowercase (trim value.toList)) with
    | "1" | "true" | "yes" | "on" => some true
    | "0" | "false" | "no" | "off" => some false
    | _ => none

/-- The number that a variable holds if it is acceptable, and `fallback` otherwise. -/
def numberOr (env : Environment) (name : String) (accept : Nat → Bool) (fallback : Nat) : Nat :=
  ((env.number? name).filter accept).getD fallback

end Environment

/-- The configuration that the environment asks for. The pool's limit is measured against the
initial slots that the environment has already settled. -/
def Config.ofEnvironment (env : Environment) : Config :=
  let initialSlots := env.numberOr "VEIN_SLOT_POOL_INITIAL" (0 < ·) 256
  { arena.chunkSize := env.numberOr "VEIN_ARENA_CHUNK_SIZE" (minArenaChunk ≤ ·) 8192
    arena.maxChunks := env.numberOr "VEIN_ARENA_MAX_CHUNKS" (0 < ·) 4096
    pool.initialSlots := initialSlots
    pool.maxSlots := env.numberOr "VEIN_SLOT_POOL_MAX" (initialSlots ≤ ·) 0x1000000
    componentCapacity := env.numberOr "VEIN_SCC_CAPACITY" (0 < ·) 65536
    deferral.enabled := (env.switch? "VEIN_DEFERRED_RC").getD false
    deferral.batch := env.numberOr "VEIN_DEFERRED_BATCH" (0 < ·) 128
    deferral.maxQueue := env.numberOr "VEIN_DEFERRED_MAX" (0 < ·) 1024
    handleSecret := (env.secret? "VEIN_HANDLE_SECRET").map (UInt64.ofNat ·)
    log.level := ((env "VEIN_LOG_LEVEL").bind LogLevel.ofText?).getD .info }

end Reclamation
