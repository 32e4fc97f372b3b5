import Reclamation.Host.Call

/-!
# The host of the runtime

A program that links the runtime has one memory, made from the environment by the first call that
needs it. Making it installs the log, as the program may also do before; only the first installation
counts, and a level of `off` installs nothing.
-/

set_option autoImplicit false

namespace Reclamation

/-- The version of the runtime. -/
def version : String := "0.1.0"

/-- A program that links the runtime, as far as the runtime knows it. -/
structure Host where
  env : Environment
  /-- The secret for the tags of handles, drawn when the program starts. -/
  secret : UInt64
  /-- The memory, once a call has needed it. -/
  memory? : Option Memory := none
  /-- Whether the log is installed. -/
  logging : Bool := false

namespace Host

/-- Install the log; the value is whether this call did so. -/
def initLogging (h : Host) (options : LogOptions) : Host × Bool :=
  if options.level = .off || h.logging then (h, false) else ({ h with logging := true }, true)

/-- Read the configuration from the environment and install the log, without making a memory. -/
def initFromEnvironment (h : Host) : Host × Config :=
  let config := Config.ofEnvironment h.env
  ((h.initLogging config.log).1, config)

/-- The memory of the program, made now if there is none. -/
def ready (h : Host) : Host × Memory :=
  match h.memory? with
  | some m => (h, m)
  | none =>
    let (h, config) := h.initFromEnvironment
    let m := Memory.ofConfig config h.secret
    ({ h with memory? := some m }, m)

/-- Carry out a call. No reply means that the program has ended. -/
def perform (h : Host) (c : Call) : Option (Host × Reply) :=
  let (h, m) := h.ready
  (m.perform c).map fun (m, reply) => ({ h with memory? := some m }, reply)

end Host

end Reclamation
