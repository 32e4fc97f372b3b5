/-!
# The entry points of the runtime

A compiled program and the runtime meet at a fixed list of C functions. `EntryPoint` is that list,
each one with its linker symbol and its C signature; the planner emits calls by entry point and
the runtime answers by entry point, so that neither spells a symbol by hand.

`ofSymbol?` reads a symbol back (`ofSymbol?_symbol`), so no two entry points share one
(`symbol_injective`). `Status` holds the integers that fallible entry points return.
-/

set_option autoImplicit false

namespace Reclamation

/-! ## C types and signatures -/

/-- The type of an argument or result at the C boundary. -/
inductive CType where
  /-- No value. -/
  | void
  /-- A status code or a truth value. -/
  | int32
  | uint32
  | uint64
  /-- The address of an object or of an arena. -/
  | pointer
  /-- A tagged reference in one word. -/
  | handle
  deriving DecidableEq, Repr

/-- The C spelling of a type. A handle is spelt as the word it is. -/
def CType.spelling : CType → String
  | .void => "void"
  | .int32 => "int32_t"
  | .uint32 => "uint32_t"
  | .uint64 => "uint64_t"
  | .pointer => "void *"
  | .handle => "uint64_t"

/-- The C type of a function. -/
structure Signature where
  params : List CType
  result : CType
  deriving DecidableEq, Repr

/-- A signature as C writes it without the function's name. -/
def Signature.spelling (s : Signature) : String :=
  s.result.spelling ++ "(" ++ ", ".intercalate (s.params.map CType.spelling) ++ ")"

/-- How many arguments a function takes. -/
def Signature.arity (s : Signature) : Nat :=
  s.params.length

/-! ## The list -/

/-- A function that compiled programs call. -/
inductive EntryPoint where
  | runtimeInit
  | alloc
  | registerType
  | setField
  | freeTree
  | incRef
  | decRef
  | safePoint
  | sccFreeze
  | sccRelease
  | arenaCreate
  | arenaAlloc
  | arenaRegisterExternal
  | arenaResolveExternal
  | arenaDestroy
  | symEnterScope
  | symExitScope
  | symAlloc
  | symAcquire
  | symRelease
  | symLink
  | slotPoolAlloc
  | slotPoolFree
  | makeHandle
  | handleIsValid
  | handleDeref
  deriving DecidableEq, Repr

namespace EntryPoint

/-- Every entry point, in the order of declaration. -/
def all : List EntryPoint :=
  [runtimeInit, alloc, registerType, setField, freeTree, incRef, decRef, safePoint, sccFreeze,
   sccRelease, arenaCreate, arenaAlloc, arenaRegisterExternal, arenaResolveExternal, arenaDestroy,
   symEnterScope, symExitScope, symAlloc, symAcquire, symRelease, symLink, slotPoolAlloc,
   slotPoolFree, makeHandle, handleIsValid, handleDeref]

/-- The linker symbol. -/
def symbol : EntryPoint → String
  | runtimeInit => "vein_runtime_init"
  | alloc => "vein_alloc"
  | registerType => "vein_register_type"
  | setField => "vein_set_field"
  | freeTree => "vein_free_tree"
  | incRef => "vein_inc_ref"
  | decRef => "vein_dec_ref"
  | safePoint => "vein_safe_point"
  | sccFreeze => "vein_scc_freeze"
  | sccRelease => "vein_scc_release"
  | arenaCreate => "vein_arena_create"
  | arenaAlloc => "vein_arena_alloc"
  | arenaRegisterExternal => "vein_arena_register_external"
  | arenaResolveExternal => "vein_arena_resolve_external"
  | arenaDestroy => "vein_arena_destroy"
  | symEnterScope => "vein_sym_enter_scope"
  | symExitScope => "vein_sym_exit_scope"
  | symAlloc => "vein_sym_alloc"
  | symAcquire => "vein_sym_acquire"
  | symRelease => "vein_sym_release"
  | symLink => "vein_sym_link"
  | slotPoolAlloc => "vein_slot_pool_alloc"
  | slotPoolFree => "vein_slot_pool_free"
  | makeHandle => "vein_make_handle"
  | handleIsValid => "vein_handle_is_valid"
  | handleDeref => "vein_handle_deref"

/-- The C signature. The two allocators take the type tag first and then the flags: shared for
both, and whether the innermost symmetric scope owns the object for the slot pool. -/
def signature : EntryPoint → Signature
  | runtimeInit => ⟨[], .int32⟩
  | alloc => ⟨[.uint32, .int32], .pointer⟩
  | registerType => ⟨[.uint32, .uint32, .uint64], .int32⟩
  | setField => ⟨[.pointer, .uint32, .pointer], .int32⟩
  | freeTree => ⟨[.pointer], .void⟩
  | incRef => ⟨[.pointer], .void⟩
  | decRef => ⟨[.pointer], .void⟩
  | safePoint => ⟨[], .uint32⟩
  | sccFreeze => ⟨[.pointer], .int32⟩
  | sccRelease => ⟨[.pointer], .int32⟩
  | arenaCreate => ⟨[], .pointer⟩
  | arenaAlloc => ⟨[.pointer, .uint32], .pointer⟩
  | arenaRegisterExternal => ⟨[.pointer, .pointer], .int32⟩
  | arenaResolveExternal => ⟨[.pointer, .pointer], .int32⟩
  | arenaDestroy => ⟨[.pointer], .int32⟩
  | symEnterScope => ⟨[], .void⟩
  | symExitScope => ⟨[], .int32⟩
  | symAlloc => ⟨[.uint32], .pointer⟩
  | symAcquire => ⟨[.pointer], .int32⟩
  | symRelease => ⟨[.pointer], .int32⟩
  | symLink => ⟨[.pointer, .uint32, .pointer], .int32⟩
  | slotPoolAlloc => ⟨[.uint32, .int32, .int32], .pointer⟩
  | slotPoolFree => ⟨[.pointer], .int32⟩
  | makeHandle => ⟨[.pointer], .handle⟩
  | handleIsValid => ⟨[.handle], .int32⟩
  | handleDeref => ⟨[.handle], .pointer⟩

/-- The entry point that a symbol names. -/
def ofSymbol? (s : String) : Option EntryPoint :=
  all.find? (·.symbol == s)

/-- What is said of a symbol that names no entry point. -/
def unknownMessage (s : String) : String :=
  "unknown runtime symbol \x60" ++ s ++ "\x60"

theorem mem_all (f : EntryPoint) : f ∈ all := by
  cases f <;> decide

theorem ofSymbol?_symbol (f : EntryPoint) : ofSymbol? f.symbol = some f := by
  cases f <;> decide

theorem symbol_injective {f g : EntryPoint} (h : f.symbol = g.symbol) : f = g := by
  have hf := ofSymbol?_symbol f
  rw [h, ofSymbol?_symbol g] at hf
  exact (Option.some.inj hf).symm

end EntryPoint

/-! ## Status codes -/

/-- What a fallible entry point reports. -/
inductive Status where
  | ok
  /-- The arena stays until its outstanding externals are resolved. -/
  | deferred
  | invalidObject
  | invalidHandle
  | fieldOutOfRange
  | frozen
  | sccExhausted
  | poolExhausted
  | crossArena
  | noScope
  | notInitialized
  | notInScc
  | unknownType
  | internal
  deriving DecidableEq, Repr

namespace Status

/-- Every status, in the order of declaration. -/
def all : List Status :=
  [ok, deferred, invalidObject, invalidHandle, fieldOutOfRange, frozen, sccExhausted,
   poolExhausted, crossArena, noScope, notInitialized, notInScc, unknownType, internal]

/-- The integer that stands for a status: zero is success, a positive number is a success with
more to say, a negative number is a failure. -/
def code : Status → Int
  | ok => 0
  | deferred => 1
  | invalidObject => -1
  | invalidHandle => -2
  | fieldOutOfRange => -3
  | frozen => -4
  | sccExhausted => -5
  | poolExhausted => -6
  | crossArena => -7
  | noScope => -8
  | notInitialized => -9
  | notInScc => -10
  | unknownType => -11
  | internal => -100

end Status

end Reclamation
