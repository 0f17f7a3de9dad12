import Rustarmic.Arch

/-!
# Errors

The error type that every fallible function of the recompiler returns, with the data of its
variants.  A translator fails with `decode` or `unsupported`, both of which name the guest PC and
the word: `translateInstruction` fills in the word where a generated family has left a zero.  The
other variants belong to the code cache (`codeCacheFull`, `blockTooLarge`, `hostAlloc`), to the
fetch of guest code (`guestMemory`) and to the backend.

An `Error` is what the code *returns*.  A panic of the code is no value of this type; where one is
modelled it is `Stop.panic` of `Frontend.Emitter`.
-/

set_option autoImplicit false

namespace Rustarmic

inductive Error where
  | decode (pc : U64) (opcode : U32)
  | unsupported (pc : U64) (opcode : U32)
  | guestMemory (addr : U64)
  | codeCacheFull
  | backend (message : String)
  | hostAlloc (message : String)
  | unsupportedHost
  | blockTooLarge (pc : U64)
  deriving DecidableEq, Repr

end Rustarmic
