import Rustarmic.Arch
import Mathlib.Data.BitVec

/-!
# Guest atomic operations

An embedder serves every atomic access with one callback, and `jit/atomic.rs` lists the operations
that this callback can be asked for, as `AtomicOp`.  `apply` says what such an operation stores.

This is the one place in the source that says what the callback has to do, so it is the reference
for both sides:

* **The embedder.**  A callback that serves atomics stores `apply op` of what memory holds.
* **The generated code.**  With fastmem the access is made inline, as a `lock`-prefixed instruction
  or a loop of `cmpxchg`, and nobody calls back.  It has to store the same, or what a guest program
  sees would depend on which way an access took.

Operands come as 128 bits whatever the size of the access, so `apply` cuts them to `size` bytes
itself; what is above does not count.  A `cas` that fails stores nothing, which is the `none`.
-/

set_option autoImplicit false

namespace Rustarmic

inductive AtomicOp where
  | add
  /-- `old & !operand`. -/
  | clr
  | eor
  /-- `old | operand`. -/
  | set
  | smax | smin | umax | umin | swp | cas
  deriving DecidableEq, Repr

namespace AtomicOp

/-- The low `size` bytes. -/
def mask (size : U8) : U128 :=
  if 16 ≤ size then BitVec.allOnes 128 else (1#128 <<< (size.toNat * 8)) - 1

/-- The low `size` bytes as a signed number. -/
def sext (v : U128) (size : U8) : U128 :=
  let shift := 128 - size.toNat * 8
  (v <<< shift).sshiftRight shift

/-- The value an RMW stores, given the old value; `none` for a failed `cas`. -/
def apply (op : AtomicOp) (size : U8) (old operand expected : U128) : Option U128 :=
  let m := mask size
  let old := old &&& m
  let operand := operand &&& m
  let expected := expected &&& m
  let new : Option U128 := match op with
    | add => some (old + operand)
    | clr => some (old &&& ~~~operand)
    | eor => some (old ^^^ operand)
    | set => some (old ||| operand)
    | smax => some (if (sext operand size).sle (sext old size) then old else operand)
    | smin => some (if (sext old size).sle (sext operand size) then old else operand)
    | umax => some (if operand ≤ old then old else operand)
    | umin => some (if old ≤ operand then old else operand)
    | swp => some operand
    | cas => if old = expected then some operand else none
  new.map (· &&& m)

end AtomicOp

end Rustarmic
