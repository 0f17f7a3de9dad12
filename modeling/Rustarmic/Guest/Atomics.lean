import Rustarmic.Ir.Eval

/-!
# Atomic memory operations as the architecture defines them

`Atomic.exec` is an atomic instruction with its operands decoded.  Numbers of registers are those of
the encoding: 31 is the stack pointer in the address, and elsewhere reads as zero and takes no
result.

An access is noted once, whether it stores or not.  That is how the manual has it: a
compare-and-swap which does not find what it expects is still a single access, and a watchpoint or a
permission check would see it.  The trace in the machine has addresses and sizes, and the code's
accesses are compared with it.

The instructions are of three shapes: read-modify-write (`mem`, with SWP as the operation that
ignores what it loads), compare-and-swap of one register, and of a pair.  A pair of registers is one
operand of twice the width with the first register in the low half, and `pair` has no case for 31,
since a pair starts at an even register.  Orderings do not appear: here memory is one, and an
instruction is one step.
-/

set_option autoImplicit false

namespace Rustarmic
namespace Guest

open ModularMemory

/-- `MemAtomicOp`. -/
inductive MemAtomicOp where
  | add | bic | eor | orr | smax | smin | umax | umin | swp
  deriving DecidableEq, Repr

/-- What `MemAtomic` stores. -/
def MemAtomicOp.result {w : Nat} (op : MemAtomicOp) (old value : BitVec w) : BitVec w :=
  match op with
  | .add => old + value
  | .bic => old &&& ~~~value
  | .eor => old ^^^ value
  | .orr => old ||| value
  | .smax => if value.toInt < old.toInt then old else value
  | .smin => if value.toInt < old.toInt then value else old
  | .umax => if value.toNat < old.toNat then old else value
  | .umin => if value.toNat < old.toNat then value else old
  | .swp => value

/-- An instruction with its size field and the registers `Rs`, `Rn` and `Rt`. -/
inductive Atomic where
  | mem (op : MemAtomicOp) (size : Fin 4) (s n t : Nat)
  | compareAndSwap (size : Fin 4) (s n t : Nat)
  | compareAndSwapPair (size : Fin 2) (s n t : Nat)
  deriving DecidableEq, Repr

namespace Atomic

/-- The operand from a register. -/
def operand (m : Machine) (bytes reg : Nat) : BitVec (8 * bytes) := (m.readX reg).setWidth (8 * bytes)

/-- The operand from a register and the one after it, the low half first. -/
def pair (m : Machine) (bytes reg : Nat) : BitVec (8 * bytes + 8 * bytes) :=
  operand m bytes (reg + 1) ++ operand m bytes reg

/-- One access, with what it stores. -/
def access {w : Nat} (m : Machine) (address : U64) (bytes : Nat) (new : Option (BitVec w)) : Machine :=
  { m with
    memory := match new with
      | some v => write m.memory address bytes v
      | none => m.memory
    accesses := ⟨true, address, bytes⟩ :: m.accesses }

def base (m : Machine) (n : Nat) : U64 := if n = zrEncoding then m.sp else m.x n

/-- The address of the access. -/
def address (m : Machine) : Atomic → U64
  | mem _ _ _ n _ | compareAndSwap _ _ n _ | compareAndSwapPair _ _ n _ => base m n

/-- The bytes of an access. -/
def bytesOf (size : Fin 4) : Nat := 1 <<< size.val

/-- The bytes that each register of a pair takes part with. -/
def pairBytes (size : Fin 2) : Nat := 4 <<< size.val

/-- The instruction. -/
def exec (m : Machine) : Atomic → Machine
  | mem op size s n t =>
    let old := read (8 * bytesOf size) m.memory (base m n) (bytesOf size)
    (access m (base m n) (bytesOf size)
      (some (op.result old (operand m (bytesOf size) s)))).writeX t (old.setWidth 64)
  | compareAndSwap size s n t =>
    let old := read (8 * bytesOf size) m.memory (base m n) (bytesOf size)
    (access m (base m n) (bytesOf size)
      (if old = operand m (bytesOf size) s then some (operand m (bytesOf size) t)
        else none)).writeX s (old.setWidth 64)
  | compareAndSwapPair size s n t =>
    let bytes := pairBytes size
    let old := read (8 * bytes + 8 * bytes) m.memory (base m n) (bytes + bytes)
    ((access m (base m n) (bytes + bytes)
      (if old = pair m bytes s then some (pair m bytes t) else none)).writeX s
        ((old.setWidth (8 * bytes)).setWidth 64)).writeX (s + 1)
          (((old >>> (8 * bytes)).setWidth (8 * bytes)).setWidth 64)

end Atomic

end Guest
end Rustarmic
