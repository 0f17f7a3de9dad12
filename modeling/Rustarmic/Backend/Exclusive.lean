import Rustarmic.Jit.Atomic
import Rustarmic.Lib.ModularMemory

/-!
# Exclusive accesses

A load-exclusive arms the monitor of its context with the address, the size and the value it
observed; a store-exclusive compares the monitor and then lets one compare-and-swap decide.  Where
the bytes come from (fast path, callback, one memory that several cores share) is left to an
`AccessPort`.

* **The monitor is a part of the context.**  No other core can see or clear it.  What takes its
  place is the value: a store-exclusive succeeds if memory still holds what the load-exclusive saw.
  Another core may have written in between, as long as it has put the old value back; the
  architecture would let the store fail then, and the code does not notice.
* **The address is read twice.**  `emit_load_ex` emits an ordinary load, whose slow path calls back
  into the embedder, and stores the address to the monitor after that, reading the operand from its
  place again.  In the model that place is `operand`, a function of the state of the core, and it is
  evaluated before the access and after it.  Whether the two agree depends on what the access has
  left of the registers, so it is nothing that this file could say.
* **One compare-and-swap.**  `rmw` is an atomic read-modify-write on a memory that all cores share,
  and it is the only step of a store-exclusive that others can see.
-/

set_option autoImplicit false

namespace Rustarmic

open ModularMemory

/-- The width of an exclusive access. -/
inductive Width where
  | b1 | b2 | b4 | b8 | b16
  deriving DecidableEq, Repr

namespace Width

def bytes : Width → Nat
  | b1 => 1
  | b2 => 2
  | b4 => 4
  | b8 => 8
  | b16 => 16

/-- The width as the context stores it. -/
def size (w : Width) : U8 := BitVec.ofNat 8 w.bytes

theorem size_inj {w w' : Width} (h : w.size = w'.size) : w = w' := by
  revert h
  cases w <;> cases w' <;> decide

theorem size_ne_zero (w : Width) : w.size ≠ 0 := by
  cases w <;> decide

theorem bytes_pos (w : Width) : 0 < w.bytes := by
  cases w <;> decide

theorem bytes_le (w : Width) : w.bytes ≤ 2 ^ 64 := by
  cases w <;> decide

end Width

/-! ## One read-modify-write -/

abbrev SharedMemory := Mem 64

/-- One atomic read-modify-write, with the old value. -/
def rmw (op : AtomicOp) (w : Width) (a : U64) (operand expected : U128) (m : SharedMemory) :
    SharedMemory × U128 :=
  let old := read 128 m a w.bytes
  match op.apply w.size old operand expected with
  | some new => (write m a w.bytes new, old)
  | none => (m, old)

theorem Width.and_mask (w : Width) (x : U128) : x &&& AtomicOp.mask w.size = low w.bytes x := by
  have hmask : (AtomicOp.mask w.size).toNat = 2 ^ (8 * w.bytes) - 1 := by
    cases w <;> decide
  have hbytes : 2 ^ (8 * w.bytes) ≤ 2 ^ 128 := by
    cases w <;> decide
  refine BitVec.eq_of_toNat_eq ?_
  rw [BitVec.toNat_and, hmask, Nat.and_two_pow_sub_one_eq_mod, low, BitVec.toNat_setWidth,
    BitVec.toNat_setWidth]
  exact (Nat.mod_eq_of_lt (Nat.lt_of_lt_of_le (Nat.mod_lt _ (Nat.two_pow_pos _)) hbytes)).symm

/-- A compare-and-swap stores iff memory holds the expected value. -/
theorem rmw_cas (w : Width) (a : U64) (new expected : U128) (m : SharedMemory) :
    rmw .cas w a new expected m =
      (if read 128 m a w.bytes = low w.bytes expected then write m a w.bytes (low w.bytes new)
        else m, read 128 m a w.bytes) := by
  simp only [rmw, AtomicOp.apply, Width.and_mask, low_read]
  by_cases h : read 128 m a w.bytes = low w.bytes expected
  · rw [if_pos h, if_pos h, Option.map_some, low_low]
  · rw [if_neg h, if_neg h, Option.map_none]

/-! ## The monitor -/

/-- The monitor: `exclusive_addr`, `exclusive_size`, and `exclusive_value` with its high half. -/
structure Monitor where
  addr : U64
  size : U8
  value : U128
  deriving DecidableEq, Repr

namespace Monitor

def disarm (m : Monitor) : Monitor := { m with size := 0 }

/-- The comparison a store-exclusive starts with. -/
def admits (m : Monitor) (w : Width) (addr : U64) : Bool := m.addr == addr && m.size == w.size

end Monitor

/-- What an exclusive access does to the state of its core: the load of `emit_load`, the
compare-and-swap of `emit_atomic_core` or, for 16 bytes, of `emit_cas128_call`, which both return
the old value, and the context fields it uses. -/
structure AccessPort (S : Type) where
  load : Width → U64 → S → S × U128
  cas : Width → U64 → (expected new : U128) → S → S × U128
  monitor : S → Monitor
  setMonitor : Monitor → S → S
  memFault : S → U8

namespace AccessPort

variable {S : Type}

/-- An ordinary load that also arms the monitor, unless it faulted.  `operand` reads the address
from where the value of the block is kept and `dst` writes the result to its own place.  The address
is read twice: once for the load, and once more, after the load and whatever it called, for the
monitor. -/
def emitLoadEx (P : AccessPort S) (w : Width) (operand : S → U64) (dst : U128 → S → S) (s : S) :
    S × U128 :=
  let loaded := P.load w (operand s) s
  let s := dst loaded.2 loaded.1
  let s := P.setMonitor ⟨operand s, w.size, loaded.2⟩ s
  if P.memFault s = 0 then (s, loaded.2) else (P.setMonitor (P.monitor s).disarm s, loaded.2)

/-- Whether two values agree in the bytes of an access. -/
def sameAt (w : Width) (x y : U128) : Bool := low w.bytes x == low w.bytes y

/-- The status: zero iff the monitor matches and memory held the monitor's value.  The monitor is
cleared either way. -/
def emitStoreEx (P : AccessPort S) (w : Width) (addr : U64) (value : U128) (s : S) : S × U32 :=
  let m := P.monitor s
  if m.admits w addr then
    let swapped := P.cas w addr m.value value s
    let status : U32 := if sameAt w swapped.2 (P.monitor swapped.1).value then 0 else 1
    (P.setMonitor (P.monitor swapped.1).disarm swapped.1, status)
  else (P.setMonitor m.disarm s, 1)

def emitClrex (P : AccessPort S) (s : S) : S := P.setMonitor (P.monitor s).disarm s

end AccessPort

end Rustarmic
