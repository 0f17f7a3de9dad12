import Mathlib.Data.BitVec

/-!
# Architectural constants

Machine words, guest register numbers, condition codes and the NZCV byte: `arch.rs`, and the types
that everything else is written in.

* **Words.**  A machine word of `n` bits is a `BitVec n`, so that every wrapping operation of the
  source is the operation of the same name here.  Where the source counts, indexes or computes with
  values that it keeps small, the model has a natural number or an integer; where it computes with
  checks, as debug builds do, that is said in the place.
* **Registers.**  General registers are numbered to 30.  The encoding 31 is the zero register or the
  stack pointer, depending on the instruction, and both the code and the model name it `zrEncoding`.
* **Conditions.**  A condition is tested in two ways in the source: by its definition
  (`Nzcv.check`), and by a table of sixteen bits for each condition with one bit for each value of
  the flags (`condTruth`), which the generated code looks up.
* **Flags.**  The context stores NZCV as a byte with `N` in bit 3, and its upper half is zero.
  Nothing in the type says so, and theorems that need it say it (`FlagsOnly`).

The two instances make numerals work for `Fin 4` and `Fin 16` in every file, without the search that
would otherwise find them.
-/

set_option autoImplicit false

namespace Rustarmic

abbrev U8 := BitVec 8
abbrev U16 := BitVec 16
abbrev U32 := BitVec 32
abbrev U64 := BitVec 64
abbrev U128 := BitVec 128

/-- `0`, …, `3` name the argument slots of a node, the registers of a group, the rows of a state. -/
instance (priority := 2000) slots_neZero : NeZero (4 : Nat) := ⟨by decide⟩

/-- `0`, …, `15` name the bytes of a vector. -/
instance (priority := 2000) bytes_neZero : NeZero (16 : Nat) := ⟨by decide⟩

/-- `i64::MAX`, the largest value a signed 64-bit counter holds. -/
def i64Max : Nat := 2 ^ 63 - 1

/-- `i32::MAX`. -/
def i32Max : Nat := 2 ^ 31 - 1

def numGprs : Nat := 31

def numVregs : Nat := 32

def zrEncoding : Nat := 31

/-- The condition of a conditional instruction, in encoding order. -/
inductive Cond where
  | eq | ne | cs | cc | mi | pl | vs | vc | hi | ls | ge | lt | gt | le | al | nv
  deriving DecidableEq, Repr

namespace Cond

/-- The condition whose encoding is the low four bits of `b`. -/
def fromBits (b : U8) : Cond :=
  match (b &&& 0xF#8).toNat with
  | 0 => eq | 1 => ne | 2 => cs | 3 => cc | 4 => mi | 5 => pl | 6 => vs | 7 => vc
  | 8 => hi | 9 => ls | 10 => ge | 11 => lt | 12 => gt | 13 => le | 14 => al | _ => nv

end Cond

/-- The guest flags as the context stores them: `N` in bit 3 down to `V` in bit 0. -/
structure Nzcv where
  bits : U8
  deriving DecidableEq, Repr

namespace Nzcv

def nBit : U8 := 1#8 <<< 3
def zBit : U8 := 1#8 <<< 2
def cBit : U8 := 1#8 <<< 1
def vBit : U8 := 1#8 <<< 0

def n (f : Nzcv) : Bool := f.bits &&& nBit ≠ 0#8
def z (f : Nzcv) : Bool := f.bits &&& zBit ≠ 0#8
def c (f : Nzcv) : Bool := f.bits &&& cBit ≠ 0#8
def v (f : Nzcv) : Bool := f.bits &&& vBit ≠ 0#8

/-- Whether the flags satisfy a condition. -/
def check (f : Nzcv) : Cond → Bool
  | .eq => f.z
  | .ne => !f.z
  | .cs => f.c
  | .cc => !f.c
  | .mi => f.n
  | .pl => !f.n
  | .vs => f.v
  | .vc => !f.v
  | .hi => f.c && !f.z
  | .ls => !(f.c && !f.z)
  | .ge => f.n == f.v
  | .lt => f.n != f.v
  | .gt => !f.z && (f.n == f.v)
  | .le => !(!f.z && (f.n == f.v))
  | .al | .nv => true

end Nzcv

/-- Bit `f` of entry `c` says whether the flags `f` satisfy the condition `c`. -/
def condTruth : Cond → U16
  | .eq => 0xF0F0 | .ne => 0x0F0F | .cs => 0xCCCC | .cc => 0x3333
  | .mi => 0xFF00 | .pl => 0x00FF | .vs => 0xAAAA | .vc => 0x5555
  | .hi => 0x0C0C | .ls => 0xF3F3 | .ge => 0xAA55 | .lt => 0x55AA
  | .gt => 0x0A05 | .le => 0xF5FA | .al => 0xFFFF | .nv => 0xFFFF

end Rustarmic
