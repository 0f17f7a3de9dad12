import Rustarmic.Ir.Eval
import Rustarmic.Lib.Checksum

/-!
# Carries, conditions, products, quotients and checksums

What the integer nodes with a rule of their own do: those that read the flags as a value, the high
halves of products, the guarded divisions, and the checksums.

* `Armlet.integerStep` — the nodes.
* `Armlet.dataStep` — these and the nodes of `Armlet.step`.

`Ir.Eval` gives the nodes that the constant folder knows the meaning that the folder gives them.
The nodes here are not folded, so their meaning is what the backend emits for them: the host's
instruction, with the tests around it that keep it from trapping.  The definitions follow that code
and not the manual of the guest.  `sbb` subtracts a borrow where the architecture adds a carry,
`div` is behind a test for zero, `idiv` behind another one for minus one, and the checksums use
reflected polynomials; that all of this is what the guest's instructions mean is proved where the
translators are.

Flags in a register are a value of type `nzcv`, and a select looks its condition up by the low bits
of it.
-/

set_option autoImplicit false

namespace Rustarmic

open Checksum

/-! ## The operations of the host -/

section host

variable {w : Nat} (x y : BitVec w) (carry : Bool)

/-- `adc`: the sum with the carry flag. -/
def hostAdc : BitVec w := x + y + BitVec.ofNat w carry.toNat

/-- `sbb`: the difference, less the carry flag. -/
def hostSbb : BitVec w := x - y - BitVec.ofNat w carry.toNat

def inRange (w : Nat) (v : Int) : Bool := -2 ^ (w - 1) ≤ v && v < 2 ^ (w - 1)

/-- The flags behind `adc`. -/
def adcFlags : U8 :=
  packNzcv (hostAdc x y carry).msb (hostAdc x y carry == 0#w) (2 ^ w ≤ x.toNat + y.toNat + carry.toNat)
    !inRange w (x.toInt + y.toInt + carry.toNat)

/-- The flags behind `sbb`, with the carry turned into the absence of a borrow. -/
def sbbFlags : U8 :=
  packNzcv (hostSbb x y carry).msb (hostSbb x y carry == 0#w) (!decide (x.toNat < y.toNat + carry.toNat))
    !inRange w (x.toInt - y.toInt - carry.toNat)

/-- `mul` and `imul`: the high half of the product. -/
def mulHigh (signed : Bool) : BitVec w :=
  let extend (v : BitVec w) : BitVec (2 * w) := if signed then v.signExtend (2 * w) else v.setWidth (2 * w)
  ((extend x * extend y) >>> w).setWidth w

/-- `div` behind its test. -/
def guardedDiv : BitVec w := if y = 0 then 0 else x / y

/-- `idiv` behind its tests: the least number is not divided by minus one. -/
def guardedSdiv : BitVec w :=
  if y = 0 then 0 else if y = -1 ∧ x = BitVec.intMin w then x else x.sdiv y

end host

/-- The reflected polynomials. -/
def crcPolynomial (op : Op) : U32 :=
  if op.base = Op.crc32Ieee8.base then 0xEDB88320#32 else 0x82F63B78#32

/-- The condition of a select, for flags in a register. -/
def condHolds (imm : U64) (nzcv : Value) : Bool :=
  (condTruth (Cond.fromBits (imm.setWidth 8))).getLsbD (nzcv.lo32.toNat % 32)

namespace Armlet

variable (a : Armlet) (f : Frame) (n : ValueRef)

/-- The nodes that read flags as a value, and those whose operation the folder does not know. -/
def integerStep : Option Frame :=
  let x := a.arg f 0
  let y := a.arg f 1
  let carry := (a.arg f 2).lo32.getLsbD 1
  let flags (nzcv : U8) : Frame := { f with machine := { f.machine with nzcv } }
  let define32 (r : U32) := some (f.define n (.ofU32 a.ty r))
  let define64 (r : U64) := some (f.define n (.ofU64 a.ty r))
  match a.op with
  | .csel32 => define32 (if condHolds a.imm (a.arg f 2) then x.lo32 else y.lo32)
  | .csel64 => define64 (if condHolds a.imm (a.arg f 2) then x.lo64 else y.lo64)
  | .adc32 => define32 (hostAdc x.lo32 y.lo32 carry)
  | .adc64 => define64 (hostAdc x.lo64 y.lo64 carry)
  | .sbc32 => define32 (hostSbb x.lo32 y.lo32 !carry)
  | .sbc64 => define64 (hostSbb x.lo64 y.lo64 !carry)
  | .adcs32 =>
    some ((flags (adcFlags x.lo32 y.lo32 carry)).define n (.ofU32 a.ty (hostAdc x.lo32 y.lo32 carry)))
  | .adcs64 =>
    some ((flags (adcFlags x.lo64 y.lo64 carry)).define n (.ofU64 a.ty (hostAdc x.lo64 y.lo64 carry)))
  | .sbcs32 =>
    some ((flags (sbbFlags x.lo32 y.lo32 !carry)).define n (.ofU32 a.ty (hostSbb x.lo32 y.lo32 !carry)))
  | .sbcs64 =>
    some ((flags (sbbFlags x.lo64 y.lo64 !carry)).define n (.ofU64 a.ty (hostSbb x.lo64 y.lo64 !carry)))
  | .uMulH64 => define64 (mulHigh x.lo64 y.lo64 false)
  | .sMulH64 => define64 (mulHigh x.lo64 y.lo64 true)
  | .uDiv32 => define32 (guardedDiv x.lo32 y.lo32)
  | .uDiv64 => define64 (guardedDiv x.lo64 y.lo64)
  | .sDiv32 => define32 (guardedSdiv x.lo32 y.lo32)
  | .sDiv64 => define64 (guardedSdiv x.lo64 y.lo64)
  | .crc32Ieee8 | .crc32Ieee16 | .crc32Ieee32 | .crc32Ieee64 | .crc32Castagnoli8
  | .crc32Castagnoli16 | .crc32Castagnoli32 | .crc32Castagnoli64 =>
    define32 (bytes (crcPolynomial a.op) a.op.sizeBytes x.lo32 y.lo64)
  | _ => none

/-- What node `n` does, these nodes included. -/
def dataStep (n : ValueRef) (a : Armlet) (f : Frame) : Option Frame :=
  a.step n f <|> a.integerStep f n

theorem dataStep_of_step {n : ValueRef} {a : Armlet} {f f' : Frame} (h : a.step n f = some f') :
    a.dataStep n f = some f' := by
  rw [dataStep, h]
  rfl

end Armlet

end Rustarmic
