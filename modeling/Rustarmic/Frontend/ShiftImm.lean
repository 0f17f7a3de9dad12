import Rustarmic.Frontend.Translator
import Rustarmic.Frontend.VectorEmitter
import Rustarmic.Interp.ShiftImm

/-!
# Translating shifts by an immediate

The inline translators of the vector and of the scalar class.  A rounding shift adds the last bit it
discards, so that nothing overflows; a shift with insertion keeps the bits of the destination under
a mask.  The conversions from floating point, which are in the same classes, are an argument.

* `Asimdshf.translate`, `Asisdshf.translateScalar` — the translators.
* `Asimdshf.form`, `Asisdshf.form` — which shift an instruction is.

The forms are shared with the out-of-line helper: `ShiftForm` says what a shift is for, and both the
helper and the translators are compared with it.

* **Scalars are made with integer nodes**, on 64 bits.  The host masks a count to six bits there, so
  that a shift to the right by 64 would be none; the translator emits a shift by 63 for a signed one
  and a constant zero for an unsigned one.
* **Vectors are made with vector nodes**, which shift by the whole width as the guest does.
* **Destinations are read first.**  A form that accumulates or inserts needs the old contents, and
  the source register may be the same one; reading comes before writing in the node order.

That all of this computes the form is in `Frontend.ShiftExact`.
-/

set_option autoImplicit false

namespace Rustarmic

open Emitting Interp Lanes Packed VectorCode

/-! ## The translators -/

/-- The decoder's class of vector shifts by an immediate; what else it holds is not translated. -/
inductive Asimdshf where
  | sliVdVnImmVlsl (i : U32)
  | sriVdVnImmVlsr (i : U32)
  | sshllVdVnImmVlsl (i : U32)
  | sshll2VdVnImmVlsl (i : U32)
  | ushllVdVnImmVlsl (i : U32)
  | ushll2VdVnImmVlsl (i : U32)
  | ssraVdVnImmVlsr (i : U32)
  | usraVdVnImmVlsr (i : U32)
  | srshrVdVnImmVlsr (i : U32)
  | urshrVdVnImmVlsr (i : U32)
  | srsraVdVnImmVlsr (i : U32)
  | ursraVdVnImmVlsr (i : U32)
  | fcvtzsVdVnImmVlsr (i : U32)
  | fcvtzsVdV2sVnV2sImmVlsrV2s (i : U32)
  | fcvtzuVdVnImmVlsr (i : U32)
  | fcvtzuVdV2sVnV2sImmVlsrV2s (i : U32)
  | shlVdVnImmVlsl (i : U32)
  | ushrVdVnImmVlsr (i : U32)
  | sshrVdVnImmVlsr (i : U32)
  | shrnVdVnImmVlsr (i : U32)
  | shrn2VdVnImmVlsr (i : U32)
  | other (i : U32)

/-- The class of scalar shifts. -/
inductive Asisdshf where
  | sliSdSnImmVlsl (i : U32)
  | sriSdSnImmVlsr (i : U32)
  | ssraSdSnImmVlsr (i : U32)
  | usraSdSnImmVlsr (i : U32)
  | srshrSdSnImmVlsr (i : U32)
  | urshrSdSnImmVlsr (i : U32)
  | srsraSdSnImmVlsr (i : U32)
  | ursraSdSnImmVlsr (i : U32)
  | sshrSdSnImmVlsr (i : U32)
  | ushrSdSnImmVlsr (i : U32)
  | shlSdSnImmVlsl (i : U32)
  | fcvtzsSdSnImmVlsr (i : U32)
  | fcvtzsSdSSSnSSImmVlsrSS (i : U32)
  | fcvtzuSdSnImmVlsr (i : U32)
  | fcvtzuSdSSSnSSImmVlsrSS (i : U32)
  | other (i : U32)

inductive ShiftKind where
  | shl | ushr | sshr | shrn | shrn2
  deriving DecidableEq, Repr

namespace ShiftImm

variable (em : IrEmitter)

def unsupported (opcode : U32) : Emit InstStatus := .fail (.error (.unsupported em.currentPc opcode))

/-- The lane sizes that a shift has no form for. -/
def Reserved (raw : U32) (scalar : Bool) : Prop :=
  bits raw 19 4 = 0 ∨ (scalar ∧ bits raw 19 4 &&& 8 = 0) ∨
    (¬ scalar ∧ bits raw 19 4 &&& 8 ≠ 0 ∧ bit raw 30 = 0)

instance (raw : U32) (scalar : Bool) : Decidable (Reserved raw scalar) :=
  inferInstanceAs (Decidable (_ ∨ _))

/-- The bits of the destination that SLI and SRI keep. -/
def preservedMask (left : Bool) (width shift : Nat) : U64 :=
  let laneMask := BitVec.allOnes 64 >>> (64 - width)
  if left then (1#64 <<< shift) - 1#64
  else if shift = 64 then BitVec.allOnes 64
  else laneMask ^^^ (laneMask >>> shift)

/-- The source of a scalar insertion in its place. -/
def insertScalar (left : Bool) (shift : Nat) (source : ValueRef) : Emit ValueRef :=
  if !left ∧ shift = 64 then em.constU64 0#64
  else do
    let amount ← em.constU64 (BitVec.ofNat 64 shift)
    if left then em.lsl source amount .x else em.lsr source amount .x

def insertVector (left : Bool) (size shift : Nat) (q : Bool) (source : ValueRef) : Emit ValueRef :=
  if left then em.vecShlImm source size shift q else em.vecUshrImm source size shift q

def translateInsert (raw : U32) (scalar left : Bool) : Emit InstStatus :=
  let q := bit raw 30 != 0
  let size := immSize raw
  let width := 8 <<< size
  let shift := if left then bits raw 16 7 - width else 2 * width - bits raw 16 7
  let rn := regField raw 5
  let rd := regField raw 0
  if Reserved raw scalar then unsupported em raw
  else if scalar then do
    let source ← em.getVD rn
    let old ← em.getVD rd
    let shifted ← insertScalar em left shift source
    let mask ← em.constU64 (preservedMask left width shift)
    let retained ← em.and old mask .x
    let result ← em.or shifted retained .x
    em.setVD rd result
    return .continues
  else do
    let source ← em.getVQ rn
    let old ← em.getVQ rd
    let shifted ← insertVector em left size shift q source
    let mask ← em.constU64 (preservedMask left width shift)
    let mask ← em.vecDupGpr mask size q
    let retained ← em.vecAnd old mask q
    let result ← em.vecOrr shifted retained q
    em.setVQ rd result
    return .continues

/-- The truncated shift of a scalar.  Shifts of the host mask a count of 64. -/
def rightScalar (signed : Bool) (shift : Nat) (source : ValueRef) : Emit ValueRef :=
  if signed then do
    let amount ← em.constU64 (BitVec.ofNat 64 (min shift 63))
    em.asr source amount .x
  else if shift = 64 then em.constU64 0#64
  else do
    let amount ← em.constU64 (BitVec.ofNat 64 shift)
    em.lsr source amount .x

def rightVector (signed : Bool) (size shift : Nat) (q : Bool) (source : ValueRef) : Emit ValueRef :=
  if signed then em.vecSshrImm source size shift q else em.vecUshrImm source size shift q

/-- The last discarded bit is added. -/
def roundScalar (rounded : Bool) (shift : Nat) (source shifted : ValueRef) : Emit ValueRef :=
  if rounded then do
    let amount ← em.constU64 (BitVec.ofNat 64 (shift - 1))
    let discarded ← em.lsr source amount .x
    let one ← em.constU64 1#64
    let roundBit ← em.and discarded one .x
    em.add shifted roundBit .x
  else pure shifted

def roundVector (rounded : Bool) (size shift : Nat) (q : Bool) (source shifted : ValueRef) :
    Emit ValueRef :=
  if rounded then do
    let discarded ← em.vecUshrImm source size (shift - 1) q
    let one ← em.constU64 1#64
    let ones ← em.vecDupGpr one size q
    let roundBit ← em.vecAnd discarded ones q
    em.vecAdd shifted roundBit size q
  else pure shifted

/-- The destination, which is read before it is written. -/
def accumulator (accumulate : Bool) (get : Emit ValueRef) : Emit (Option ValueRef) :=
  if accumulate then do
    let accumulator ← get
    return some accumulator
  else pure none

def addTo (accumulator : Option ValueRef) (add : ValueRef → ValueRef → Emit ValueRef)
    (shifted : ValueRef) : Emit ValueRef :=
  match accumulator with
  | some accumulator => add accumulator shifted
  | none => pure shifted

def translateRight (raw : U32) (scalar signed rounded accumulate : Bool) : Emit InstStatus :=
  let q := bit raw 30 != 0
  let size := immSize raw
  let width := 8 <<< size
  let shift := 2 * width - bits raw 16 7
  let rn := regField raw 5
  let rd := regField raw 0
  if Reserved raw scalar then unsupported em raw
  else if scalar then do
    let source ← em.getVD rn
    let acc ← accumulator accumulate (em.getVD rd)
    let shifted ← rightScalar em signed shift source
    let shifted ← roundScalar em rounded shift source shifted
    let result ← addTo acc (em.add · · .x) shifted
    em.setVD rd result
    return .continues
  else do
    let source ← em.getVQ rn
    let acc ← accumulator accumulate (em.getVQ rd)
    let shifted ← rightVector em signed size shift q source
    let shifted ← roundVector em rounded size shift q source shifted
    let result ← addTo acc (em.vecAdd · · size q) shifted
    em.setVQ rd result
    return .continues

def translateAccumulate (raw : U32) (scalar signed : Bool) : Emit InstStatus :=
  translateRight em raw scalar signed false true

/-- Zero is added to one half, which widens it. -/
def widen (signed : Bool) (source zeros : ValueRef) (size : Nat) (upper : Bool) : Emit ValueRef :=
  if signed then em.vecSaddl source zeros size upper else em.vecUaddl source zeros size upper

def translateWidenShift (raw : U32) (signed : Bool) : Emit InstStatus :=
  let size := immSize raw
  let shift := bits raw 16 7 - (8 <<< size)
  let upper := bit raw 30 != 0
  if bits raw 19 4 = 0 ∨ bits raw 19 4 &&& 8 ≠ 0 then unsupported em raw
  else do
    let source ← em.getVQ (regField raw 5)
    let z ← em.constU64 0#64
    let zeros ← em.vecBuildQ z z
    let widened ← widen em signed source zeros size upper
    let result ← em.vecShlImm widened (size + 1) shift true
    em.setVQ (regField raw 0) result
    return .continues

/-- The lane size by the top bit of `immh`. -/
def laneLog2 (immh : Nat) : Nat :=
  if immh &&& 0b1000 ≠ 0 then 3 else if immh &&& 0b0100 ≠ 0 then 2
  else if immh &&& 0b0010 ≠ 0 then 1 else 0

/-- The shifted vector, or its narrowed lanes. -/
def kindResult (kind : ShiftKind) (rd : U8) (vn : ValueRef) (lane shift : Nat) (q : Bool) :
    Emit ValueRef :=
  match kind with
  | .shl => em.vecShlImm vn lane shift q
  | .ushr => em.vecUshrImm vn lane shift q
  | .sshr => em.vecSshrImm vn lane shift q
  | .shrn => do
    let shifted ← em.vecUshrImm vn (lane + 1) shift true
    em.vecXtn shifted (lane + 1)
  | .shrn2 => do
    let shifted ← em.vecUshrImm vn (lane + 1) shift true
    let vdPrev ← em.getVQ rd
    em.vecXtn2 vdPrev shifted (lane + 1)

/-- What `translate` does with SHL, USHR, SSHR, SHRN and SHRN2. -/
def translateKind (raw : U32) (kind : ShiftKind) : Emit InstStatus :=
  let q := bit raw 30 == 1
  let immh := bits raw 19 4
  let lane := laneLog2 immh
  let laneBits := 8 <<< lane
  let immhb := (immh <<< 3) ||| bits raw 16 3
  let shift := if kind = .shl then immhb - laneBits else 2 * laneBits - immhb
  let narrow := kind = .shrn ∨ kind = .shrn2
  if immh = 0 then .fail (.error (.decode em.currentPc raw))
  else if immh &&& 8 ≠ 0 ∧ (narrow ∨ ¬ q) then unsupported em raw
  else do
    let vn ← em.getVQ (regField raw 5)
    let result ← kindResult em kind (regField raw 0) vn lane shift q
    em.setVQ (regField raw 0) result
    return .continues

/-- The scalar SHL, which is made with an integer shift. -/
def translateShlScalar (raw : U32) : Emit InstStatus :=
  if bits raw 19 4 &&& 8 = 0 then unsupported em raw
  else do
    let source ← em.getVD (regField raw 5)
    let amount ← em.constU64 (BitVec.ofNat 64 (bits raw 16 7 - 64))
    let result ← em.lsl source amount .x
    em.setVD (regField raw 0) result
    return .continues

end ShiftImm

section translators

open ShiftImm

variable (fixedFloatToInt : IrEmitter → U32 → Bool → Bool → Emit InstStatus) (em : IrEmitter)

def Asimdshf.translate : Asimdshf → Emit InstStatus
  | sliVdVnImmVlsl i => translateInsert em i false true
  | sriVdVnImmVlsr i => translateInsert em i false false
  | sshllVdVnImmVlsl i => translateWidenShift em i true
  | sshll2VdVnImmVlsl i => translateWidenShift em i true
  | ushllVdVnImmVlsl i => translateWidenShift em i false
  | ushll2VdVnImmVlsl i => translateWidenShift em i false
  | ssraVdVnImmVlsr i => translateAccumulate em i false true
  | usraVdVnImmVlsr i => translateAccumulate em i false false
  | srshrVdVnImmVlsr i => translateRight em i false true true false
  | urshrVdVnImmVlsr i => translateRight em i false false true false
  | srsraVdVnImmVlsr i => translateRight em i false true true true
  | ursraVdVnImmVlsr i => translateRight em i false false true true
  | fcvtzsVdVnImmVlsr i | fcvtzsVdV2sVnV2sImmVlsrV2s i => fixedFloatToInt em i false false
  | fcvtzuVdVnImmVlsr i | fcvtzuVdV2sVnV2sImmVlsrV2s i => fixedFloatToInt em i false true
  | shlVdVnImmVlsl i => translateKind em i .shl
  | ushrVdVnImmVlsr i => translateKind em i .ushr
  | sshrVdVnImmVlsr i => translateKind em i .sshr
  | shrnVdVnImmVlsr i => translateKind em i .shrn
  | shrn2VdVnImmVlsr i => translateKind em i .shrn2
  | other _ => unsupported em 0

def Asisdshf.translateScalar : Asisdshf → Emit InstStatus
  | sliSdSnImmVlsl i => translateInsert em i true true
  | sriSdSnImmVlsr i => translateInsert em i true false
  | ssraSdSnImmVlsr i => translateAccumulate em i true true
  | usraSdSnImmVlsr i => translateAccumulate em i true false
  | srshrSdSnImmVlsr i => translateRight em i true true true false
  | urshrSdSnImmVlsr i => translateRight em i true false true false
  | srsraSdSnImmVlsr i => translateRight em i true true true true
  | ursraSdSnImmVlsr i => translateRight em i true false true true
  | sshrSdSnImmVlsr i => translateRight em i true true false false
  | ushrSdSnImmVlsr i => translateRight em i true false false false
  | shlSdSnImmVlsl i => translateShlScalar em i
  | fcvtzsSdSnImmVlsr i | fcvtzsSdSSSnSSImmVlsrSS i => fixedFloatToInt em i true false
  | fcvtzuSdSnImmVlsr i | fcvtzuSdSSSnSSImmVlsrSS i => fixedFloatToInt em i true true
  | other _ => unsupported em 0

end translators

/-- The word of a shift and its form; a conversion is none. -/
def Asimdshf.form : Asimdshf → Option (U32 × ShiftForm)
  | sliVdVnImmVlsl i => some (i, .insert true)
  | sriVdVnImmVlsr i => some (i, .insert false)
  | sshllVdVnImmVlsl i | sshll2VdVnImmVlsl i => some (i, .widen false)
  | ushllVdVnImmVlsl i | ushll2VdVnImmVlsl i => some (i, .widen true)
  | ssraVdVnImmVlsr i => some (i, .right false false true)
  | usraVdVnImmVlsr i => some (i, .right true false true)
  | srshrVdVnImmVlsr i => some (i, .right false true false)
  | urshrVdVnImmVlsr i => some (i, .right true true false)
  | srsraVdVnImmVlsr i => some (i, .right false true true)
  | ursraVdVnImmVlsr i => some (i, .right true true true)
  | shlVdVnImmVlsl i => some (i, .shl)
  | ushrVdVnImmVlsr i => some (i, .right true false false)
  | sshrVdVnImmVlsr i => some (i, .right false false false)
  | shrnVdVnImmVlsr i => some (i, .narrow false)
  | shrn2VdVnImmVlsr i => some (i, .narrow true)
  | _ => none

def Asisdshf.form : Asisdshf → Option (U32 × ShiftForm)
  | sliSdSnImmVlsl i => some (i, .insert true)
  | sriSdSnImmVlsr i => some (i, .insert false)
  | ssraSdSnImmVlsr i => some (i, .right false false true)
  | usraSdSnImmVlsr i => some (i, .right true false true)
  | srshrSdSnImmVlsr i => some (i, .right false true false)
  | urshrSdSnImmVlsr i => some (i, .right true true false)
  | srsraSdSnImmVlsr i => some (i, .right false true true)
  | ursraSdSnImmVlsr i => some (i, .right true true true)
  | sshrSdSnImmVlsr i => some (i, .right false false false)
  | ushrSdSnImmVlsr i => some (i, .right true false false)
  | shlSdSnImmVlsl i => some (i, .shl)
  | _ => none

end Rustarmic
