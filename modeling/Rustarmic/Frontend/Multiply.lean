import Rustarmic.Frontend.AddSub
import Rustarmic.Frontend.IntegerEmitter
import Rustarmic.Guest.DataProcessing

/-!
# Translating products, variable shifts, quotients and checksums

The classes with two and with three register operands.

* `Dp3src.translate`, `Dp2src.translate` — the translators.
* `computes_widenWToX` — a register of 32 bits, widened by a mask and two shifts.
* `multiplyAdd_eq` — products by machine arithmetic.

The manual multiplies integers and takes the low bits at the end.  The code multiplies machine
words, and for the long products (SMADDL and its siblings) words that have been widened before.
That the two agree is `multiplyAdd_eq`, and it holds since the low bits of a product depend on the
low bits of its factors only, once the factors are as wide as the result; the one exception is the
high half of a product, which has an operation of its own.

* **Shifts by a register** take the amount modulo the width, on the host as in the manual.
* **Quotients** by zero are zero, and the least number divided by minus one is itself; the host
  would trap on both, so the code tests for them (`guardedDiv`, `guardedSdiv`).
* **Checksums** are computed with the reflected polynomials (`Lib.Checksum`).  Their translator
  picks the operation by the fields of the word and not by the variant that the decoder has chosen,
  so that it is right only if the two agree: `Dp2src.Decoded` says so, and it is what the decoder's
  patterns fix.
-/

set_option autoImplicit false

namespace Rustarmic

open Emitting Interp

/-! ## Three sources -/

/-- The decoder's class of instructions with three sources. -/
inductive Dp3src where
  | maddRdRnRmRa (i : U32)
  | msubRdRnRmRa (i : U32)
  | smaddlRdRnRmRa (i : U32)
  | umaddlRdRnRmRa (i : U32)
  | smsublRdRnRmRa (i : U32)
  | umsublRdRnRmRa (i : U32)
  | umulhRdRnRm (i : U32)
  | smulhRdRnRm (i : U32)

namespace Dp3src

inductive Kind where
  | madd | msub | smaddl | umaddl | smsubl | umsubl | umulh | smulh
  deriving DecidableEq, Repr

def fields : Dp3src → U32 × Kind
  | maddRdRnRmRa i => (i, .madd)
  | msubRdRnRmRa i => (i, .msub)
  | smaddlRdRnRmRa i => (i, .smaddl)
  | umaddlRdRnRmRa i => (i, .umaddl)
  | smsublRdRnRmRa i => (i, .smsubl)
  | umsublRdRnRmRa i => (i, .umsubl)
  | umulhRdRnRm i => (i, .umulh)
  | smulhRdRnRm i => (i, .smulh)

/-- A register of 32 bits as one of 64. -/
def widenWToX (em : IrEmitter) (v : ValueRef) (signed : Bool) : Emit ValueRef := do
  let mask ← em.constU64 0xFFFFFFFF
  let masked ← em.and v mask .x
  if signed then do
    let shl ← em.constU64 32
    let s1 ← em.lsl masked shl .x
    let shl2 ← em.constU64 32
    em.asr s1 shl2 .x
  else pure masked

def emitSum (em : IrEmitter) (subtracts : Bool) (a prod : ValueRef) (size : RegSize) : Emit ValueRef :=
  if subtracts then em.sub a prod size else em.add a prod size

/-- The products of a register's width. -/
def emitMultiply (em : IrEmitter) (raw : U32) (subtracts : Bool) : Emit InstStatus := do
  let size := sizeOf (bit raw 31)
  let n ← em.getGpr (regField raw 5) size
  let m ← em.getGpr (regField raw 16) size
  let a ← em.getGpr (regField raw 10) size
  let prod ← em.binary .mul32 .mul64 n m size
  let result ← emitSum em subtracts a prod size
  em.setGpr (regField raw 0) result size
  return .continues

/-- The high halves of products. -/
def emitHigh (em : IrEmitter) (raw : U32) (signed : Bool) : Emit InstStatus := do
  let n ← em.getX (regField raw 5)
  let m ← em.getX (regField raw 16)
  let hi ← em.push ((Armlet.new (if signed then .sMulH64 else .uMulH64) .u64).withArgs [n, m])
  em.setX (regField raw 0) hi
  return .continues

/-- The products of two registers of 32 bits. -/
def emitLong (em : IrEmitter) (raw : U32) (signed subtracts : Bool) : Emit InstStatus := do
  let n ← em.getW (regField raw 5)
  let m ← em.getW (regField raw 16)
  let a ← em.getX (regField raw 10)
  let n64 ← widenWToX em n signed
  let m64 ← widenWToX em m signed
  let prod ← em.binary .mul32 .mul64 n64 m64 .x
  let result ← emitSum em subtracts a prod .x
  em.setX (regField raw 0) result
  return .continues

def translate (em : IrEmitter) (insn : Dp3src) : Emit InstStatus :=
  let (raw, kind) := insn.fields
  match kind with
  | .madd => emitMultiply em raw false
  | .msub => emitMultiply em raw true
  | .umulh => emitHigh em raw false
  | .smulh => emitHigh em raw true
  | .smaddl => emitLong em raw true false
  | .umaddl => emitLong em raw false false
  | .smsubl => emitLong em raw true true
  | .umsubl => emitLong em raw false true

/-- The instruction of the architecture. -/
def arm (insn : Dp3src) : Option (Machine → Machine) :=
  let (raw, kind) := insn.fields
  let product (K N : Nat) (signed sub : Bool) (m : Machine) : Machine :=
    Guest.setX m (bits raw 0 5) (Guest.multiplyAdd signed sub (Guest.X K m (bits raw 5 5))
      (Guest.X K m (bits raw 16 5)) (Guest.X N m (bits raw 10 5)))
  let high (signed : Bool) (m : Machine) : Machine :=
    Guest.setX m (bits raw 0 5)
      (Guest.multiplyHigh signed (Guest.X 64 m (bits raw 5 5)) (Guest.X 64 m (bits raw 16 5)))
  let N := (sizeOf (bit raw 31)).bits
  some (match kind with
    | .madd => product N N false false
    | .msub => product N N false true
    | .smaddl => product 32 64 true false
    | .umaddl => product 32 64 false false
    | .smsubl => product 32 64 true true
    | .umsubl => product 32 64 false true
    | .umulh => high false
    | .smulh => high true)

end Dp3src

/-! ## Two sources -/

/-- The decoder's class of instructions with two sources; what else it holds is not translated. -/
inductive Dp2src where
  | lslvRdRnRm (i : U32)
  | lsrvRdRnRm (i : U32)
  | asrvRdRnRm (i : U32)
  | rorvRdRnRm (i : U32)
  | udivRdRnRm (i : U32)
  | sdivRdRnRm (i : U32)
  | crc32bRdRnRm (i : U32)
  | crc32hRdRnRm (i : U32)
  | crc32wRdRnRm (i : U32)
  | crc32xRdRnRm (i : U32)
  | crc32cbRdRnRm (i : U32)
  | crc32chRdRnRm (i : U32)
  | crc32cwRdRnRm (i : U32)
  | crc32cxRdRnRm (i : U32)
  | other (i : U32)

namespace Dp2src

inductive Kind where
  | lslv | lsrv | asrv | rorv | udiv | sdiv
  deriving DecidableEq, Repr

/-- The operation of a checksum, by its bit and its field. -/
def crcOp (c width : Nat) : Op :=
  match c, width with
  | 0, 0 => .crc32Ieee8
  | 0, 1 => .crc32Ieee16
  | 0, 2 => .crc32Ieee32
  | 0, _ => .crc32Ieee64
  | _, 0 => .crc32Castagnoli8
  | _, 1 => .crc32Castagnoli16
  | _, 2 => .crc32Castagnoli32
  | _, _ => .crc32Castagnoli64

/-- The accumulator and the result are registers of 32 bits for every width of the data. -/
def translateCrc (em : IrEmitter) (raw : U32) : Emit InstStatus := do
  let width := bits raw 10 2
  let accumulator ← em.getW (regField raw 5)
  let value ← em.getGpr (regField raw 16) (if width = 3 then .x else .w)
  let result ← em.push ((Armlet.new (crcOp (bit raw 12) width) .u32).withArgs [accumulator, value])
  em.setW (regField raw 0) result
  return .continues

def emitResult (em : IrEmitter) (kind : Kind) (n m : ValueRef) (size : RegSize) : Emit ValueRef :=
  match kind with
  | .lslv => em.lsl n m size
  | .lsrv => em.lsr n m size
  | .asrv => em.asr n m size
  | .rorv => em.ror n m size
  | .udiv => em.sizedNode .uDiv32 .uDiv64 [n, m] size
  | .sdiv => em.sizedNode .sDiv32 .sDiv64 [n, m] size

def translateKind (em : IrEmitter) (raw : U32) (kind : Kind) : Emit InstStatus := do
  let size := sizeOf (bit raw 31)
  let n ← em.getGpr (regField raw 5) size
  let m ← em.getGpr (regField raw 16) size
  let result ← emitResult em kind n m size
  em.setGpr (regField raw 0) result size
  return .continues

def translate (em : IrEmitter) : Dp2src → Emit InstStatus
  | lslvRdRnRm i => translateKind em i .lslv
  | lsrvRdRnRm i => translateKind em i .lsrv
  | asrvRdRnRm i => translateKind em i .asrv
  | rorvRdRnRm i => translateKind em i .rorv
  | udivRdRnRm i => translateKind em i .udiv
  | sdivRdRnRm i => translateKind em i .sdiv
  | crc32bRdRnRm i | crc32hRdRnRm i | crc32wRdRnRm i | crc32xRdRnRm i | crc32cbRdRnRm i | crc32chRdRnRm i
  | crc32cwRdRnRm i | crc32cxRdRnRm i => translateCrc em i
  | other _ => .fail (.error (.unsupported em.currentPc 0))

/-- Whether a checksum is of the second polynomial, and the logarithm of the bytes of its data. -/
def crcFields : Dp2src → Option (U32 × Bool × Nat)
  | crc32bRdRnRm i => some (i, false, 0)
  | crc32hRdRnRm i => some (i, false, 1)
  | crc32wRdRnRm i => some (i, false, 2)
  | crc32xRdRnRm i => some (i, false, 3)
  | crc32cbRdRnRm i => some (i, true, 0)
  | crc32chRdRnRm i => some (i, true, 1)
  | crc32cwRdRnRm i => some (i, true, 2)
  | crc32cxRdRnRm i => some (i, true, 3)
  | _ => none

/-- The fields by which the decoder told the checksums apart. -/
def Decoded (insn : Dp2src) : Prop :=
  ∀ raw c sz, insn.crcFields = some (raw, c, sz) → bit raw 12 = c.toNat ∧ bits raw 10 2 = sz

/-- The checksum of the architecture. -/
def armCrc (raw : U32) (c : Bool) (sz : Nat) (m : Machine) : Machine :=
  let poly : U32 := if c then 0x1EDC6F41 else 0x04C11DB7
  Guest.setX m (bits raw 0 5)
    (Guest.crc32 poly (Guest.X 32 m (bits raw 5 5)) (Guest.X (8 * 2 ^ sz) m (bits raw 16 5)))

/-- The other instructions of the architecture: the amount of a shift is taken modulo the width. -/
def Kind.arm {N : Nat} (x y : BitVec N) : Kind → BitVec N
  | .lslv => Guest.shiftReg x 0b00 (y.toNat % N)
  | .lsrv => Guest.shiftReg x 0b01 (y.toNat % N)
  | .asrv => Guest.shiftReg x 0b10 (y.toNat % N)
  | .rorv => Guest.shiftReg x 0b11 (y.toNat % N)
  | .udiv => Guest.divide false x y
  | .sdiv => Guest.divide true x y

def armKind (raw : U32) (kind : Kind) (m : Machine) : Machine :=
  let N := (sizeOf (bit raw 31)).bits
  Guest.setX m (bits raw 0 5) (kind.arm (Guest.X N m (bits raw 5 5)) (Guest.X N m (bits raw 16 5)))

def arm (insn : Dp2src) : Option (Machine → Machine) :=
  match insn with
  | lslvRdRnRm i => some (armKind i .lslv)
  | lsrvRdRnRm i => some (armKind i .lsrv)
  | asrvRdRnRm i => some (armKind i .asrv)
  | rorvRdRnRm i => some (armKind i .rorv)
  | udivRdRnRm i => some (armKind i .udiv)
  | sdivRdRnRm i => some (armKind i .sdiv)
  | insn => insn.crcFields.map fun p => armCrc p.1 p.2.1 p.2.2

end Dp2src

/-! ## Products -/

open IrEmitter

variable {em : IrEmitter} {n : Nat} {f : Frame}

/-- An operand of a product, as wide as the result. -/
def extendTo {K : Nat} (N : Nat) (signed : Bool) (x : BitVec K) : BitVec N :=
  if signed then x.signExtend N else x.setWidth N

@[simp] theorem extendTo_self {N : Nat} (signed : Bool) (x : BitVec N) : extendTo N signed x = x := by
  cases signed
  · exact BitVec.setWidth_eq x
  · exact BitVec.signExtend_eq x

/-- **Products by machine arithmetic.** -/
theorem multiplyAdd_eq {K N : Nat} (signed sub : Bool) (x y : BitVec K) (a : BitVec N) :
    Guest.multiplyAdd signed sub x y a =
      if sub then a - extendTo N signed x * extendTo N signed y
      else a + extendTo N signed x * extendTo N signed y := by
  have hvalue {w : Nat} (v : BitVec w) : BitVec.ofInt N (if signed then v.toInt else (v.toNat : Int)) =
      extendTo N signed v := by
    cases signed
    · rw [if_neg Bool.false_ne_true, BitVec.ofInt_natCast, BitVec.ofNat_toNat]
      rfl
    · rfl
  rw [Guest.multiplyAdd]
  cases sub
  · simp only [Bool.false_eq_true, if_false, BitVec.ofInt_add, BitVec.ofInt_mul, hvalue, extendTo_self]
  · simp only [if_true, Int.sub_eq_add_neg, BitVec.ofInt_add, BitVec.ofInt_neg, BitVec.ofInt_mul, hvalue,
      extendTo_self, BitVec.sub_eq_add_neg]

namespace Dp3src

theorem computes_widenWToX {v : ValueRef} (hv : v < n) (signed : Bool) {x : U32}
    (hx : f.value v = .ofU32 .u32 x) :
    Computes Armlet.dataStep (widenWToX em v signed) n f fun r => lowBits r .x = extendTo 64 signed x := by
  have heq : widenWToX em v signed = AddsubExt.emitExtend em 32 signed v := rfl
  rw [heq]
  refine Prog.wp_mono_step (fun _ _ _ _ => Armlet.dataStep_of_step)
    (Prog.wp_mono (computes_emitExtend (by decide) (by decide) hv signed) ?_)
  rintro r n1 f1 ⟨hle, hlt, hkeep, hval⟩
  refine ⟨hle, hlt, hkeep, Eq.trans hval ?_⟩
  rw [hx, Value.lo64_ofU32, BitVec.setWidth_setWidth_of_le x (by decide), BitVec.setWidth_eq]
  rfl

theorem wp_emitSum (subtracts : Bool) (a prod : ValueRef) (size : RegSize) {Q : ValueRef → Nat → Frame → Prop} :
    (emitSum em subtracts a prod size).wp Armlet.dataStep n f Q ↔ Q n (n + 1) (f.define n (sizedValue size
      (if subtracts then lowBits (f.value a) size - lowBits (f.value prod) size
        else lowBits (f.value a) size + lowBits (f.value prod) size))) := by
  cases subtracts
  · exact data_add size
  · exact data_sub size

theorem wp_emitMultiply (raw : U32) (sub : Bool) :
    (emitMultiply em raw sub).wp Armlet.dataStep n f fun st _ f' => st = .continues ∧
      f'.machine = Guest.setX f.machine (bits raw 0 5) (Guest.multiplyAdd false sub
        (Guest.X (sizeOf (bit raw 31)).bits f.machine (bits raw 5 5))
        (Guest.X (sizeOf (bit raw 31)).bits f.machine (bits raw 16 5))
        (Guest.X (sizeOf (bit raw 31)).bits f.machine (bits raw 10 5))) := by
  rw [emitMultiply]
  generalize sizeOf (bit raw 31) = size
  simp only [Prog.wp_bind, data_getGpr, data_mul, wp_emitSum, data_setGpr, Prog.wp_pure,
    multiplyAdd_eq, extendTo_self]
  refine ⟨trivial, ?_⟩
  simp [toNat_regField, Nat.add_assoc]
  rfl

theorem wp_emitHigh (raw : U32) (signed : Bool) :
    (emitHigh em raw signed).wp Armlet.dataStep n f fun st _ f' => st = .continues ∧
      f'.machine = Guest.setX f.machine (bits raw 0 5) (Guest.multiplyHigh signed
        (Guest.X 64 f.machine (bits raw 5 5)) (Guest.X 64 f.machine (bits raw 16 5))) := by
  rw [emitHigh]
  simp only [Prog.wp_bind, data_getX, data_mulh, data_setX, Prog.wp_pure, ← Guest.multiplyHigh_eq]
  refine ⟨trivial, ?_⟩
  simp [toNat_regField, Nat.add_assoc]
  rfl

theorem wp_emitLong (raw : U32) (signed sub : Bool) :
    (emitLong em raw signed sub).wp Armlet.dataStep n f fun st _ f' => st = .continues ∧
      f'.machine = Guest.setX f.machine (bits raw 0 5) (Guest.multiplyAdd signed sub
        (Guest.X 32 f.machine (bits raw 5 5)) (Guest.X 32 f.machine (bits raw 16 5))
        (Guest.X 64 f.machine (bits raw 10 5))) := by
  rw [emitLong, Prog.wp_bind, data_getW, Prog.wp_bind, data_getW, Prog.wp_bind, data_getX, Prog.wp_bind]
  refine Prog.wp_mono (computes_widenWToX (x := Guest.X 32 f.machine (bits raw 5 5)) (Nat.lt_add_right 2
    (Nat.lt_succ_self n)) signed ?_) ?_
  · simp [toNat_regField, Nat.add_assoc]
    rfl
  rintro n64 n1 f1 ⟨hle1, hlt1, hkeep1, hv1⟩
  rw [Prog.wp_bind]
  refine Prog.wp_mono (computes_widenWToX (x := Guest.X 32 f.machine (bits raw 16 5))
    (Nat.lt_of_lt_of_le (Nat.lt_succ_of_lt (Nat.lt_succ_self (n + 1))) hle1) signed ?_) ?_
  · rw [hkeep1.value _ (Nat.lt_succ_of_lt (Nat.lt_succ_self (n + 1)))]
    simp [toNat_regField, Nat.add_assoc]
    rfl
  rintro m64 n2 f2 ⟨hle2, hlt2, hkeep2, hv2⟩
  have hkeep := hkeep1.trans hkeep2 hle1
  have hm : f2.machine = f.machine := hkeep.machine
  have ha : lowBits (f2.value (n + 1 + 1)) .x = Guest.X 64 f.machine (bits raw 10 5) := by
    rw [hkeep.value _ (by omega)]
    simp [toNat_regField, Nat.add_assoc]
    rfl
  rw [← hkeep2.value _ hlt1] at hv1
  have hne : n + 1 + 1 ≠ n2 := by omega
  rw [multiplyAdd_eq, Prog.wp_bind, data_mul, Prog.wp_bind, wp_emitSum, Prog.wp_bind, data_setX,
    Prog.wp_pure]
  refine ⟨rfl, ?_⟩
  simp only [Frame.value_define, Frame.machine_define, if_pos, if_neg hne, lowBits_sizedValue, hv1, hv2, ha, hm,
    toNat_regField]
  cases sub <;> rfl

theorem translates (insn : Dp3src) (em : IrEmitter) (n : Nat) (f : Frame) :
    Translates (insn.translate em) insn.arm n f := by
  rcases hfields : insn.fields with ⟨raw, kind⟩
  rw [translate, arm, hfields, Translates]
  cases kind
  · exact wp_emitMultiply raw false
  · exact wp_emitMultiply raw true
  · exact wp_emitLong raw true false
  · exact wp_emitLong raw false false
  · exact wp_emitLong raw true true
  · exact wp_emitLong raw false true
  · exact wp_emitHigh raw false
  · exact wp_emitHigh raw true

end Dp3src

/-! ## Checksums, shifts and quotients -/

namespace Dp2src

/-- The operations of checksums have the reversed polynomials, and the width of the data. -/
theorem crcOp_eq (c : Bool) {sz : Nat} (hsz : sz < 4) :
    crcPolynomial (crcOp c.toNat sz) = (if c then 0x1EDC6F41#32 else 0x04C11DB7#32).reverse ∧
      (crcOp c.toNat sz).sizeBytes = 2 ^ sz := by
  have htable : ∀ c : Bool, ∀ sz < 4,
      crcPolynomial (crcOp c.toNat sz) = (if c then 0x1EDC6F41#32 else 0x04C11DB7#32).reverse ∧
        (crcOp c.toNat sz).sizeBytes = 2 ^ sz := by
    decide +kernel
  exact htable c sz hsz

theorem data_crc (c sz : Nat) {a b : ValueRef} {Q : ValueRef → Nat → Frame → Prop} :
    (em.push ((Armlet.new (crcOp c sz) .u32).withArgs [a, b])).wp Armlet.dataStep n f Q ↔
      Q n (n + 1) (f.define n (sizedValue .w (Checksum.bytes (crcPolynomial (crcOp c sz)) (crcOp c sz).sizeBytes
        (lowBits (f.value a) .w) (f.value b).lo64))) := by
  refine data_push ?_
  unfold crcOp
  split <;> rfl

/-- The data of a checksum, from a register of 32 or 64 bits. -/
theorem crc_operand {sz : Nat} (hsz : sz < 4) (m : Machine) (reg : Nat) :
    ((IrEmitter.operand m reg (if sz = 3 then .x else .w)).setWidth 64).setWidth (8 * 2 ^ sz) =
      Guest.X (8 * 2 ^ sz) m reg := by
  have hle : 8 * 2 ^ sz ≤ (if sz = 3 then RegSize.x else RegSize.w).bits ∧
      (if sz = 3 then RegSize.x else RegSize.w).bits ≤ 64 := by
    revert sz
    decide
  rw [IrEmitter.operand, Guest.X, BitVec.setWidth_setWidth (by omega), BitVec.setWidth_setWidth_of_le _ hle.1]

theorem wp_translateCrc {raw : U32} {c : Bool} {sz : Nat} (hc : bit raw 12 = c.toNat)
    (hsz : bits raw 10 2 = sz) :
    (translateCrc em raw).wp Armlet.dataStep n f fun st _ f' =>
      st = .continues ∧ f'.machine = armCrc raw c sz f.machine := by
  have hlt : sz < 4 := by
    rw [← hsz]
    exact bits_lt raw 10 (by decide)
  obtain ⟨hpoly, hbytes⟩ := crcOp_eq c hlt
  rw [translateCrc, hsz]
  simp only [Prog.wp_bind, data_getW, data_getGpr, data_crc, data_setW, Prog.wp_pure, hc, hpoly, hbytes]
  refine ⟨trivial, ?_⟩
  simp only [Frame.value_define, Frame.machine_define, if_pos, if_neg (Nat.ne_of_lt (Nat.lt_succ_self n)),
    lowBits_sizedValue, lo64_sizedValue, toNat_regField]
  have hcrc := Guest.crc32_eq (if c then 0x1EDC6F41 else 0x04C11DB7)
    (Guest.X 32 f.machine (bits raw 5 5)) (2 ^ sz)
    ((IrEmitter.operand f.machine (bits raw 16 5) (if sz = 3 then .x else .w)).setWidth 64)
  rw [crc_operand hlt] at hcrc
  exact congrArg (Guest.setX f.machine (bits raw 0 5)) hcrc

theorem wp_emitResult (kind : Kind) (a b : ValueRef) (size : RegSize) {Q : ValueRef → Nat → Frame → Prop} :
    (emitResult em kind a b size).wp Armlet.dataStep n f Q ↔ Q n (n + 1)
      (f.define n (sizedValue size (kind.arm (lowBits (f.value a) size) (lowBits (f.value b) size)))) := by
  cases kind with
  | lslv => exact data_lsl size
  | lsrv => exact data_lsr size
  | asrv => exact data_asr size
  | rorv => exact data_ror size
  | udiv =>
    rw [Kind.arm, ← Guest.divide_eq]
    exact data_udiv size
  | sdiv =>
    rw [Kind.arm, ← Guest.divide_signed_eq]
    exact data_sdiv size

theorem wp_translateKind (raw : U32) (kind : Kind) :
    (translateKind em raw kind).wp Armlet.dataStep n f fun st _ f' =>
      st = .continues ∧ f'.machine = armKind raw kind f.machine := by
  rw [translateKind, armKind]
  generalize sizeOf (bit raw 31) = size
  simp only [Prog.wp_bind, data_getGpr, wp_emitResult, data_setGpr, Prog.wp_pure]
  refine ⟨trivial, ?_⟩
  simp [toNat_regField]
  rfl

theorem translates (insn : Dp2src) (hdecoded : insn.Decoded) (em : IrEmitter) (n : Nat) (f : Frame) :
    Translates (insn.translate em) insn.arm n f := by
  have hcrc {raw : U32} {c : Bool} {sz : Nat} (h : insn.crcFields = some (raw, c, sz)) :
      (translateCrc em raw).wp Armlet.dataStep n f fun st _ f' =>
        st = .continues ∧ f'.machine = armCrc raw c sz f.machine :=
    wp_translateCrc (hdecoded raw c sz h).1 (hdecoded raw c sz h).2
  cases insn with
  | other i => exact ⟨_, rfl⟩
  | lslvRdRnRm i => exact wp_translateKind i .lslv
  | lsrvRdRnRm i => exact wp_translateKind i .lsrv
  | asrvRdRnRm i => exact wp_translateKind i .asrv
  | rorvRdRnRm i => exact wp_translateKind i .rorv
  | udivRdRnRm i => exact wp_translateKind i .udiv
  | sdivRdRnRm i => exact wp_translateKind i .sdiv
  | crc32bRdRnRm i => exact hcrc rfl
  | crc32hRdRnRm i => exact hcrc rfl
  | crc32wRdRnRm i => exact hcrc rfl
  | crc32xRdRnRm i => exact hcrc rfl
  | crc32cbRdRnRm i => exact hcrc rfl
  | crc32chRdRnRm i => exact hcrc rfl
  | crc32cwRdRnRm i => exact hcrc rfl
  | crc32cxRdRnRm i => exact hcrc rfl

end Dp2src

end Rustarmic
