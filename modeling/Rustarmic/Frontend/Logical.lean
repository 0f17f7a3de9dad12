import Rustarmic.Frontend.BitMasks
import Rustarmic.Frontend.IntegerEmitter

/-!
# Translating shifted registers, logical immediates and EXTR

Four classes whose second operand is made before the operation: a register that is shifted
(additions and logical operations), a mask that an immediate stands for, and the bits of two
registers put together.

* `AddsubShift.translate`, `LogShift.translate`, `LogImm.translate`, `Extract.translate` — the
  translators.
* `computes_emitShiftReg` — a shifted operand.
* `extract_eq` — the bits of two registers by two shifts.

What an encoding may be is a part of what a translator does, and it is where the classes differ.

* **Shifts.**  A field of six bits is too large for a 32-bit operation when its top bit is set; the
  manual reserves that, and so do the translators.  The additions reserve the rotation as well, the
  logical operations have it, so `emitShiftReg` is told whether rotations exist (`rotates`) and
  fails as the `unreachable!` of the source does when it meets one that does not.
* **Immediates.**  The mask comes from `decodeBitMasks`, and what that rejects is reserved
  (`Frontend.BitMasks`).
* **EXTR.**  A shift by the whole width would be a shift by zero on the host, so the case without a
  shift is emitted as a move and the case of equal registers as a rotation.  `computes_emitExtract`
  covers the three.

BIC, ORN, EON and BICS exist with a register only: they invert the operand first, by an exclusive or
with ones of the size of the operation.
-/

set_option autoImplicit false

namespace Rustarmic

open Emitting Interp

/-! ## The translators -/

/-- A shifted operand; the class of additions has no rotation. -/
def emitShiftReg (em : IrEmitter) (rotates : Bool) (size : RegSize) (shift imm6 : Nat) (b : ValueRef) :
    Emit ValueRef :=
  if imm6 ≠ 0 then do
    let amt ← em.constU64 (BitVec.ofNat 64 imm6)
    match shift with
    | 0b00 => em.lsl b amt size
    | 0b01 => em.lsr b amt size
    | 0b10 => em.asr b amt size
    | _ => if rotates then em.ror b amt size else .fail .panic
  else pure b

/-- The decoder's class of additions and subtractions of a shifted register. -/
inductive AddsubShift where
  | addRdRnRmSft (i : U32)
  | addsRdRnRmSft (i : U32)
  | subRdRnRmSft (i : U32)
  | subsRdRnRmSft (i : U32)

namespace AddsubShift

/-- The word, and whether it subtracts and sets the flags. -/
def fields : AddsubShift → U32 × Bool × Bool
  | addRdRnRmSft i => (i, false, false)
  | addsRdRnRmSft i => (i, false, true)
  | subRdRnRmSft i => (i, true, false)
  | subsRdRnRmSft i => (i, true, true)

def emitResult (em : IrEmitter) (sub setFlags : Bool) (rd : U8) (size : RegSize) (a b : ValueRef) :
    Emit InstStatus := do
  if setFlags then
    let result ← if sub then em.subs a b size else em.adds a b size
    em.setGpr rd result size
  else
    let result ← if sub then em.sub a b size else em.add a b size
    em.setGpr rd result size
  return .continues

def translate (em : IrEmitter) (insn : AddsubShift) : Emit InstStatus :=
  let (raw, sub, setFlags) := insn.fields
  let sf := bit raw 31
  let shift := bits raw 22 2
  let imm6 := bits raw 10 6
  if shift = 0b11 then .fail (.error (.decode em.currentPc raw))
  else
    let size := sizeOf sf
    if sf = 0 ∧ 32 ≤ imm6 then .fail (.error (.decode em.currentPc raw))
    else do
      let a ← em.getGpr (regField raw 5) size
      let b ← em.getGpr (regField raw 16) size
      let b ← emitShiftReg em false size shift imm6 b
      emitResult em sub setFlags (regField raw 0) size a b

/-- The instruction of the architecture. -/
def arm (insn : AddsubShift) : Option (Machine → Machine) :=
  let (raw, sub, setFlags) := insn.fields
  let N := (sizeOf (bit raw 31)).bits
  if bits raw 22 2 = 0b11 ∨ (bit raw 31 = 0 ∧ bit raw 15 = 1) then none
  else some fun m =>
    let operand2 := Guest.shiftReg (Guest.X N m (bits raw 16 5)) (bits raw 22 2) (bits raw 10 6)
    Guest.setResult setFlags (bits raw 0 5) (Guest.addSub sub (Guest.X N m (bits raw 5 5)) operand2) m

end AddsubShift

/-- The logical operations; the immediate forms have the first, and those that invert are of
registers. -/
inductive LogOp where
  | and | or | eor | ands | bic | orn | eon | bics
  deriving DecidableEq, Repr

namespace LogOp

def inverted : LogOp → Bool
  | bic | orn | eon | bics => true
  | _ => false

def setsFlags : LogOp → Bool
  | ands | bics => true
  | _ => false

def emit (em : IrEmitter) (op : LogOp) (a b : ValueRef) (size : RegSize) : Emit ValueRef :=
  match op with
  | and | ands | bic | bics => em.and a b size
  | or | orn => em.or a b size
  | eor | eon => em.eor a b size

def emitFlags (em : IrEmitter) (op : LogOp) (result : ValueRef) (size : RegSize) : Emit Unit :=
  if op.setsFlags then em.logicFlags result size else pure ()

/-- The operation of the architecture. -/
def arm : LogOp → Guest.LogicalOp
  | and | ands | bic | bics => .and
  | or | orn => .orr
  | eor | eon => .eor

end LogOp

/-- The decoder's class of logical operations with a shifted register. -/
inductive LogShift where
  | andRdRnRmSft (i : U32)
  | orrRdRnRmSft (i : U32)
  | eorRdRnRmSft (i : U32)
  | andsRdRnRmSft (i : U32)
  | bicRdRnRmSft (i : U32)
  | ornRdRnRmSft (i : U32)
  | eonRdRnRmSft (i : U32)
  | bicsRdRnRmSft (i : U32)

namespace LogShift

def fields : LogShift → U32 × LogOp
  | andRdRnRmSft i => (i, .and)
  | orrRdRnRmSft i => (i, .or)
  | eorRdRnRmSft i => (i, .eor)
  | andsRdRnRmSft i => (i, .ands)
  | bicRdRnRmSft i => (i, .bic)
  | ornRdRnRmSft i => (i, .orn)
  | eonRdRnRmSft i => (i, .eon)
  | bicsRdRnRmSft i => (i, .bics)

def emitInverted (em : IrEmitter) (inverted : Bool) (sf : Nat) (size : RegSize) (b : ValueRef) :
    Emit ValueRef :=
  if inverted then do
    let allOnes ← em.constU64 (onesOf sf)
    em.eor b allOnes size
  else pure b

def translate (em : IrEmitter) (insn : LogShift) : Emit InstStatus :=
  let (raw, op) := insn.fields
  let sf := bit raw 31
  let shift := bits raw 22 2
  let imm6 := bits raw 10 6
  let size := sizeOf sf
  if sf = 0 ∧ 32 ≤ imm6 then .fail (.error (.decode em.currentPc raw))
  else do
    let a ← em.getGpr (regField raw 5) size
    let b ← em.getGpr (regField raw 16) size
    let b ← emitShiftReg em true size shift imm6 b
    let b ← emitInverted em op.inverted sf size b
    let result ← op.emit em a b size
    op.emitFlags em result size
    em.setGpr (regField raw 0) result size
    return .continues

def arm (insn : LogShift) : Option (Machine → Machine) :=
  let (raw, op) := insn.fields
  let N := (sizeOf (bit raw 31)).bits
  if bit raw 31 = 0 ∧ bit raw 15 = 1 then none
  else some fun m =>
    let shifted := Guest.shiftReg (Guest.X N m (bits raw 16 5)) (bits raw 22 2) (bits raw 10 6)
    let operand2 := if op.inverted then ~~~shifted else shifted
    Guest.setResult op.setsFlags (bits raw 0 5) (op.arm.apply (Guest.X N m (bits raw 5 5)) operand2) m

end LogShift

/-- The decoder's class of logical operations with an immediate. -/
inductive LogImm where
  | andRdSpRnLimm (i : U32)
  | orrRdSpRnLimm (i : U32)
  | eorRdSpRnLimm (i : U32)
  | andsRdRnLimm (i : U32)

namespace LogImm

def fields : LogImm → U32 × LogOp
  | andRdSpRnLimm i => (i, .and)
  | orrRdSpRnLimm i => (i, .or)
  | eorRdSpRnLimm i => (i, .eor)
  | andsRdRnLimm i => (i, .ands)

def translate (em : IrEmitter) (insn : LogImm) : Emit InstStatus :=
  let (raw, op) := insn.fields
  let sf := bit raw 31
  let n := bit raw 22
  let width := if sf = 1 then 64 else 32
  if sf = 0 ∧ n ≠ 0 then .fail (.error (.decode em.currentPc raw))
  else
    match decodeBitMasks n (bits raw 10 6) (bits raw 16 6) width with
    | none => .fail (.error (.decode em.currentPc raw))
    | some imm => do
      let size := sizeOf sf
      let a ← em.getGpr (regField raw 5) size
      let b ← em.constU64 imm
      let result ← op.emit em a b size
      op.emitFlags em result size
      em.setGprOrSp (regField raw 0) result size !(op == .ands)
      return .continues

def arm (insn : LogImm) : Option (Machine → Machine) :=
  let (raw, op) := insn.fields
  let N := (sizeOf (bit raw 31)).bits
  if bit raw 31 = 0 ∧ bit raw 22 = 1 then none
  else (Guest.decodeBitMasks N (bit raw 22) (bits raw 10 6) (bits raw 16 6)).map fun imm m =>
    Guest.logicalImmediate op.arm op.setsFlags (bits raw 0 5) (bits raw 5 5) imm m

end LogImm

/-- The decoder's class of EXTR. -/
inductive Extract where
  | extrRdRnRmImms (i : U32)

namespace Extract

def raw : Extract → U32
  | extrRdRnRmImms i => i

/-- The bits by a rotation, or by two shifts.  A shift by the whole width would be none, and is not
emitted. -/
def emitExtract (em : IrEmitter) (size : RegSize) (width imms : Nat) (rn rm : U8) : Emit ValueRef :=
  if imms = 0 then em.getGpr rm size
  else if rn = rm then do
    let v ← em.getGpr rn size
    let amt ← em.constU64 (BitVec.ofNat 64 imms)
    em.ror v amt size
  else do
    let hi ← em.getGpr rn size
    let lo ← em.getGpr rm size
    let hiShift ← em.constU64 (BitVec.ofNat 64 (width - imms))
    let loShift ← em.constU64 (BitVec.ofNat 64 imms)
    let hiPart ← em.lsl hi hiShift size
    let loPart ← em.lsr lo loShift size
    em.or hiPart loPart size

def translate (em : IrEmitter) (insn : Extract) : Emit InstStatus :=
  let raw := insn.raw
  let sf := bit raw 31
  let imms := bits raw 10 6
  if sf ≠ bit raw 22 then .fail (.error (.decode em.currentPc raw))
  else
    let size := sizeOf sf
    let width := if sf = 1 then 64 else 32
    if width ≤ imms then .fail (.error (.decode em.currentPc raw))
    else do
      let result ← emitExtract em size width imms (regField raw 5) (regField raw 16)
      em.setGpr (regField raw 0) result size
      return .continues

def arm (insn : Extract) : Option (Machine → Machine) :=
  let raw := insn.raw
  let N := (sizeOf (bit raw 31)).bits
  if bit raw 22 ≠ bit raw 31 ∨ (bit raw 31 = 0 ∧ bit raw 15 = 1) then none
  else some fun m =>
    Guest.setX m (bits raw 0 5)
      (Guest.extract (Guest.X N m (bits raw 5 5)) (Guest.X N m (bits raw 16 5)) (bits raw 10 6))

end Extract

/-! ## Shifted operands -/

open IrEmitter

variable {em : IrEmitter} {n : Nat} {f : Frame}

/-- The highest bit of a field of six. -/
theorem bit_fifteen (raw : U32) : bit raw 15 = 1 ↔ 32 ≤ bits raw 10 6 := by
  have hbit := bit_eq raw 15
  have hbits := bits_eq raw 10 (by decide : 6 < 32)
  omega

/-- A field of six that is not reserved is less than the width. -/
theorem imm6_lt {raw : U32} (h : ¬ (bit raw 31 = 0 ∧ 32 ≤ bits raw 10 6)) :
    bits raw 10 6 < (sizeOf (bit raw 31)).bits := by
  have hlt := bits_lt raw 10 (by decide : 6 < 32)
  rcases bit_cases raw 31 with hsf | hsf
  · rw [hsf]
    exact Nat.not_le.mp fun hle => h ⟨hsf, hle⟩
  · rw [hsf]
    exact hlt

theorem amount_ofNat (size : RegSize) {k : Nat} (hk : k < size.bits) :
    amount (.ofU64 .u64 (BitVec.ofNat 64 k)) size = k := by
  rw [amount, (amounts_ofNat size hk rfl).1, Nat.mod_eq_of_lt hk]

theorem computes_emitShiftReg {rotates : Bool} {size : RegSize} {shift imm6 : Nat} {b : ValueRef} (hb : b < n)
    (hshift : shift < 4) (hrot : shift = 3 → rotates = true) (himm : imm6 < size.bits) :
    Computes Armlet.dataStep (emitShiftReg em rotates size shift imm6 b) n f fun v =>
      lowBits v size = Guest.shiftReg (lowBits (f.value b) size) shift imm6 := by
  have hne : b ≠ n := Nat.ne_of_lt hb
  rw [emitShiftReg]
  split
  · rw [Computes, Prog.wp_bind, data_constU64]
    obtain rfl | rfl | rfl | rfl : shift = 0 ∨ shift = 1 ∨ shift = 2 ∨ shift = 3 := by omega
    · simp [Guest.shiftReg, hne, amount_ofNat size himm, keeps_refl, Nat.add_assoc]
    · simp [Guest.shiftReg, hne, amount_ofNat size himm, keeps_refl, Nat.add_assoc]
    · simp [Guest.shiftReg, hne, amount_ofNat size himm, keeps_refl, Nat.add_assoc]
    · simp [Guest.shiftReg, hne, amount_ofNat size himm, keeps_refl, Nat.add_assoc, hrot rfl]
  · next hzero =>
    obtain rfl := Decidable.not_not.mp hzero
    refine computes_pure hb ?_
    rw [Guest.shiftReg_zero]

/-! ## The instructions -/

theorem AddsubShift.wp_emitResult (sub setFlags : Bool) (rd : U8) (size : RegSize) (a b : ValueRef)
    {P : InstStatus → Machine → Prop} :
    (emitResult em sub setFlags rd size a b).wp Armlet.dataStep n f (fun st _ f' => P st f'.machine) ↔
      P .continues (Guest.setResult setFlags rd.toNat
        (Guest.addSub sub (lowBits (f.value a) size) (lowBits (f.value b) size)) f.machine) := by
  have hsize : 0 < size.bits := by cases size <;> decide
  cases setFlags <;> cases sub <;>
    simp [emitResult, data_setGpr, Guest.addSub_eq hsize, Guest.setResult, result, Guest.setX]

theorem AddsubShift.translates (insn : AddsubShift) (em : IrEmitter) (n : Nat) (f : Frame) :
    Translates (insn.translate em) insn.arm n f := by
  rcases hfields : insn.fields with ⟨raw, sub, setFlags⟩
  rw [translate, arm, hfields]
  dsimp only
  rw [← ite_or]
  refine translates_ite (by rw [bit_fifteen]) fun hreserved => ?_
  obtain ⟨hshift, himm⟩ := not_or.mp hreserved
  have hlt := imm6_lt himm
  generalize sizeOf (bit raw 31) = size at hlt
  rw [Translates, Prog.wp_bind, data_getGpr, Prog.wp_bind, data_getGpr, Prog.wp_bind]
  refine Prog.wp_mono (computes_emitShiftReg (Nat.lt_succ_self _) (bits_lt raw 22 (by decide : 2 < 32))
    (fun h => absurd h hshift) hlt) ?_
  rintro b n1 f1 ⟨hle, hb, hkeep, hv⟩
  have ha : lowBits (f1.value n) size = Guest.X size.bits f.machine (bits raw 5 5) := by
    rw [hkeep.value n (by omega)]
    simp [toNat_regField]
    rfl
  have hm : f1.machine = f.machine := hkeep.machine
  simp only [Frame.value_define, if_pos, lowBits_sizedValue, toNat_regField] at hv
  refine (AddsubShift.wp_emitResult (P := fun st m => st = .continues ∧ m = _) _ _ _ _ _ _).mpr ⟨rfl, ?_⟩
  rw [ha, hv, hm, toNat_regField]
  rfl

namespace LogOp

variable {a b : ValueRef} {size : RegSize} {Q : ValueRef → Nat → Frame → Prop} {P : Unit → Nat → Frame → Prop}

@[simp] theorem wp_emit (op : LogOp) : (op.emit em a b size).wp Armlet.dataStep n f Q ↔
    Q n (n + 1) (f.define n
      (sizedValue size (op.arm.apply (lowBits (f.value a) size) (lowBits (f.value b) size)).1)) := by
  cases op <;> simp [emit, arm, Guest.LogicalOp.apply]

@[simp] theorem wp_emitFlags (op : LogOp) (r : ValueRef) :
    (op.emitFlags em r size).wp Armlet.dataStep n f P ↔
      P () (if op.setsFlags then n + 1 else n)
        (if op.setsFlags then withNzcv f (logicFlags (lowBits (f.value r) size)) else f) := by
  rw [emitFlags]
  cases op.setsFlags
  · exact Prog.wp_pure ()
  · exact data_logicFlags size r

/-- The flags of the architecture are those of the result. -/
theorem apply_snd {N : Nat} (op : Guest.LogicalOp) (x y : BitVec N) :
    (op.apply x y).2 = logicFlags (op.apply x y).1 := by
  cases op <;> rfl

end LogOp

theorem LogShift.computes_emitInverted {sf : Nat} {b : ValueRef} (hb : b < n) (inverted : Bool) :
    Computes Armlet.dataStep (emitInverted em inverted sf (sizeOf sf) b) n f fun v =>
      lowBits v (sizeOf sf) = if inverted then ~~~lowBits (f.value b) (sizeOf sf)
        else lowBits (f.value b) (sizeOf sf) := by
  rw [emitInverted]
  cases inverted
  · exact computes_pure hb rfl
  · simp [Computes, Nat.ne_of_lt hb, Nat.add_assoc, keeps_refl]

theorem LogShift.translates (insn : LogShift) (em : IrEmitter) (n : Nat) (f : Frame) :
    Translates (insn.translate em) insn.arm n f := by
  rcases hfields : insn.fields with ⟨raw, op⟩
  rw [translate, arm, hfields]
  dsimp only
  refine translates_ite (by rw [bit_fifteen]) fun himm => ?_
  have hlt := imm6_lt himm
  rw [Translates, Prog.wp_bind, data_getGpr, Prog.wp_bind, data_getGpr, Prog.wp_bind]
  refine Prog.wp_mono (computes_emitShiftReg (Nat.lt_succ_self _) (bits_lt raw 22 (by decide : 2 < 32))
    (fun _ => rfl) hlt) ?_
  rintro b1 n1 f1 ⟨hle1, hb1, hkeep1, hv1⟩
  rw [Prog.wp_bind]
  refine Prog.wp_mono (computes_emitInverted hb1 _) ?_
  rintro b2 n2 f2 ⟨hle2, hb2, hkeep2, hv2⟩
  have hkeep := hkeep1.trans hkeep2 hle1
  have ha : lowBits (f2.value n) (sizeOf (bit raw 31)) =
      Guest.X (sizeOf (bit raw 31)).bits f.machine (bits raw 5 5) := by
    rw [hkeep.value n (by omega)]
    simp [toNat_regField]
    rfl
  have hm : f2.machine = f.machine := hkeep.machine
  simp only [Frame.value_define, if_pos, lowBits_sizedValue, toNat_regField] at hv1
  rw [hv1] at hv2
  simp only [Prog.wp_bind, LogOp.wp_emit, LogOp.wp_emitFlags, data_setGpr, Prog.wp_pure, ha, hv2]
  refine ⟨trivial, ?_⟩
  rw [Guest.setResult, LogOp.apply_snd]
  cases op.setsFlags
  · simp only [Bool.false_eq_true, if_false, Frame.value_define, Frame.machine_define, if_pos,
      lowBits_sizedValue, hm, toNat_regField]
    rfl
  · simp only [value_withNzcv, machine_withNzcv, Frame.value_define, Frame.machine_define, if_pos,
      lowBits_sizedValue, hm, toNat_regField]
    rfl

theorem LogImm.translates (insn : LogImm) (em : IrEmitter) (n : Nat) (f : Frame) :
    Translates (insn.translate em) insn.arm n f := by
  have hform : (insn.fields.2 == LogOp.ands) = insn.fields.2.setsFlags := by cases insn <;> rfl
  rcases hfields : insn.fields with ⟨raw, op⟩
  rw [hfields] at hform
  rw [translate, arm, hfields]
  dsimp only
  have hn := bit_cases raw 22
  refine translates_ite (by omega) fun hreserved => ?_
  have hwidth : (if bit raw 31 = 1 then 64 else 32) = (sizeOf (bit raw 31)).bits := by
    rcases bit_cases raw 31 with hsf | hsf <;> rw [hsf] <;> rfl
  have hzero : (sizeOf (bit raw 31)).bits = 32 → bit raw 22 = 0 := by
    intro h32
    rw [← hwidth] at h32
    have hsf := bit_cases raw 31
    split at h32 <;> omega
  rw [hwidth, decodeBitMasks_eq _ (by rw [← hwidth]; split <;> decide) (by omega : bit raw 22 < 2)
    (bits_lt raw 10 (by decide : 6 < 32)) hzero]
  cases Guest.decodeBitMasks (sizeOf (bit raw 31)).bits (bit raw 22) (bits raw 10 6) (bits raw 16 6) with
  | none => exact ⟨_, rfl⟩
  | some imm =>
    generalize sizeOf (bit raw 31) = size at imm
    have himm : (imm.setWidth 64).setWidth size.bits = imm := by
      rw [BitVec.setWidth_setWidth_of_le imm (by cases size <;> decide), BitVec.setWidth_eq]
    rw [Option.map_some, Option.map_some, Translates]
    dsimp only
    simp only [Prog.wp_bind, data_getGpr, data_constU64, LogOp.wp_emit, LogOp.wp_emitFlags, Frame.value_define,
      if_pos, lowBits_ofU64, himm, Nat.ne_of_lt (Nat.lt_succ_self n), if_false, lowBits_sizedValue,
      toNat_regField]
    rw [hform, Guest.logicalImmediate, Guest.setResult, LogOp.apply_snd]
    cases op.setsFlags
    · simp only [Bool.false_eq_true, if_false]
      rw [data_setGprOrSp _ _ _ _ (Function.update_self ..), Prog.wp_pure]
      refine ⟨rfl, ?_⟩
      rw [toNat_regField]
      split <;> simp_all <;> rfl
    · simp only [if_true]
      rw [data_setGprOrSp _ _ _ _ (Function.update_self ..), Prog.wp_pure]
      refine ⟨rfl, ?_⟩
      simp [toNat_regField]
      rfl

theorem Extract.computes_emitExtract {size : RegSize} {imms : Nat} (himms : imms < size.bits) (rn rm : U8) :
    Computes Armlet.dataStep (emitExtract em size size.bits imms rn rm) n f fun v => lowBits v size =
      Guest.extract (Guest.X size.bits f.machine rn.toNat) (Guest.X size.bits f.machine rm.toNat) imms := by
  rw [emitExtract]
  split
  · next hzero =>
    rw [hzero, Guest.extract_eq (by omega), Nat.sub_zero, BitVec.shiftLeft_eq_zero (Nat.le_refl _),
      BitVec.ushiftRight_zero, BitVec.zero_or]
    simp [Computes, keeps_refl]
    rfl
  · split
    · next heq =>
      simp [Computes, keeps_refl, Nat.add_assoc, amount_ofNat size himms, Guest.extract_self himms, heq]
      rfl
    · have hhigh : size.bits - imms < size.bits := by omega
      simp [Computes, keeps_refl, Nat.add_assoc, amount_ofNat size himms, amount_ofNat size hhigh,
        Guest.extract_eq himms]
      rfl

theorem Extract.translates (insn : Extract) (em : IrEmitter) (n : Nat) (f : Frame) :
    Translates (insn.translate em) insn.arm n f := by
  rw [translate, arm]
  generalize insn.raw = raw
  dsimp only
  have hwidth : (if bit raw 31 = 1 then 64 else 32) = (sizeOf (bit raw 31)).bits := by
    rcases bit_cases raw 31 with hsf | hsf <;> rw [hsf] <;> rfl
  rw [← ite_or, hwidth]
  refine translates_ite ?_ fun hreserved => ?_
  · have himms := bits_lt raw 10 (by decide : 6 < 32)
    rw [bit_fifteen, ← hwidth]
    rcases bit_cases raw 31 with hsf | hsf
    · rw [hsf, if_neg (by decide)]
      omega
    · rw [hsf, if_pos rfl]
      omega
  obtain ⟨-, himms⟩ := not_or.mp hreserved
  rw [Translates, Prog.wp_bind]
  refine Prog.wp_mono (computes_emitExtract (Nat.not_le.mp himms) _ _) ?_
  rintro r n1 f1 ⟨-, -, hkeep, hv⟩
  rw [Prog.wp_bind, data_setGpr, Prog.wp_pure, hv, hkeep.machine]
  refine ⟨rfl, ?_⟩
  simp only [toNat_regField]
  rfl

end Rustarmic
