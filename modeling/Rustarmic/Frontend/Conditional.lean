import Rustarmic.Frontend.IntegerEmitter
import Rustarmic.Guest.DataProcessing

/-!
# Translating the instructions that read the flags

Additions with the carry, conditional selects and conditional comparisons: the classes for which
NZCV is an operand.

* `AddsubCarry.translate`, `Condsel.translate`, `CondcmpReg.translate`, `CondcmpImm.translate` — the
  translators.
* `wp_emitCompare` — a comparison is made first; its flags or the immediate are selected by the old
  ones.

A translator reads the flags into a value (`GetNzcv`), since a later node may overwrite them.

* **Selects** have the condition in the immediate of the node and the flags as its third operand.
  CSINC, CSINV and CSNEG make their second operand first, by adding one, by an exclusive or with
  ones, or by subtracting from zero; the manual has an inversion and an increment for all three.
* **Conditional comparisons** have to give the flags of the comparison *or* the immediate.  There is
  no branch in a block, so the comparison is made in any case, which sets the flags; then a select
  by the *old* flags picks one of the two, and its value becomes the flags.  What the comparison
  wrote in between is gone, and `wp_emitCompare` says that the result is that of the manual.
* **Subtractions with the carry** are additions of the inverted operand in the manual and `sbb` on
  the host, whose borrow is the carry turned over.

The theorems for selects and comparisons assume that NZCV is less than sixteen: the byte in the
context could hold more, and the conditions are looked up in a table by its low bits.
-/

set_option autoImplicit false

namespace Rustarmic

open Emitting Interp

/-! ## The translators -/

/-- The decoder's class of additions and subtractions with the carry. -/
inductive AddsubCarry where
  | adcRdRnRm (i : U32)
  | sbcRdRnRm (i : U32)
  | adcsRdRnRm (i : U32)
  | sbcsRdRnRm (i : U32)

namespace AddsubCarry

/-- The word, and whether it subtracts and sets the flags. -/
def fields : AddsubCarry → U32 × Bool × Bool
  | adcRdRnRm i => (i, false, false)
  | sbcRdRnRm i => (i, true, false)
  | adcsRdRnRm i => (i, false, true)
  | sbcsRdRnRm i => (i, true, true)

def emitOp (em : IrEmitter) (isSub setflags : Bool) (args : List ValueRef) (size : RegSize) : Emit ValueRef :=
  match isSub, setflags with
  | false, false => em.sizedNode .adc32 .adc64 args size
  | true, false => em.sizedNode .sbc32 .sbc64 args size
  | false, true => em.sizedNode .adcs32 .adcs64 args size
  | true, true => em.sizedNode .sbcs32 .sbcs64 args size

def translate (em : IrEmitter) (insn : AddsubCarry) : Emit InstStatus := do
  let (raw, isSub, setflags) := insn.fields
  let size := sizeOf (bit raw 31)
  let n ← em.getGpr (regField raw 5) size
  let m ← em.getGpr (regField raw 16) size
  let nzcv ← em.getNzcv
  let result ← emitOp em isSub setflags [n, m, nzcv] size
  em.setGpr (regField raw 0) result size
  return .continues

/-- The instruction of the architecture. -/
def arm (insn : AddsubCarry) : Option (Machine → Machine) :=
  let (raw, isSub, setflags) := insn.fields
  let N := (sizeOf (bit raw 31)).bits
  some fun m =>
    let operand2 := if isSub then ~~~Guest.X N m (bits raw 16 5) else Guest.X N m (bits raw 16 5)
    Guest.setResult setflags (bits raw 0 5)
      (Guest.addWithCarry (Guest.X N m (bits raw 5 5)) operand2 (m.nzcv.getLsbD 1)) m

end AddsubCarry

/-- The decoder's class of conditional selects. -/
inductive Condsel where
  | cselRdRnRmCond (i : U32)
  | csincRdRnRmCond (i : U32)
  | csinvRdRnRmCond (i : U32)
  | csnegRdRnRmCond (i : U32)

namespace Condsel

inductive Kind where
  | csel | csinc | csinv | csneg
  deriving DecidableEq, Repr

def fields : Condsel → U32 × Kind
  | cselRdRnRmCond i => (i, .csel)
  | csincRdRnRmCond i => (i, .csinc)
  | csinvRdRnRmCond i => (i, .csinv)
  | csnegRdRnRmCond i => (i, .csneg)

def emitFalse (em : IrEmitter) (kind : Kind) (falseVal one allOnes : ValueRef) (size : RegSize) :
    Emit ValueRef :=
  match kind with
  | .csel => pure falseVal
  | .csinc => em.add falseVal one size
  | .csinv => em.eor falseVal allOnes size
  | .csneg => do
    let z ← em.constU64 0
    em.sub z falseVal size

def translate (em : IrEmitter) (insn : Condsel) : Emit InstStatus := do
  let (raw, kind) := insn.fields
  let sf := bit raw 31
  let size := sizeOf sf
  let trueVal ← em.getGpr (regField raw 5) size
  let falseVal ← em.getGpr (regField raw 16) size
  let one ← em.constU64 1
  let allOnes ← em.constU64 (onesOf sf)
  let falseVal ← emitFalse em kind falseVal one allOnes size
  let nzcv ← em.getNzcv
  let result ← em.csel trueVal falseVal nzcv (bits raw 12 4) size
  em.setGpr (regField raw 0) result size
  return .continues

/-- Whether the second operand is inverted, and whether it is incremented. -/
def Kind.arm : Kind → Bool × Bool
  | .csel => (false, false)
  | .csinc => (false, true)
  | .csinv => (true, false)
  | .csneg => (true, true)

def arm (insn : Condsel) : Option (Machine → Machine) :=
  let (raw, kind) := insn.fields
  some (Guest.conditionalSelect (sizeOf (bit raw 31)).bits kind.arm.1 kind.arm.2 (bits raw 12 4) (bits raw 0 5)
    (bits raw 5 5) (bits raw 16 5))

end Condsel

def emitComparison (em : IrEmitter) (isSub : Bool) (a b : ValueRef) (size : RegSize) : Emit ValueRef :=
  if isSub then em.subs a b size else em.adds a b size

/-- What both classes of conditional comparisons do with their operands: the flags of the comparison
are set before the old ones select. -/
def emitCompare (em : IrEmitter) (isSub : Bool) (cond nzcvImm : Nat) (size : RegSize)
    (oldNzcv a b : ValueRef) : Emit InstStatus := do
  let _ ← emitComparison em isSub a b size
  let compareNzcv ← em.getNzcv
  let immNzcv ← em.push ((Armlet.new .constU32 .u32).withImm (BitVec.ofNat 64 nzcvImm))
  let selected ← em.csel compareNzcv immNzcv oldNzcv cond .w
  em.setNzcv selected
  return .continues

/-- The decoder's class of conditional comparisons of registers. -/
inductive CondcmpReg where
  | ccmpRnRmNzcvCond (i : U32)
  | ccmnRnRmNzcvCond (i : U32)

namespace CondcmpReg

def fields : CondcmpReg → U32 × Bool
  | ccmpRnRmNzcvCond i => (i, true)
  | ccmnRnRmNzcvCond i => (i, false)

def translate (em : IrEmitter) (insn : CondcmpReg) : Emit InstStatus := do
  let (raw, isSub) := insn.fields
  let size := sizeOf (bit raw 31)
  let oldNzcv ← em.getNzcv
  let a ← em.getGpr (regField raw 5) size
  let b ← em.getGpr (regField raw 16) size
  emitCompare em isSub (bits raw 12 4) (bits raw 0 4) size oldNzcv a b

def arm (insn : CondcmpReg) : Option (Machine → Machine) :=
  let (raw, isSub) := insn.fields
  let N := (sizeOf (bit raw 31)).bits
  some fun m => Guest.conditionalCompare isSub (bits raw 12 4) (BitVec.ofNat 8 (bits raw 0 4))
    (Guest.X N m (bits raw 5 5)) (Guest.X N m (bits raw 16 5)) m

end CondcmpReg

/-- The decoder's class of conditional comparisons with an immediate. -/
inductive CondcmpImm where
  | ccmpRnCcmpImmNzcvCond (i : U32)
  | ccmnRnCcmpImmNzcvCond (i : U32)

namespace CondcmpImm

def fields : CondcmpImm → U32 × Bool
  | ccmpRnCcmpImmNzcvCond i => (i, true)
  | ccmnRnCcmpImmNzcvCond i => (i, false)

def translate (em : IrEmitter) (insn : CondcmpImm) : Emit InstStatus := do
  let (raw, isSub) := insn.fields
  let size := sizeOf (bit raw 31)
  let oldNzcv ← em.getNzcv
  let a ← em.getGpr (regField raw 5) size
  let b ← em.constU64 (BitVec.ofNat 64 (bits raw 16 5))
  emitCompare em isSub (bits raw 12 4) (bits raw 0 4) size oldNzcv a b

def arm (insn : CondcmpImm) : Option (Machine → Machine) :=
  let (raw, isSub) := insn.fields
  let N := (sizeOf (bit raw 31)).bits
  some fun m => Guest.conditionalCompare isSub (bits raw 12 4) (BitVec.ofNat 8 (bits raw 0 4))
    (Guest.X N m (bits raw 5 5)) (BitVec.ofNat N (bits raw 16 5)) m

end CondcmpImm

/-! ## Flags as a value -/

open IrEmitter

variable {em : IrEmitter} {n : Nat} {f : Frame}

/-- The flags as the node that reads them leaves them. -/
def nzcvValue (nzcv : U8) : Value := ⟨.nzcv, nzcv.setWidth 128⟩

theorem lo32_nzcvValue (nzcv : U8) : (nzcvValue nzcv).lo32 = nzcv.setWidth 32 :=
  BitVec.setWidth_setWidth_of_le nzcv (by decide)

theorem carryOf_nzcvValue (nzcv : U8) : carryOf (nzcvValue nzcv) = nzcv.getLsbD 1 := by
  rw [carryOf, lo32_nzcvValue, BitVec.getLsbD_setWidth]
  rfl

/-! ## The instructions -/

/-- The second operand of a subtraction is inverted. -/
theorem AddsubCarry.wp_emitOp (isSub setflags : Bool) (a b nzcv : ValueRef) (size : RegSize)
    {Q : ValueRef → Nat → Frame → Prop} {r : BitVec size.bits × U8}
    (hr : r = Guest.addWithCarry (lowBits (f.value a) size)
      (if isSub then ~~~lowBits (f.value b) size else lowBits (f.value b) size) (carryOf (f.value nzcv))) :
    (emitOp em isSub setflags [a, b, nzcv] size).wp Armlet.dataStep n f Q ↔
      Q n (n + 1) ((if setflags then withNzcv f r.2 else f).define n (sizedValue size r.1)) := by
  have hsize : 0 < size.bits := by cases size <;> decide
  subst hr
  cases isSub
  · rw [if_neg Bool.false_ne_true, Guest.addWithCarry_eq_adc hsize]
    cases setflags
    · exact data_adc size nzcv
    · exact data_adcs size nzcv
  · rw [if_pos rfl, Guest.addWithCarry_eq_sbb hsize]
    cases setflags
    · exact data_sbc size nzcv
    · exact data_sbcs size nzcv

theorem AddsubCarry.translates (insn : AddsubCarry) (em : IrEmitter) (n : Nat) (f : Frame) :
    Translates (insn.translate em) insn.arm n f := by
  rcases hfields : insn.fields with ⟨raw, isSub, setflags⟩
  rw [translate, arm, hfields, Translates]
  dsimp only
  generalize sizeOf (bit raw 31) = size
  rw [Prog.wp_bind, data_getGpr, Prog.wp_bind, data_getGpr, Prog.wp_bind, data_getNzcv, Prog.wp_bind,
    wp_emitOp isSub setflags _ _ _ size rfl, Prog.wp_bind, data_setGpr, Prog.wp_pure]
  refine ⟨rfl, ?_⟩
  have hcarry := carryOf_nzcvValue f.machine.nzcv
  rw [nzcvValue] at hcarry
  cases setflags <;> simp [Guest.setResult, hcarry, toNat_regField, Nat.add_assoc] <;> rfl

/-- The second operand of a select. -/
theorem Condsel.computes_emitFalse (kind : Kind) {sf : Nat} {falseVal one allOnes : ValueRef}
    (hfalse : falseVal < n)
    (hone : f.value one = .ofU64 .u64 1) (hones : f.value allOnes = .ofU64 .u64 (onesOf sf)) :
    Computes Armlet.dataStep (emitFalse em kind falseVal one allOnes (sizeOf sf)) n f fun v =>
      lowBits v (sizeOf sf) =
        let x := lowBits (f.value falseVal) (sizeOf sf)
        let result := if kind.arm.1 then ~~~x else x
        if kind.arm.2 then result + 1 else result := by
  have hlow : (1#64).setWidth (sizeOf sf).bits = 1 := by cases sizeOf sf <;> rfl
  cases kind
  · exact computes_pure hfalse rfl
  · simp [emitFalse, Computes, keeps_refl, hone, hlow, Kind.arm]
  · simp [emitFalse, Computes, keeps_refl, hones, Kind.arm]
  · simp [emitFalse, Computes, keeps_refl, Kind.arm, Nat.add_assoc, Nat.ne_of_lt hfalse, BitVec.neg_eq_not_add]

theorem Condsel.translates (insn : Condsel) (em : IrEmitter) (n : Nat) (f : Frame)
    (hnzcv : f.machine.nzcv.toNat < 16) : Translates (insn.translate em) insn.arm n f := by
  rcases hfields : insn.fields with ⟨raw, kind⟩
  rw [translate, arm, hfields, Translates]
  dsimp only
  rw [Prog.wp_bind, data_getGpr, Prog.wp_bind, data_getGpr, Prog.wp_bind, data_constU64, Prog.wp_bind,
    data_constU64, Prog.wp_bind]
  refine Prog.wp_mono (computes_emitFalse kind (Nat.lt_add_right 2 (Nat.lt_succ_self _)) ?_ ?_) ?_
  · simp [Nat.add_assoc]
  · simp [Nat.add_assoc]
  rintro r n1 f1 ⟨hle, hlt, hkeep, hv⟩
  have hm : f1.machine = f.machine := hkeep.machine
  have htrue : lowBits (f1.value n) (sizeOf (bit raw 31)) =
      Guest.X (sizeOf (bit raw 31)).bits f.machine (bits raw 5 5) := by
    rw [hkeep.value n (by omega)]
    simp [toNat_regField, Nat.add_assoc]
    rfl
  have hcond := Guest.condHolds_eq (bits_lt raw 12 (by decide : 4 < 32)) hnzcv (lo32_nzcvValue f.machine.nzcv)
  have hne : n ≠ n1 := by omega
  have hrne : r ≠ n1 := Nat.ne_of_lt hlt
  rw [Prog.wp_bind, data_getNzcv, Prog.wp_bind, data_csel, Prog.wp_bind, data_setGpr, Prog.wp_pure]
  refine ⟨rfl, ?_⟩
  simp only [Frame.value_define, Frame.machine_define, if_pos, if_neg hne, if_neg hrne,
    lowBits_sizedValue, htrue, hv, hm, toNat_regField]
  rw [nzcvValue] at hcond
  have hlt0 := Nat.lt_succ_self (n + 1)
  simp only [if_neg (Nat.ne_of_lt hlt0), if_neg (Nat.ne_of_lt (Nat.lt_succ_of_lt hlt0)), lowBits_sizedValue,
    hcond]
  rfl

theorem wp_emitComparison (isSub : Bool) (a b : ValueRef) (size : RegSize) {Q : ValueRef → Nat → Frame → Prop}
    {r : BitVec size.bits × U8} (hr : r = Guest.addSub isSub (lowBits (f.value a) size)
      (lowBits (f.value b) size)) :
    (emitComparison em isSub a b size).wp Armlet.dataStep n f Q ↔
      Q n (n + 1) ((withNzcv f r.2).define n (sizedValue size r.1)) := by
  have hsize : 0 < size.bits := by cases size <;> decide
  rw [hr, Guest.addSub_eq hsize]
  cases isSub
  · exact data_adds size
  · exact data_subs size

/-- **The old flags select**, the new ones or the immediate. -/
theorem wp_emitCompare (isSub : Bool) {cond nzcvImm : Nat} (hcond : cond < 16)
    (size : RegSize) {oldNzcv : ValueRef} (hold : oldNzcv < n) (a b : ValueRef)
    (hnzcv : f.machine.nzcv.toNat < 16)
    (hvalue : f.value oldNzcv = nzcvValue f.machine.nzcv) :
    (emitCompare em isSub cond nzcvImm size oldNzcv a b).wp Armlet.dataStep n f fun st _ f' =>
      st = .continues ∧ f'.machine = Guest.conditionalCompare isSub cond (BitVec.ofNat 8 nzcvImm)
        (lowBits (f.value a) size) (lowBits (f.value b) size) f.machine := by
  have hselect := Guest.condHolds_eq hcond hnzcv (lo32_nzcvValue f.machine.nzcv)
  rw [emitCompare, Guest.conditionalCompare, Prog.wp_bind, wp_emitComparison isSub a b size rfl,
    Prog.wp_bind, data_getNzcv, Prog.wp_bind, data_push rfl, Prog.wp_bind, data_csel, Prog.wp_bind,
    data_setNzcv, Prog.wp_pure]
  refine ⟨rfl, ?_⟩
  generalize Guest.addSub isSub (lowBits (f.value a) size) (lowBits (f.value b) size) = r
  have hlt1 := Nat.lt_succ_of_lt hold
  have hne (k : Nat) : k ≠ k + 1 := Nat.ne_of_lt (Nat.lt_succ_self k)
  simp only [Frame.value_define, Frame.machine_define, machine_withNzcv, value_withNzcv, if_pos,
    if_neg (Nat.ne_of_lt hold), if_neg (Nat.ne_of_lt hlt1), if_neg (Nat.ne_of_lt (Nat.lt_succ_of_lt hlt1)),
    if_neg (hne (n + 1)), hvalue, hselect]
  have hcut (x : U32) : (sizedValue .w x).bits.setWidth 8 = x.setWidth 8 :=
    BitVec.setWidth_setWidth_of_le x (by decide)
  have himm8 : ((BitVec.ofNat 64 nzcvImm).setWidth 32).setWidth 8 = BitVec.ofNat 8 nzcvImm := by
    rw [BitVec.setWidth_ofNat_of_le (by decide), BitVec.setWidth_ofNat_of_le (by decide)]
  have hflags : (Value.lo32 (nzcvValue r.2)).setWidth 8 = r.2 := by
    rw [lo32_nzcvValue, BitVec.setWidth_setWidth_of_le r.2 (by decide), BitVec.setWidth_eq]
  cases Guest.conditionHolds cond f.machine.nzcv
  · refine congrArg (fun nzcv : U8 => { f.machine with nzcv }) ((hcut _).trans ?_)
    exact (congrArg (BitVec.setWidth 8) (Value.lo32_ofU32 .u32 _)).trans himm8
  · exact congrArg (fun nzcv : U8 => { f.machine with nzcv }) ((hcut _).trans hflags)

theorem CondcmpReg.translates (insn : CondcmpReg) (em : IrEmitter) (n : Nat) (f : Frame)
    (hnzcv : f.machine.nzcv.toNat < 16) : Translates (insn.translate em) insn.arm n f := by
  rcases hfields : insn.fields with ⟨raw, isSub⟩
  rw [translate, arm, hfields, Translates]
  dsimp only
  rw [Prog.wp_bind, data_getNzcv, Prog.wp_bind, data_getGpr, Prog.wp_bind, data_getGpr]
  refine Prog.wp_mono (wp_emitCompare isSub (bits_lt raw 12 (by decide : 4 < 32)) _
    (Nat.lt_add_right 2 (Nat.lt_succ_self _)) _ _ hnzcv ?_) ?_
  · simp [Nat.add_assoc, nzcvValue]
  · rintro _ _ _ ⟨rfl, hmachine⟩
    refine ⟨rfl, hmachine.trans ?_⟩
    simp [toNat_regField, Nat.add_assoc]
    rfl

theorem CondcmpImm.translates (insn : CondcmpImm) (em : IrEmitter) (n : Nat) (f : Frame)
    (hnzcv : f.machine.nzcv.toNat < 16) : Translates (insn.translate em) insn.arm n f := by
  rcases hfields : insn.fields with ⟨raw, isSub⟩
  rw [translate, arm, hfields, Translates]
  dsimp only
  rw [Prog.wp_bind, data_getNzcv, Prog.wp_bind, data_getGpr, Prog.wp_bind, data_constU64]
  refine Prog.wp_mono (wp_emitCompare isSub (bits_lt raw 12 (by decide : 4 < 32)) _
    (Nat.lt_add_right 2 (Nat.lt_succ_self _)) _ _ hnzcv ?_) ?_
  · simp [Nat.add_assoc, nzcvValue]
  · rintro _ _ _ ⟨rfl, hmachine⟩
    refine ⟨rfl, hmachine.trans ?_⟩
    have hbits : (sizeOf (bit raw 31)).bits ≤ 64 := by cases sizeOf (bit raw 31) <;> decide
    simp [toNat_regField, Nat.add_assoc, BitVec.setWidth_ofNat_of_le hbits]
    rfl

end Rustarmic
