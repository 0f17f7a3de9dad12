import Rustarmic.Frontend.Emitter
import Rustarmic.Frontend.Translator
import Rustarmic.Guest.AddSub
import Rustarmic.Lib.Lanes

/-!
# Translating ADD, ADDS, SUB and SUBS

The translators of the immediate and of the extended-register class, the two that can have the stack
pointer as an operand.

* `AddsubImm.translate`, `AddsubExt.translate` — the translators.
* `wp_addSubResult` — what the nodes after the operands do.
* `translate_exact_iff` — for which instructions they are right.

## Register 31

The architecture gives register 31 two meanings.  As the first operand of these classes it is the
stack pointer, in every form.  As the destination it is the stack pointer when the flags are not set
and the zero register when they are.  The translators read the first operand by the rule for the
*destination*: a flag-setting form takes zero, so that `CMP SP, #16` compares zero with sixteen.

`ComparesSp` names these forms, and `translate_exact_iff` says that they are precisely the ones that
go wrong.  For the proof the instruction is stated with its first operand as an argument
(`withFirst`), once with what the architecture takes and once with what the translator takes
(`first`); the two differ only there, and `exists_machine_ne` shows a machine on which it can be
seen.

## The extended register

The extension is done by a mask, and by two shifts when it is signed.  It is done on 64 bits
whatever the size, and for a 32-bit operation what is above is cut (`emitCut`), although the
operation would not read it.
-/

set_option autoImplicit false

namespace Rustarmic

open Emitting Interp

/-! ## The translators -/

/-- The decoder's class of additions and subtractions of an immediate; what else it holds is not
translated. -/
inductive AddsubImm where
  | addRdSpRnSpAimm (i : U32)
  | addsRdRnSpAimm (i : U32)
  | subRdSpRnSpAimm (i : U32)
  | subsRdRnSpAimm (i : U32)
  | other (i : U32)

/-- The class with an extended register. -/
inductive AddsubExt where
  | addRdSpRnSpRmExt (i : U32)
  | addsRdRnSpRmExt (i : U32)
  | subRdSpRnSpRmExt (i : U32)
  | subsRdRnSpRmExt (i : U32)

/-- What both translators do with their operands. -/
def addSubResult (em : IrEmitter) (sub setFlags : Bool) (rd : U8) (size : RegSize)
    (a b : ValueRef) : Emit InstStatus := do
  if setFlags then
    let result ← if sub then em.subs a b size else em.adds a b size
    em.setGpr rd result size
  else
    let result ← if sub then em.sub a b size else em.add a b size
    em.setGprOrSp rd result size !setFlags
  return .continues

namespace AddsubImm

/-- The word, and whether it subtracts and sets the flags. -/
def fields : AddsubImm → Option (U32 × Bool × Bool)
  | addRdSpRnSpAimm i => some (i, false, false)
  | addsRdRnSpAimm i => some (i, false, true)
  | subRdSpRnSpAimm i => some (i, true, false)
  | subsRdRnSpAimm i => some (i, true, true)
  | other _ => none

/-- The immediate as the second operand. -/
def imm (raw : U32) : U64 :=
  let imm := BitVec.ofNat 64 (bits raw 10 12)
  let imm := if bit raw 22 = 1 then imm <<< 12 else imm
  if bit raw 31 = 0 then imm &&& 0xFFFFFFFF#64 else imm

def translate (em : IrEmitter) (insn : AddsubImm) : Emit InstStatus :=
  match insn.fields with
  | none => .fail (.error (.unsupported em.currentPc 0))
  | some (raw, sub, setFlags) => do
    let a ← em.getXOrSp (regField raw 5) !setFlags
    let b ← em.constU64 (imm raw)
    addSubResult em sub setFlags (regField raw 0) (sizeOf (bit raw 31)) a b

end AddsubImm

namespace AddsubExt

def fields : AddsubExt → U32 × Bool × Bool
  | addRdSpRnSpRmExt i => (i, false, false)
  | addsRdRnSpRmExt i => (i, false, true)
  | subRdSpRnSpRmExt i => (i, true, false)
  | subsRdRnSpRmExt i => (i, true, true)

/-- The width that is extracted, and whether it is sign-extended. -/
def extraction : Nat → Nat × Bool
  | 0b000 => (8, false)
  | 0b001 => (16, false)
  | 0b010 => (32, false)
  | 0b011 => (64, false)
  | 0b100 => (8, true)
  | 0b101 => (16, true)
  | 0b110 => (32, true)
  | _ => (64, true)

/-- The extension of a register by masking, and by two shifts when it is signed. -/
def emitExtend (em : IrEmitter) (extractedWidth : Nat) (signed : Bool) (b : ValueRef) :
    Emit ValueRef :=
  if extractedWidth < 64 then do
    let maskC ← em.constU64 ((1#64 <<< extractedWidth) - 1)
    let b ← em.and b maskC .x
    if signed then do
      let shl ← em.constU64 (BitVec.ofNat 64 (64 - extractedWidth))
      let sh1 ← em.lsl b shl .x
      let shl2 ← em.constU64 (BitVec.ofNat 64 (64 - extractedWidth))
      em.asr sh1 shl2 .x
    else pure b
  else pure b

def emitShift (em : IrEmitter) (imm3 : Nat) (b : ValueRef) : Emit ValueRef :=
  if imm3 ≠ 0 then do
    let amt ← em.constU64 (BitVec.ofNat 64 imm3)
    em.lsl b amt .x
  else pure b

def emitCut (em : IrEmitter) (size : RegSize) (b : ValueRef) : Emit ValueRef :=
  if size = .w then do
    let maskC ← em.constU64 0xFFFFFFFF
    em.and b maskC .x
  else pure b

def translate (em : IrEmitter) (insn : AddsubExt) : Emit InstStatus :=
  let (raw, sub, setFlags) := insn.fields
  let imm3 := bits raw 10 3
  if 4 < imm3 then .fail (.error (.decode em.currentPc raw))
  else do
    let size := sizeOf (bit raw 31)
    let a ← em.getXOrSp (regField raw 5) !setFlags
    let b ← em.getX (regField raw 16)
    let (extractedWidth, signed) := extraction (bits raw 13 3)
    let b ← emitExtend em extractedWidth signed b
    let b ← emitShift em imm3 b
    let b ← emitCut em size b
    addSubResult em sub setFlags (regField raw 0) size a b

end AddsubExt

/-! ## The result -/

variable {em : IrEmitter} {n : Nat} {f : Frame} {P : InstStatus → Machine → Prop}

/-- What the instruction does with the values of its operands, by the size. -/
def writeOf (i : Guest.AddSub) (x y : Value) (m : Machine) : RegSize → Machine
  | .w => i.write x.lo32 y.lo32 m
  | .x => i.write x.lo64 y.lo64 m

theorem wp_addSubResult (sub setFlags : Bool) (rd : U8) (size : RegSize) (a b : ValueRef)
    (rn : Nat) :
    (addSubResult em sub setFlags rd size a b).wp Armlet.step n f (fun st _ f' => P st f'.machine) ↔
      P .continues (writeOf ⟨sub, setFlags, rd.toNat, rn⟩ (f.value a) (f.value b) f.machine size) := by
  cases size <;> cases setFlags <;> cases sub <;>
    simp [addSubResult, IrEmitter.wp_setGpr, IrEmitter.wp_setGprOrSp, writeOf, Guest.AddSub.write,
      Guest.addSub_eq, IrEmitter.binaryValue, IrEmitter.flagsOf, IrEmitter.writeGpr,
      IrEmitter.writeGprOrSp]

/-! ## The extended register -/

open IrEmitter

theorem computes_emitExtend {w : Nat} {b : ValueRef} (hpos : 0 < w) (hw : w ≤ 64) (hb : b < n)
    (signed : Bool) :
    Computes Armlet.step (AddsubExt.emitExtend em w signed b) n f fun v => v.lo64 =
      if signed then ((f.value b).lo64.setWidth w).signExtend 64
      else ((f.value b).lo64.setWidth w).setWidth 64 := by
  rw [AddsubExt.emitExtend]
  split
  · next hlt =>
    have hne : b ≠ n := Nat.ne_of_lt hb
    have hmask := Lanes.and_lowMask hlt (f.value b).lo64
    cases signed
    · simp [Computes, Nat.add_assoc, keeps_refl, hne, hmask]
    · have hshift := Lanes.shiftLeft_sshiftRight hw ((f.value b).lo64 &&& ((1#64 <<< w) - 1#64))
      have hcut : (((f.value b).lo64.setWidth w).setWidth 64).setWidth w =
          (f.value b).lo64.setWidth w := by
        rw [BitVec.setWidth_setWidth (by omega), BitVec.setWidth_eq]
      simp [Computes, Nat.add_assoc, keeps_refl, hne, amount64_ofNat (by omega : 64 - w < 64)]
      rw [hshift, hmask, hcut]
  · next hge =>
    obtain rfl : w = 64 := by omega
    exact computes_pure hb (by simp)

theorem computes_emitShift {imm3 : Nat} {b : ValueRef} (hle : imm3 ≤ 4) (hb : b < n) :
    Computes Armlet.step (AddsubExt.emitShift em imm3 b) n f fun v => v.lo64 = (f.value b).lo64 <<< imm3 := by
  rw [AddsubExt.emitShift]
  split
  · simp [Computes, Nat.add_assoc, keeps_refl, Nat.ne_of_lt hb, amount64_ofNat (by omega : imm3 < 64)]
  · next hzero =>
    obtain rfl := Decidable.not_not.mp hzero
    exact computes_pure hb (by simp)

/-- The cut does not change what an operation of the size reads. -/
theorem computes_emitCut {b : ValueRef} (size : RegSize) (hb : b < n) :
    Computes Armlet.step (AddsubExt.emitCut em size b) n f fun v =>
      v.lo64.setWidth size.bits = (f.value b).lo64.setWidth size.bits := by
  rw [AddsubExt.emitCut]
  cases size
  · have hones : (0xFFFFFFFF#64).setWidth RegSize.w.bits = BitVec.allOnes RegSize.w.bits := by decide
    simp [Computes, Nat.add_assoc, keeps_refl, Nat.ne_of_lt hb, hones]
  · exact computes_pure hb rfl

/-! ## The instructions -/

theorem extraction_eq : ∀ option < 8, AddsubExt.extraction option = Guest.decodeExtend option := by
  decide

/-- An instruction of one of the two classes. -/
inductive AddSubInsn where
  | imm (insn : AddsubImm)
  | ext (insn : AddsubExt)

namespace AddSubInsn

def translate (em : IrEmitter) : AddSubInsn → Emit InstStatus
  | imm insn => insn.translate em
  | ext insn => insn.translate em

/-- The word, and whether it subtracts and sets the flags. -/
def fields : AddSubInsn → Option (U32 × Bool × Bool)
  | imm insn => insn.fields
  | ext insn => some insn.fields

/-- An addition or a subtraction, with a shift that is allocated. -/
def Allocated : AddSubInsn → Prop
  | imm insn => insn.fields.isSome
  | ext insn => bits insn.fields.1 10 3 ≤ 4

/-- The second operand as the architecture defines it. -/
def operand2 (N : Nat) (m : Machine) : AddSubInsn → U32 → BitVec N
  | imm _, raw => BitVec.ofNat N (bits raw 10 12 <<< (12 * bit raw 22))
  | ext _, raw => Guest.extendReg ((m.readX (bits raw 16 5)).setWidth N) (bits raw 13 3) (bits raw 10 3)

/-- The instruction as the architecture defines it. -/
def arm (insn : AddSubInsn) (m : Machine) : Machine :=
  match insn.fields with
  | none => m
  | some (raw, sub, setFlags) =>
    let i : Guest.AddSub := ⟨sub, setFlags, bits raw 0 5, bits raw 5 5⟩
    match sizeOf (bit raw 31) with
    | .w => i.exec (insn.operand2 32 m raw) m
    | .x => i.exec (insn.operand2 64 m raw) m

/-- The instruction with a given first operand. -/
def withFirst (insn : AddSubInsn) (first : U64) (m : Machine) : Machine :=
  match insn.fields with
  | none => m
  | some (raw, sub, setFlags) =>
    let i : Guest.AddSub := ⟨sub, setFlags, bits raw 0 5, bits raw 5 5⟩
    match sizeOf (bit raw 31) with
    | .w => i.write (first.setWidth 32) (insn.operand2 32 m raw) m
    | .x => i.write (first.setWidth 64) (insn.operand2 64 m raw) m

/-- The forms that set the flags and have register 31 as the first operand. -/
def ComparesSp (insn : AddSubInsn) : Prop :=
  ∃ raw sub, insn.fields = some (raw, sub, true) ∧ bits raw 5 5 = zrEncoding

variable {insn : AddSubInsn} {raw : U32} {sub setFlags : Bool}

theorem arm_eq (h : insn.fields = some (raw, sub, setFlags)) (m : Machine) :
    insn.arm m = insn.withFirst (if bits raw 5 5 = zrEncoding then m.sp else m.x (bits raw 5 5)) m := by
  rw [arm, withFirst, h]
  rfl

/-- What the translator takes as the first operand. -/
def first (raw : U32) (setFlags : Bool) (m : Machine) : U64 :=
  if bits raw 5 5 = zrEncoding ∧ !setFlags then m.sp else m.readX (bits raw 5 5)

theorem imm_eq (raw : U32) :
    AddsubImm.imm raw = if bit raw 31 = 0 then
      BitVec.ofNat 64 (bits raw 10 12 <<< (12 * bit raw 22)) &&& 0xFFFFFFFF#64
    else BitVec.ofNat 64 (bits raw 10 12 <<< (12 * bit raw 22)) := by
  have hshift : (if bit raw 22 = 1 then BitVec.ofNat 64 (bits raw 10 12) <<< 12
      else BitVec.ofNat 64 (bits raw 10 12)) =
        BitVec.ofNat 64 (bits raw 10 12 <<< (12 * bit raw 22)) := by
    rcases bit_cases raw 22 with h | h
    · rw [h, if_neg (by decide)]
      rfl
    · rw [h, if_pos rfl]
      exact BitVec.eq_of_toNat_eq (by simp [Nat.shiftLeft_eq])
  rw [AddsubImm.imm, hshift]

/-- The value of the immediate, for the operations of the size. -/
theorem imm_operand2 (raw : U32) (v : Value) (hv : v = .ofU64 .u64 (AddsubImm.imm raw)) :
    (sizeOf (bit raw 31) = .w →
      v.lo32 = BitVec.ofNat 32 (bits raw 10 12 <<< (12 * bit raw 22))) ∧
    (sizeOf (bit raw 31) = .x →
      v.lo64 = BitVec.ofNat 64 (bits raw 10 12 <<< (12 * bit raw 22))) := by
  subst hv
  rw [Value.lo32_ofU64, Value.lo64_ofU64, imm_eq, sizeOf]
  rcases bit_cases raw 31 with h | h
  · rw [h, if_neg (by decide), if_pos rfl]
    have hones : (0xFFFFFFFF#64).setWidth 32 = BitVec.allOnes 32 := by decide
    refine ⟨fun _ => ?_, nofun⟩
    rw [BitVec.setWidth_and, hones, BitVec.and_allOnes]
    exact BitVec.setWidth_ofNat_of_le (by decide) _
  · rw [h, if_pos rfl, if_neg (by decide)]
    exact ⟨nofun, fun _ => rfl⟩

/-- **What the nodes of an instruction do**, its first operand being what the translator takes. -/
theorem wp_translate (em : IrEmitter) (h : insn.fields = some (raw, sub, setFlags))
    (ha : insn.Allocated) : (insn.translate em).wp Armlet.step n f fun st _ f' =>
      st = .continues ∧ f'.machine = insn.withFirst (first raw setFlags f.machine) f.machine := by
  cases insn with
  | imm insn =>
    have h : insn.fields = some (raw, sub, setFlags) := h
    obtain ⟨hw, hx⟩ := imm_operand2 raw _ rfl
    rw [translate, AddsubImm.translate, h]
    simp only [Prog.wp_bind, wp_getXOrSp, wp_constU64]
    refine (wp_addSubResult (P := fun st m => st = .continues ∧ m = _) sub setFlags _ _ _ _
      (bits raw 5 5)).mpr ⟨rfl, ?_⟩
    simp only [Frame.value_define, Frame.machine_define, toNat_regField, withFirst, fields, h,
      operand2, writeOf, first]
    cases hsize : sizeOf (bit raw 31)
    · simp [hw hsize]
    · simp [hx hsize]
  | ext insn =>
    have h : insn.fields = (raw, sub, setFlags) := Option.some.inj h
    have hshift : bits raw 10 3 ≤ 4 := by
      have : bits insn.fields.1 10 3 ≤ 4 := ha
      rwa [h] at this
    rw [translate, AddsubExt.translate, h]
    simp only [if_neg (Nat.not_lt.mpr hshift), extraction_eq _ (bits_lt raw 13 (by decide : 3 < 32)),
      Prog.wp_bind, wp_getXOrSp, wp_getX]
    obtain ⟨hpos, hwidth⟩ := Guest.decodeExtend_bounds (bits raw 13 3)
    refine Prog.wp_mono (computes_emitExtend hpos hwidth (Nat.lt_succ_self _) _) ?_
    rintro b1 n1 f1 ⟨hn1, hb1, hkeep1, hv1⟩
    refine Prog.wp_mono (computes_emitShift hshift hb1) ?_
    rintro b2 n2 f2 ⟨hn2, hb2, hkeep2, hv2⟩
    refine Prog.wp_mono (computes_emitCut _ hb2) ?_
    rintro b3 n3 f3 ⟨hn3, hb3, hkeep3, hv3⟩
    refine (wp_addSubResult (P := fun st m => st = .continues ∧ m = _) sub setFlags _ _ _ _
      (bits raw 5 5)).mpr ⟨rfl, ?_⟩
    have hkeep := (hkeep1.trans hkeep2 hn1).trans hkeep3 (hn1.trans hn2)
    have ha : f3.value n = .ofU64 .u64 (first raw setFlags f.machine) := by
      rw [hkeep.value n (by omega)]
      simp [first, toNat_regField]
    have hb : (f3.value b3).lo64.setWidth (sizeOf (bit raw 31)).bits =
        operand2 (sizeOf (bit raw 31)).bits f.machine (.ext insn) raw := by
      have hsize : 32 ≤ (sizeOf (bit raw 31)).bits ∧ (sizeOf (bit raw 31)).bits ≤ 64 := by
        cases sizeOf (bit raw 31) <;> decide
      rw [hv3, hv2, hv1, operand2, Guest.extendReg_eq hsize.2 (by omega), Guest.extended]
      simp [toNat_regField]
    rw [hkeep.machine]
    simp only [withFirst, fields, h, writeOf, toNat_regField, ha, Frame.machine_define]
    cases hsize : sizeOf (bit raw 31)
    · rw [hsize] at hb
      have hb : (f3.value b3).lo32 = operand2 32 f.machine (.ext insn) raw :=
        (Value.setWidth_lo64 _).symm.trans hb
      simp [hb]
    · rw [hsize] at hb
      have hb : (f3.value b3).lo64 = operand2 64 f.machine (.ext insn) raw :=
        (BitVec.setWidth_eq _).symm.trans hb
      simp [hb]

/-- The flags of a flag-setting form on a machine whose registers are zero. -/
theorem exists_machine_ne (h : insn.fields = some (raw, sub, true)) :
    ∃ m : Machine, insn.withFirst m.sp m ≠ insn.withFirst 0 m := by
  let zero (sp : U64) : Machine := ⟨fun _ => 0, sp, 0, fun _ => 0, fun _ => 0, []⟩
  have hop : ∀ N sp, insn.operand2 N (zero sp) raw = insn.operand2 N (zero 0) raw := by
    intro N sp
    cases insn <;> rfl
  cases hsize : sizeOf (bit raw 31)
  · obtain ⟨x, hx⟩ := Guest.exists_flags_ne (by decide) sub (insn.operand2 32 (zero 0) raw)
    refine ⟨zero (x.setWidth 64), fun heq => hx ?_⟩
    have hnzcv := congrArg Machine.nzcv heq
    simp only [withFirst, h, hsize] at hnzcv
    rw [Guest.AddSub.nzcv_write rfl, Guest.AddSub.nzcv_write rfl, hop] at hnzcv
    rwa [BitVec.setWidth_setWidth_of_le x (by decide)] at hnzcv
  · obtain ⟨x, hx⟩ := Guest.exists_flags_ne (by decide) sub (insn.operand2 64 (zero 0) raw)
    refine ⟨zero x, fun heq => hx ?_⟩
    have hnzcv := congrArg Machine.nzcv heq
    simp only [withFirst, h, hsize] at hnzcv
    rw [Guest.AddSub.nzcv_write rfl, Guest.AddSub.nzcv_write rfl, hop] at hnzcv
    rwa [BitVec.setWidth_eq] at hnzcv

/-- **When the emitted code is the instruction.**  The forms that set the flags read zero where the
architecture reads the stack pointer. -/
theorem translate_exact_iff (insn : AddSubInsn) (ha : insn.Allocated) :
    (∀ em n f, (insn.translate em).wp Armlet.step n f fun st _ f' =>
      st = .continues ∧ f'.machine = insn.arm f.machine) ↔ ¬ insn.ComparesSp := by
  obtain ⟨⟨raw, sub, setFlags⟩, h⟩ : ∃ p, insn.fields = some p := by
    cases insn with
    | imm insn => exact Option.isSome_iff_exists.mp ha
    | ext insn => exact ⟨_, rfl⟩
  constructor
  · rintro hall ⟨raw', sub', h', hrn⟩
    rw [h] at h'
    obtain ⟨rfl, rfl, rfl⟩ : raw = raw' ∧ sub = sub' ∧ setFlags = true := by simpa using h'
    obtain ⟨m, hm⟩ := exists_machine_ne h
    refine hm ?_
    obtain ⟨-, -, f', ⟨-, harm⟩, -, hcode⟩ :=
      Prog.wp_common (hall ⟨0⟩ 1 ⟨m, fun _ => ⟨.void, 0⟩⟩) (wp_translate ⟨0⟩ h ha)
    rw [arm_eq h, if_pos hrn] at harm
    rw [first, if_neg (by simp), Machine.readX, if_pos hrn] at hcode
    exact harm.symm.trans hcode
  · intro hsp em n f
    refine Prog.wp_mono (wp_translate em h ha) ?_
    rintro st n' f' ⟨hst, hf'⟩
    refine ⟨hst, hf'.trans ?_⟩
    rw [arm_eq h, first]
    congr 1
    by_cases hrn : bits raw 5 5 = zrEncoding
    · have hflags : setFlags = false := by
        cases setFlags
        · rfl
        · exact absurd ⟨raw, sub, h, hrn⟩ hsp
      rw [if_pos ⟨hrn, by rw [hflags]; rfl⟩, if_pos hrn]
    · rw [if_neg fun hand => hrn hand.1, if_neg hrn, Machine.readX, if_neg hrn]

theorem translate_exact_iff_addImmediate :
    (AddSubInsn.imm (.addRdSpRnSpAimm 0x910043FF#32)).Allocated ∧
      ((∀ em n f, ((AddSubInsn.imm (.addRdSpRnSpAimm 0x910043FF#32)).translate em).wp Armlet.step n f
        fun st _ f' => st = .continues ∧
          f'.machine = (AddSubInsn.imm (.addRdSpRnSpAimm 0x910043FF#32)).arm f.machine) ↔
        ¬ (AddSubInsn.imm (.addRdSpRnSpAimm 0x910043FF#32)).ComparesSp) :=
  ⟨rfl, translate_exact_iff _ rfl⟩

/-- `CMP SP, #16` with the stack pointer at 16. -/
theorem cmpSp_inexact : ¬ ∀ (insn : AddSubInsn), insn.Allocated → ∀ em n f,
    (insn.translate em).wp Armlet.step n f fun st _ f' =>
      st = .continues ∧ f'.machine = insn.arm f.machine := by
  intro h
  let m : Machine := ⟨fun _ => 0, 16, 0, fun _ => 0, fun _ => 0, []⟩
  obtain ⟨-, -, f', ⟨-, harm⟩, -, hcode⟩ :=
    Prog.wp_common (h (.imm (.subsRdRnSpAimm 0xF10043FF#32)) rfl ⟨0⟩ 1 ⟨m, fun _ => ⟨.void, 0⟩⟩)
      (wp_translate ⟨0⟩ rfl rfl)
  have hnzcv := congrArg Machine.nzcv (harm.symm.trans hcode)
  revert hnzcv
  decide

end AddSubInsn

end Rustarmic
