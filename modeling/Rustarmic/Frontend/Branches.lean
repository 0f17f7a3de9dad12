import Rustarmic.Frontend.DataProcessing
import Rustarmic.Frontend.Moves

/-!
# Translating branches and exceptions

The classes of instructions that end a block.  A branch pushes its node, which has no code, and sets
the terminal of the block, which is what a translator returns here.  So the meaning of a branch is
in the terminal: the backend emits the exits of the block from it.

* `BranchInsn.translate` — the translators.
* `BranchInsn.wp_translate` — registers and control end as the architecture says.

`NodeBranches` is what has to be shown of a branch: its nodes leave the machine of the architecture,
and the terminal, evaluated on the values that the nodes have left, leads to the place where the
architecture goes.  Three details are worth the attention.

* **Links.**  The return address is written before the terminal is evaluated, but the target of a
  register branch is read by a node *before* that (`branchIndirect` gets a value), so that `BLR X30`
  goes to the old X30.
* **Offsets.**  The code sign-extends a field and then shifts it by two, in 64 bits; the manual
  extends the field with its two zeros (`targetOf_eq`).
* **Conditions** are looked up in the table of `Arch` by the flags (`tableTaken_eq`), which is right
  since the flags are less than sixteen.
-/

set_option autoImplicit false

namespace Rustarmic

open Emitting Interp IrEmitter

/-- `cond as u8`. -/
def Cond.toU8 (cond : Cond) : U8 := BitVec.ofNat 8 cond.ctorIdx

/-! ## The emitter -/

namespace IrEmitter

variable (em : IrEmitter)

/-- The return address goes to register 30. -/
def link (linked : Bool) : Emit Unit :=
  if linked then do
    let retAddr ← em.constU64 (em.currentPc + 4)
    em.setX 30 retAddr
  else pure ()

def branch (targetPc : U64) (linked : Bool) : Emit Terminal := do
  em.link linked
  let _ ← em.push ((Armlet.new (if linked then .branchLink else .branch) .void).withImm targetPc)
  return .directBranch targetPc linked

def branchCond (cond : Cond) (targetPc : U64) : Emit Terminal := do
  let nzcv ← em.getNzcv
  let _ ← em.push (((Armlet.new .branchCond .void).withArgs [nzcv]).withImm
    (targetPc <<< 8 ||| cond.toU8.setWidth 64))
  return .conditionalBranch nzcv cond.toU8 targetPc (em.currentPc + 4)

def branchIndirect (target : ValueRef) (linked isRet : Bool) : Emit Terminal := do
  let op := if isRet then Op.ret else if linked then Op.branchIndirectLink else Op.branchIndirect
  em.link linked
  let _ ← em.push ((Armlet.new op .void).withArgs [target])
  return .indirectBranch target linked isRet

end IrEmitter

/-! ## The classes -/

/-- The decoder's class of direct branches. -/
inductive BranchImm where
  | bAddrPcrel26 (i : U32)
  | blAddrPcrel26 (i : U32)

def BranchImm.fields : BranchImm → U32 × Bool
  | bAddrPcrel26 i => (i, false)
  | blAddrPcrel26 i => (i, true)

/-- `sign_extend(imm, len) << 2`, from the PC. -/
def targetOf (em : IrEmitter) (imm len : Nat) : U64 := em.currentPc + signExtend (BitVec.ofNat 64 imm) len <<< 2

def BranchImm.translate (em : IrEmitter) (insn : BranchImm) : Emit Terminal :=
  let (raw, linked) := insn.fields
  em.branch (targetOf em (bits raw 0 26) 26) linked

/-- The decoder's class of branches to registers. -/
inductive BranchReg where
  | brRn (i : U32)
  | blrRn (i : U32)
  | retRn (i : U32)
  | other (i : U32)

def BranchReg.fields : BranchReg → Option (U32 × Bool × Bool)
  | brRn i => some (i, false, false)
  | blrRn i => some (i, true, false)
  | retRn i => some (i, false, true)
  | other _ => none

def BranchReg.translate (em : IrEmitter) (insn : BranchReg) : Emit Terminal :=
  match insn.fields with
  | none => .fail (.error (.unsupported em.currentPc 0))
  | some (raw, linked, isRet) => do
    let target ← em.getX (regField raw 5)
    em.branchIndirect target linked isRet

/-- The decoder's class of conditional branches. -/
inductive Condbranch where
  | bAddrPcrel19 (i : U32)
  | bcAddrPcrel19 (i : U32)

def Condbranch.raw : Condbranch → U32
  | bAddrPcrel19 i | bcAddrPcrel19 i => i

def Condbranch.translate (em : IrEmitter) (insn : Condbranch) : Emit Terminal :=
  em.branchCond (Cond.fromBits (BitVec.ofNat 8 (bits insn.raw 0 4))) (targetOf em (bits insn.raw 5 19) 19)

/-- The decoder's class of branches on zero. -/
inductive Compbranch where
  | cbzRtAddrPcrel19 (i : U32)
  | cbnzRtAddrPcrel19 (i : U32)

def Compbranch.fields : Compbranch → U32 × Bool
  | cbzRtAddrPcrel19 i => (i, false)
  | cbnzRtAddrPcrel19 i => (i, true)

def Compbranch.translate (em : IrEmitter) (insn : Compbranch) : Emit Terminal := do
  let (raw, inverse) := insn.fields
  let target := targetOf em (bits raw 5 19) 19
  let val ← em.getGpr (regField raw 0) (sizeOf (bit raw 31))
  let _ ← em.push (((Armlet.new (if inverse then .cbNz else .cbZ) .void).withArgs [val]).withImm target)
  return .compareBranchZero val inverse (bit raw 31 == 1) target (em.currentPc + 4)

/-- The decoder's class of branches on a bit. -/
inductive Testbranch where
  | tbzRtBitNumAddrPcrel14 (i : U32)
  | tbnzRtBitNumAddrPcrel14 (i : U32)

def Testbranch.fields : Testbranch → U32 × Bool
  | tbzRtBitNumAddrPcrel14 i => (i, false)
  | tbnzRtBitNumAddrPcrel14 i => (i, true)

/-- The bit that is tested. -/
def Testbranch.bitIdx (raw : U32) : Nat := bit raw 31 <<< 5 ||| bits raw 19 5

def Testbranch.translate (em : IrEmitter) (insn : Testbranch) : Emit Terminal := do
  let (raw, inverse) := insn.fields
  let bitIdx := BitVec.ofNat 8 (bitIdx raw)
  let target := targetOf em (bits raw 5 14) 14
  let val ← em.getX (regField raw 0)
  let _ ← em.push (((Armlet.new (if inverse then .tbNz else .tbZ) .void).withArgs [val]).withImm
    (target <<< 8 ||| bitIdx.setWidth 64))
  return .testBranchBit val bitIdx inverse target (em.currentPc + 4)

/-- The decoder's class of exceptions. -/
inductive Exception where
  | brkException (i : U32)
  | svcException (i : U32)
  | hvcException (i : U32)
  | other (i : U32)

def Exception.fields : Exception → Option (U32 × Op × ExceptionKind)
  | brkException i => some (i, .brk, .brk)
  | svcException i => some (i, .svc, .svc)
  | hvcException i => some (i, .hvc, .hvc)
  | other _ => none

def Exception.translate (em : IrEmitter) (insn : Exception) : Emit Terminal :=
  match insn.fields with
  | none => .fail (.error (.unsupported em.currentPc 0))
  | some (raw, op, kind) => do
    let imm16 := bits raw 5 16
    let _ ← em.push ((Armlet.new op .void).withImm (BitVec.ofNat 64 imm16))
    return .exception kind (BitVec.ofNat 32 imm16)

/-- An instruction that ends a block. -/
inductive BranchInsn where
  | branchImm (insn : BranchImm)
  | branchReg (insn : BranchReg)
  | condbranch (insn : Condbranch)
  | compbranch (insn : Compbranch)
  | testbranch (insn : Testbranch)
  | exception (insn : Exception)

namespace BranchInsn

def translate (em : IrEmitter) : BranchInsn → Emit Terminal
  | branchImm insn => insn.translate em
  | branchReg insn => insn.translate em
  | condbranch insn => insn.translate em
  | compbranch insn => insn.translate em
  | testbranch insn => insn.translate em
  | exception insn => insn.translate em

/-- The branch of the architecture. -/
def arm : BranchInsn → Option Guest.Branch
  | branchImm insn => some (.immediate insn.fields.2 (Guest.branchOffset (BitVec.ofNat 26 (bits insn.fields.1 0 26))))
  | branchReg insn => insn.fields.map fun p => .register p.2.1 (bits p.1 5 5)
  | condbranch insn =>
    some (.conditional (bits insn.raw 0 4) (Guest.branchOffset (BitVec.ofNat 19 (bits insn.raw 5 19))))
  | compbranch insn => some (.compare (sizeOf (bit insn.fields.1 31)).bits (!insn.fields.2) (bits insn.fields.1 0 5)
      (Guest.branchOffset (BitVec.ofNat 19 (bits insn.fields.1 5 19))))
  | testbranch insn => some (.test (Testbranch.bitIdx insn.fields.1) insn.fields.2 (bits insn.fields.1 0 5)
      (Guest.branchOffset (BitVec.ofNat 14 (bits insn.fields.1 5 14))))
  | exception insn => insn.fields.map fun p => .exception p.2.2 (BitVec.ofNat 32 (bits p.1 5 16))

end BranchInsn

/-! ## What the code does -/

/-- The code and the terminal of a branch: what they write, and where they lead. -/
def NodeBranches (H : BitHost) (em : IrEmitter) (p : Emit Terminal) (n : Nat) (f : Frame)
    (r : Machine × Control) : Prop :=
  p.wp (Armlet.nodeStep H) n f fun t _ f' =>
    (f'.machine, t.control f'.exitEnv (em.currentPc + 4)) = r

section branches

variable {H : BitHost} {em : IrEmitter} {n : Nat} {f : Frame}

theorem targetOf_eq {len : Nat} (hlen : 0 < len) (hle : len + 2 ≤ 64) (imm : Nat) :
    targetOf em imm len = em.currentPc + Guest.branchOffset (BitVec.ofNat len imm) := by
  rw [targetOf, signExtend_eq _ (by omega), BitVec.setWidth_ofNat_of_le (by omega),
    signExtend_shiftLeft hlen hle]
  rfl

/-- The table of the conditions, in the terms of the manual. -/
theorem tableTaken_eq {cond : Nat} (hcond : cond < 16) {nzcv : U8} (hnzcv : nzcv.toNat < 16) :
    tableTaken (Cond.fromBits (Cond.fromBits (BitVec.ofNat 8 cond)).toU8) nzcv =
      Guest.conditionHolds cond nzcv := by
  have hcode : ∀ k < 16, Cond.fromBits (Cond.fromBits (BitVec.ofNat 8 k)).toU8 =
      Cond.fromBits (BitVec.ofNat 8 k) := by
    decide
  have hlow : (⟨.nzcv, nzcv.setWidth 128⟩ : Value).lo32 = nzcv.setWidth 32 :=
    BitVec.setWidth_setWidth_of_le nzcv (by decide)
  have hnat : (nzcv.setWidth 32 : U32).toNat = nzcv.toNat := by
    rw [BitVec.toNat_setWidth]
    omega
  rw [hcode cond hcond, ← Guest.condHolds_eq hcond hnzcv hlow, condHolds, hlow, hnat,
    BitVec.setWidth_ofNat_of_le (by decide)]
  rfl

/-- A node without code, and the terminal it belongs to. -/
theorem nodeBranches_push {a : Armlet} (h : Armlet.isIdle a.op = true) {t : Terminal} {r : Machine × Control}
    (hr : (f.machine, t.control f.exitEnv (em.currentPc + 4)) = r) :
    NodeBranches H em (em.push a >>= fun _ => pure t) n f r := by
  rw [NodeBranches, Prog.wp_bind, node_push (Armlet.nodeStep_idle h), Prog.wp_pure]
  exact hr

/-- What linking changes. -/
theorem wp_link (linked : Bool) : (em.link linked).wp (Armlet.nodeStep H) n f fun _ _ f' =>
    f'.machine = (if linked then f.machine.writeX 30 (em.currentPc + 4) else f.machine) ∧
      ∀ v < n, f'.value v = f.value v := by
  cases linked with
  | false => exact ⟨rfl, fun _ _ => rfl⟩
  | true =>
    rw [link, if_pos rfl, Prog.wp_bind, node_of_rule (fun _ => data_constU64 _),
      node_of_rule (fun _ => data_setX _ _)]
    refine ⟨?_, fun v hv => ?_⟩
    · simp only [Frame.value_define, Frame.machine_define, if_true, lowBits_ofU64]
      exact result_x ..
    · exact (Frame.value_define ..).trans (if_neg hv.ne)

theorem nodeBranches_branch (targetPc : U64) (linked : Bool) : NodeBranches H em (em.branch targetPc linked) n f
    (if linked then f.machine.writeX 30 (em.currentPc + 4) else f.machine, .goto targetPc) := by
  rw [branch, NodeBranches, Prog.wp_bind]
  refine Prog.wp_mono (wp_link linked) fun _ n' f' hf' => ?_
  refine nodeBranches_push ?_ (Prod.ext hf'.1 rfl)
  cases linked <;> rfl

theorem nodeBranches_branchIndirect {target : ValueRef} (htarget : target < n) (linked isRet : Bool) :
    NodeBranches H em (em.branchIndirect target linked isRet) n f
      (if linked then f.machine.writeX 30 (em.currentPc + 4) else f.machine, .goto (f.value target).lo64) := by
  rw [branchIndirect, NodeBranches, Prog.wp_bind]
  refine Prog.wp_mono (wp_link linked) fun _ n' f' hf' => ?_
  refine nodeBranches_push ?_ (Prod.ext hf'.1 ?_)
  · cases linked <;> cases isRet <;> rfl
  · exact congrArg (fun v => Control.goto v.lo64) (hf'.2 target htarget)

theorem nodeBranches_branchCond {cond : Nat} (hcond : cond < 16) (hflags : FlagsOnly f.machine) (offset : U64) :
    NodeBranches H em (em.branchCond (Cond.fromBits (BitVec.ofNat 8 cond)) (em.currentPc + offset)) n f
      (f.machine, Guest.branchIf (Guest.conditionHolds cond f.machine.nzcv) em.currentPc offset) := by
  rw [branchCond, NodeBranches, Prog.wp_bind, node_of_rule (fun _ => data_getNzcv)]
  refine nodeBranches_push rfl (Prod.ext rfl ?_)
  exact congrArg (fun taken => Control.goto (if taken = true then em.currentPc + offset else em.currentPc + 4))
    (tableTaken_eq hcond hflags)

end branches

namespace BranchInsn

variable {H : BitHost} {em : IrEmitter} {n : Nat} {f : Frame}

/-- The bit is one of a register. -/
theorem bitIdx_lt (raw : U32) : Testbranch.bitIdx raw < 64 := by
  have hbit := bit_cases raw 31
  have hlow := bits_lt raw 19 (by decide : 5 < 32)
  have hhigh : bit raw 31 <<< 5 < 2 ^ 6 := by
    rw [Nat.shiftLeft_eq]
    omega
  exact Nat.or_lt_two_pow hhigh (by omega)

/-- The test of as much of a register as it is about. -/
theorem zeroTest_eq {sf : Nat} (hsf : sf = 0 ∨ sf = 1) (m : Machine) (t : Nat) :
    ((if (sf == 1) = true then (sizedValue (sizeOf sf) (IrEmitter.operand m t (sizeOf sf))).lo64
      else ((sizedValue (sizeOf sf) (IrEmitter.operand m t (sizeOf sf))).lo64.setWidth 32).setWidth 64) == 0) =
      (Guest.X (sizeOf sf).bits m t == 0) := by
  rw [lo64_sizedValue]
  rcases hsf with rfl | rfl
  · show (((((m.readX t).setWidth 32 : U32).setWidth 64).setWidth 32).setWidth 64 == (0 : U64)) =
      ((m.readX t).setWidth 32 == (0 : U32))
    generalize (m.readX t).setWidth 32 = y
    have hzero : y.setWidth 64 = (0 : U64) ↔ y = 0 := by
      rw [← BitVec.toNat_inj, ← BitVec.toNat_inj, BitVec.toNat_setWidth, Nat.mod_eq_of_lt (by omega)]
      rfl
    rw [BitVec.setWidth_setWidth_of_le y (by decide), BitVec.setWidth_eq, Bool.eq_iff_iff,
      beq_iff_eq, beq_iff_eq]
    exact hzero
  · show ((((m.readX t).setWidth 64 : U64).setWidth 64 == (0 : U64)) = ((m.readX t).setWidth 64 == (0 : U64)))
    rw [BitVec.setWidth_eq]

/-- **Branches are translated exactly**: what they write, and where they lead. -/
theorem nodeBranches (insn : BranchInsn) {b : Guest.Branch} (harm : insn.arm = some b)
    (hflags : FlagsOnly f.machine) :
    NodeBranches H em (insn.translate em) n f (b.exec em.currentPc f.machine) := by
  cases insn with
  | branchImm insn =>
    cases harm
    rw [translate, BranchImm.translate]
    rcases insn.fields with ⟨raw, linked⟩
    dsimp only
    rw [targetOf_eq (by decide) (by decide)]
    exact nodeBranches_branch ..
  | branchReg insn =>
    obtain ⟨⟨raw, linked, isRet⟩, hp, rfl⟩ := Option.map_eq_some_iff.mp harm
    rw [translate, BranchReg.translate, hp]
    dsimp only
    rw [NodeBranches, Prog.wp_bind, node_of_rule (fun _ => data_getX _)]
    refine Prog.wp_mono (nodeBranches_branchIndirect (Nat.lt_succ_self n) linked isRet)
      fun _ _ _ h => h.trans ?_
    rw [Frame.value_define, if_pos rfl, lo64_sizedValue, toNat_regField]
    exact congrArg (fun x => (_, Control.goto x)) ((BitVec.setWidth_eq _).trans (BitVec.setWidth_eq _))
  | condbranch insn =>
    cases harm
    rw [translate, Condbranch.translate, targetOf_eq (by decide) (by decide)]
    exact nodeBranches_branchCond (bits_lt _ _ (by decide)) hflags _
  | compbranch insn =>
    cases harm
    rw [translate, Compbranch.translate]
    rcases insn.fields with ⟨raw, inverse⟩
    dsimp only
    rw [targetOf_eq (by decide) (by decide), NodeBranches, Prog.wp_bind,
      node_of_rule (fun _ => data_getGpr _ _)]
    refine nodeBranches_push (by cases inverse <;> rfl) (Prod.ext rfl ?_)
    refine congrArg (fun taken => Control.goto (if taken = true then _ else em.currentPc + 4)) ?_
    rw [← zeroTest_eq (bit_cases raw 31) f.machine (bits raw 0 5), Terminal.takes]
    simp only [Frame.exitEnv, Frame.value_define, if_true, toNat_regField]
    cases inverse <;> simp
  | testbranch insn =>
    cases harm
    rw [translate, Testbranch.translate]
    rcases insn.fields with ⟨raw, inverse⟩
    dsimp only
    rw [targetOf_eq (by decide) (by decide), NodeBranches, Prog.wp_bind, node_of_rule (fun _ => data_getX _)]
    refine nodeBranches_push (by cases inverse <;> rfl) (Prod.ext rfl ?_)
    refine congrArg (fun taken => Control.goto (if taken = true then _ else em.currentPc + 4)) ?_
    have hbit := bitIdx_lt raw
    have hindex : (BitVec.ofNat 8 (Testbranch.bitIdx raw)).toNat % 64 = Testbranch.bitIdx raw := by
      rw [BitVec.toNat_ofNat]
      omega
    have hread : (sizedValue .x (IrEmitter.operand f.machine (bits raw 0 5) .x)).lo64 =
        f.machine.readX (bits raw 0 5) := by
      rw [lo64_sizedValue]
      exact (BitVec.setWidth_eq _).trans (BitVec.setWidth_eq _)
    rw [Terminal.takes, hindex]
    simp only [Frame.exitEnv, Frame.value_define, if_true, toNat_regField, hread]
  | exception insn =>
    obtain ⟨⟨raw, op, kind⟩, hp, rfl⟩ := Option.map_eq_some_iff.mp harm
    have hidle : Armlet.isIdle op = true := by
      cases insn <;> cases hp <;> rfl
    rw [translate, Exception.translate, hp]
    refine nodeBranches_push hidle (Prod.ext rfl ?_)
    show Control.exception .. = Control.exception ..
    rw [ExceptionKind.pcAfter, BitVec.add_sub_cancel]

end BranchInsn

end Rustarmic
