import Rustarmic.Backend.VectorNodes
import Rustarmic.Frontend.Emitter

/-!
# The emitter of vector nodes

The functions of `IrEmitter` that push vector nodes, with one rule for each that says what its node
does.  The translators of shifts and of table lookups are followed with these rules, call by call.

A vector node is more than an operation and its operands: the source packs the form into the
immediate, and each backend function takes it apart again.  The two ends have to agree on the
packing, and this file is where they are compared.

* **The form.**  Bit 0 of the immediate says whether all 128 bits are meant (`q`) or the low 64; a
  result of the low half has zeros above it, which `halfForm` is.
* **A shift** has its amount in the bits above (`shiftField`).  Amounts go up to 64, the width of
  the largest lane: a right shift by the whole width is an encoding of its own, and `USHR #64` is
  not `USHR #0`.
* **A widening addition or a narrowing** has the size of the source lanes from bit 2 on and, for the
  addition, in bit 1 which half of the operands it takes (`longField`).

`shiftField_eq`, `longField_eq` and `srcLane_eq` say that what is packed is what is read.  The lane
sizes and amounts are finitely many, so they are evaluated.

## Why a step relation of its own

The nodes run under a `VectorLowering`, which knows where the register allocator has put the
values.  A node that shifts a vector does what the code does that the backend emits for it there,
and the other vector nodes have the value that their lowerings give lane by lane (`vectorValue`),
while every node that is no vector does what `Armlet.step` says.  A rule that is proved of
`Armlet.step` carries over as it is (`VectorLowering.wp_of_rule`), so that only the nodes that are
really vectors get a proof here.
-/

set_option autoImplicit false

namespace Rustarmic

open Emitting Interp Lanes Packed VectorCode

namespace IrEmitter

variable (em : IrEmitter)

/-- A vector node with an immediate.  All of them have the type of 128 bits, also where the form is
the one of 64: how much of the result counts is in the immediate. -/
def vecNode (op : Op) (args : List ValueRef) (imm : U64) : Emit ValueRef :=
  em.push (((Armlet.new op .u128).withArgs args).withImm imm)

def vecBuildQ (lo hi : ValueRef) : Emit ValueRef :=
  em.push ((Armlet.new .vecBuildQ .u128).withArgs [lo, hi])

def vecAdd (vn vm : ValueRef) (laneLog2 : Nat) (q : Bool) : Emit ValueRef :=
  em.vecNode (addOp laneLog2) [vn, vm] (u64OfBool q)

def vecAnd (vn vm : ValueRef) (q : Bool) : Emit ValueRef := em.vecNode .vecAnd [vn, vm] (u64OfBool q)

def vecOrr (vn vm : ValueRef) (q : Bool) : Emit ValueRef := em.vecNode .vecOrr [vn, vm] (u64OfBool q)

def vecDupGpr (value : ValueRef) (laneLog2 : Nat) (q : Bool) : Emit ValueRef :=
  em.vecNode (dupOp laneLog2) [value]
    (u64OfBool q)

/-- The immediate of a shift: the form in bit 0, the amount above it. -/
def shiftField (shift : Nat) (q : Bool) : U64 := u64OfBool q ||| (BitVec.ofNat 64 shift <<< 1)

def vecShlImm (vn : ValueRef) (laneLog2 shift : Nat) (q : Bool) : Emit ValueRef :=
  em.vecNode (shlOp laneLog2) [vn]
    (shiftField shift q)

def vecUshrImm (vn : ValueRef) (laneLog2 shift : Nat) (q : Bool) : Emit ValueRef :=
  em.vecNode (ushrOp laneLog2) [vn]
    (shiftField shift q)

def vecSshrImm (vn : ValueRef) (laneLog2 shift : Nat) (q : Bool) : Emit ValueRef :=
  em.vecNode (sshrOp laneLog2) [vn]
    (shiftField shift q)

/-- The immediate of a widening operation: which half in bit 1, the lanes of the source above it.
Bit 0 stays clear, as the result is always a whole vector. -/
def longField (srcLaneLog2 : Nat) (highHalf : Bool) : U64 :=
  (u64OfBool highHalf <<< 1) ||| (BitVec.ofNat 64 srcLaneLog2 <<< 2)

def vecSaddl (vn vm : ValueRef) (srcLaneLog2 : Nat) (highHalf : Bool) : Emit ValueRef :=
  em.vecNode .vecSaddl [vn, vm] (longField srcLaneLog2 highHalf)

def vecUaddl (vn vm : ValueRef) (srcLaneLog2 : Nat) (highHalf : Bool) : Emit ValueRef :=
  em.vecNode .vecUaddl [vn, vm] (longField srcLaneLog2 highHalf)

def vecXtn (vn : ValueRef) (srcLaneLog2 : Nat) : Emit ValueRef :=
  em.vecNode .vecXtn [vn] (BitVec.ofNat 64 srcLaneLog2 <<< 2)

def vecXtn2 (vdPrev vn : ValueRef) (srcLaneLog2 : Nat) : Emit ValueRef :=
  em.vecNode .vecXtn2 [vdPrev, vn] (BitVec.ofNat 64 srcLaneLog2 <<< 2)

end IrEmitter

/-! ## What the nodes do -/

namespace VectorLowering

open IrEmitter

variable (L : VectorLowering) {em : IrEmitter} {n : Nat} {f : Frame} {Q : ValueRef → Nat → Frame → Prop}
  {P : Unit → Nat → Frame → Prop}

/-- A rule for the nodes of `Armlet.step` is a rule here.  A rule is an equivalence that holds for
every postcondition, so it says what the one step does, and that step is a step here as well. -/
theorem wp_of_rule {α : Type} {p : Emit α} {r : α} {m : Nat} {f' : Frame}
    (h : ∀ R : α → Nat → Frame → Prop, p.wp Armlet.step n f R ↔ R r m f')
    (R : α → Nat → Frame → Prop) : p.wp L.step n f R ↔ R r m f' :=
  Prog.wp_rule_mono (fun _ _ _ _ => L.step_of_step) h R

theorem wp_push {a : Armlet} {f' : Frame}
    (h : L.step n { a with pc := em.currentPc } f = some f') :
    (em.push a).wp L.step n f Q ↔ Q n (n + 1) f' := by
  rw [IrEmitter.push, Prog.wp_emit, h]
  simp only [Option.some.injEq, exists_eq_left']

theorem wp_constU64 (v : U64) : (em.constU64 v).wp L.step n f Q ↔
    Q n (n + 1) (f.define n (.ofU64 .u64 v)) :=
  L.wp_of_rule (fun _ => em.wp_constU64 v) Q

section scalars

variable {a b : ValueRef} (size : RegSize)

theorem wp_add : (em.add a b size).wp L.step n f Q ↔
    Q n (n + 1) (f.define n (binaryValue (· + ·) (· + ·) (f.value a) (f.value b) size)) :=
  L.wp_of_rule (fun _ => em.wp_add size) Q

theorem wp_and : (em.and a b size).wp L.step n f Q ↔
    Q n (n + 1) (f.define n (binaryValue (· &&& ·) (· &&& ·) (f.value a) (f.value b) size)) :=
  L.wp_of_rule (fun _ => em.wp_and size) Q

theorem wp_or : (em.or a b size).wp L.step n f Q ↔
    Q n (n + 1) (f.define n (binaryValue (· ||| ·) (· ||| ·) (f.value a) (f.value b) size)) :=
  L.wp_of_rule (fun _ => em.wp_or size) Q

theorem wp_lsl : (em.lsl a b size).wp L.step n f Q ↔ Q n (n + 1) (f.define n
    (binaryValue (fun u v => u <<< amount32 v) (fun u v => u <<< amount64 v) (f.value a) (f.value b)
      size)) :=
  L.wp_of_rule (fun _ => em.wp_lsl size) Q

theorem wp_lsr : (em.lsr a b size).wp L.step n f Q ↔ Q n (n + 1) (f.define n
    (binaryValue (fun u v => u >>> amount32 v) (fun u v => u >>> amount64 v) (f.value a) (f.value b)
      size)) :=
  L.wp_of_rule (fun _ => em.wp_lsr size) Q

theorem wp_asr : (em.asr a b size).wp L.step n f Q ↔ Q n (n + 1) (f.define n
    (binaryValue (fun u v => u.sshiftRight (amount32 v)) (fun u v => u.sshiftRight (amount64 v))
      (f.value a) (f.value b) size)) :=
  L.wp_of_rule (fun _ => em.wp_asr size) Q

end scalars

/-! ### Registers -/

theorem wp_getVD (reg : U8) : (em.getVD reg).wp L.step n f Q ↔
    Q n (n + 1) (f.define n (.ofU64 .u64 ((f.machine.v reg.toNat).setWidth 64))) := by
  rw [getVD, L.wp_push (L.step_of_step rfl)]
  simp only [Armlet.withImm, toNat_reg]
  rfl

theorem wp_getVQ (reg : U8) : (em.getVQ reg).wp L.step n f Q ↔
    Q n (n + 1) (f.define n ⟨.u128, f.machine.v reg.toNat⟩) := by
  rw [getVQ, L.wp_push (L.step_of_step rfl)]
  simp only [Armlet.withImm, toNat_reg]
  rfl

/-- `SetV` writes as much as the type of its operand says, and clears the rest of the register: the
64-bit and the 128-bit function push the same node. -/
theorem step_setV {a : Armlet} (hop : a.op = .setV) :
    (∀ x, a.arg f 0 = .ofU64 .u64 x →
      a.step n f = some { f with machine := f.machine.writeV a.imm.toNat (x.setWidth 128) }) ∧
    ∀ x, a.arg f 0 = ⟨.u128, x⟩ →
      a.step n f = some { f with machine := f.machine.writeV a.imm.toNat x } := by
  constructor
  · intro x hx
    have hty : (a.arg f 0).ty = .u64 := by rw [hx]; rfl
    simp only [Armlet.step, Armlet.registerStep, hop, hty]
    rw [hx, Value.lo64_ofU64]
    rfl
  · intro x hx
    have hty : (a.arg f 0).ty = .u128 := by rw [hx]
    simp only [Armlet.step, Armlet.registerStep, hop, hty]
    rw [hx]
    rfl

theorem wp_setVD (reg : U8) {value : ValueRef} {x : U64} (h : f.value value = .ofU64 .u64 x) :
    (em.setVD reg value).wp L.step n f P ↔
      P () (n + 1) { f with machine := f.machine.writeV reg.toNat (x.setWidth 128) } := by
  have hstep := (step_setV (n := n) (a := { ((Armlet.new .setV .void).withArgs [value]).withImm
    (reg.setWidth 64) with pc := em.currentPc }) rfl).1 x h
  rw [setVD, Prog.wp_bind, L.wp_push (L.step_of_step hstep)]
  simp only [Armlet.withImm, toNat_reg]
  rfl

theorem wp_setVQ (reg : U8) {value : ValueRef} {x : U128} (h : f.value value = ⟨.u128, x⟩) :
    (em.setVQ reg value).wp L.step n f P ↔
      P () (n + 1) { f with machine := f.machine.writeV reg.toNat x } := by
  have hstep := (step_setV (n := n) (a := { ((Armlet.new .setV .void).withArgs [value]).withImm
    (reg.setWidth 64) with pc := em.currentPc }) rfl).2 x h
  rw [setVQ, Prog.wp_bind, L.wp_push (L.step_of_step hstep)]
  simp only [Armlet.withImm, toNat_reg]
  rfl

/-! ### Vectors -/

/-- A vector node is known by its operation, its immediate and its arguments.  What it does is said
by the backend for nodes in general, so the hypothesis has the node as a variable and these three as
equations. -/
theorem wp_vecNode {op : Op} {args : List ValueRef} {imm : U64} {x : U128}
    (h : ∀ a : Armlet, a.op = op → a.imm = imm → a.args = ((Armlet.new op .u128).withArgs args).args →
      L.step n a f = some (f.define n ⟨a.ty, x⟩)) :
    (em.vecNode op args imm).wp L.step n f Q ↔ Q n (n + 1) (f.define n ⟨.u128, x⟩) :=
  L.wp_push (h _ rfl rfl rfl)

theorem arg_zero {a : Armlet} {op : Op} {x : ValueRef} {l : List ValueRef}
    (h : a.args = ((Armlet.new op .u128).withArgs (x :: l)).args) : a.arg f 0 = f.value x := by
  rw [Armlet.arg, h]
  rfl

theorem arg_one {a : Armlet} {op : Op} {x y : ValueRef} {l : List ValueRef}
    (h : a.args = ((Armlet.new op .u128).withArgs (x :: y :: l)).args) : a.arg f 1 = f.value y := by
  rw [Armlet.arg, h]
  rfl

section vectors

variable {vn vm : ValueRef} {lane shift : Nat} (q : Bool)

theorem qForm_eq {a : Armlet} (h : a.imm = u64OfBool q) : qForm a = q := by
  rw [qForm, h]
  cases q <;> rfl

/-- The backend reads the form and the amount that were packed, for every amount up to 64. -/
theorem shiftField_eq (h : shift ≤ 64) {a : Armlet} (ha : a.imm = shiftField shift q) :
    qForm a = q ∧ shiftOf a = shift := by
  have hall : ∀ shift < 65, ∀ q : Bool, (shiftField shift q &&& 1#64 != 0#64) = q ∧
      ((shiftField shift q >>> 1).setWidth 32 : U32).toNat = shift := by decide +kernel
  rw [qForm, shiftOf, ha]
  exact hall shift (by omega) q

/-- The same for the half and the lanes of a widening operation. -/
theorem longField_eq (h : lane < 4) (high : Bool) {a : Armlet} (ha : a.imm = longField lane high) :
    highHalf a = high ∧ srcLane a = lane := by
  have hall : ∀ lane < 4, ∀ high : Bool, ((longField lane high >>> 1) &&& 1#64 != 0#64) = high ∧
      ((longField lane high >>> 2) &&& 3#64).toNat = lane := by decide +kernel
  rw [highHalf, srcLane, ha]
  exact hall lane h high

theorem wp_vecAnd : (em.vecAnd vn vm q).wp L.step n f Q ↔
    Q n (n + 1) (f.define n ⟨.u128, halfForm q ((f.value vn).bits &&& (f.value vm).bits)⟩) := by
  refine L.wp_vecNode fun a hop himm hargs => ?_
  rw [← arg_zero hargs, ← arg_one hargs, ← qForm_eq q himm]
  refine L.step_value (by rw [hop]; rfl) (fun _ _ => by rw [emitShift, hop]) ?_
  rw [vectorValue, hop]

theorem wp_vecOrr : (em.vecOrr vn vm q).wp L.step n f Q ↔
    Q n (n + 1) (f.define n ⟨.u128, halfForm q ((f.value vn).bits ||| (f.value vm).bits)⟩) := by
  refine L.wp_vecNode fun a hop himm hargs => ?_
  rw [← arg_zero hargs, ← arg_one hargs, ← qForm_eq q himm]
  refine L.step_value (by rw [hop]; rfl) (fun _ _ => by rw [emitShift, hop]) ?_
  rw [vectorValue, hop]

theorem wp_vecBuildQ {lo hi : ValueRef} : (em.vecBuildQ lo hi).wp L.step n f Q ↔
    Q n (n + 1) (f.define n
      ⟨.u128, ((f.value hi).bits.setWidth 64 ++ (f.value lo).bits.setWidth 64 : U128)⟩) :=
  L.wp_push (L.step_value rfl (fun _ _ => rfl) rfl)

section lanes

variable (h : lane < 4)
include h

theorem wp_vecAdd : (em.vecAdd vn vm lane q).wp L.step n f Q ↔
    Q n (n + 1) (f.define n
      ⟨.u128, halfForm q (zipLanes (8 <<< lane) (· + ·) (f.value vn).bits (f.value vm).bits)⟩) := by
  refine L.wp_vecNode fun a hop himm hargs => ?_
  rw [← arg_zero hargs, ← arg_one hargs, ← qForm_eq q himm]
  exact L.step_add h hop

theorem wp_vecDupGpr : (em.vecDupGpr vn lane q).wp L.step n f Q ↔
    Q n (n + 1) (f.define n
      ⟨.u128, halfForm q (ofLanes 128 (8 <<< lane) fun _ => (f.value vn).bits.setWidth _)⟩) := by
  refine L.wp_vecNode fun a hop himm hargs => ?_
  rw [← arg_zero hargs, ← qForm_eq q himm]
  exact L.step_dup h hop

theorem wp_vecShlImm (hs : shift ≤ 64) : (em.vecShlImm vn lane shift q).wp L.step n f Q ↔
    Q n (n + 1) (f.define n
      ⟨.u128, halfForm q (shiftLanes (fun _ => (· <<< shift)) lane (f.value vn).bits)⟩) := by
  refine L.wp_vecNode fun a hop himm hargs => ?_
  obtain ⟨hq, hshift⟩ := shiftField_eq q hs himm
  rw [← arg_zero hargs, ← hq, ← hshift]
  exact L.step_shl h hop

theorem wp_vecUshrImm (hs : shift ≤ 64) : (em.vecUshrImm vn lane shift q).wp L.step n f Q ↔
    Q n (n + 1) (f.define n
      ⟨.u128, halfForm q (shiftLanes (fun _ => (· >>> shift)) lane (f.value vn).bits)⟩) := by
  refine L.wp_vecNode fun a hop himm hargs => ?_
  obtain ⟨hq, hshift⟩ := shiftField_eq q hs himm
  rw [← arg_zero hargs, ← hq, ← hshift]
  exact L.step_ushr h hop

theorem wp_vecSshrImm (hs : shift ≤ 64) : (em.vecSshrImm vn lane shift q).wp L.step n f Q ↔
    Q n (n + 1) (f.define n
      ⟨.u128, halfForm q (shiftLanes (fun _ => (·.sshiftRight shift)) lane (f.value vn).bits)⟩) := by
  refine L.wp_vecNode fun a hop himm hargs => ?_
  obtain ⟨hq, hshift⟩ := shiftField_eq q hs himm
  rw [← arg_zero hargs, ← hq, ← hshift]
  exact L.step_sshr h hop (hshift.trans_le hs)

end lanes

/-- The widened sum, which exists of lanes of up to 32 bits: there is nothing that a lane of 64
could be widened to.  Both signs are one rule, since the translators choose between them by a
flag. -/
theorem wp_addLong {op : Op} {signed high : Bool} (hlane : lane < 3)
    (hop : op = if signed then .vecSaddl else .vecUaddl) :
    (em.vecNode op [vn, vm] (longField lane high)).wp L.step n f Q ↔
      Q n (n + 1) (f.define n ⟨.u128, zipLanes (2 * (8 <<< lane)) (· + ·)
        (extendHalf signed high (8 <<< lane) (f.value vn).bits)
        (extendHalf signed high (8 <<< lane) (f.value vm).bits)⟩) := by
  refine L.wp_vecNode fun a haop himm hargs => ?_
  obtain ⟨hhigh, hsrc⟩ := longField_eq (by omega : lane < 4) high himm
  rw [← arg_zero hargs, ← arg_one hargs]
  have hne : ¬ srcLane a = 3 := by omega
  rw [hop] at haop
  cases signed with
  | true =>
    refine L.step_value (by rw [haop]; rfl) (fun _ _ => by rw [emitShift, haop]; rfl) ?_
    rw [vectorValue, haop]
    change addLong true a _ _ = _
    rw [addLong, if_neg hne, hhigh, hsrc]
  | false =>
    refine L.step_value (by rw [haop]; rfl) (fun _ _ => by rw [emitShift, haop]; rfl) ?_
    rw [vectorValue, haop]
    change addLong false a _ _ = _
    rw [addLong, if_neg hne, hhigh, hsrc]

/-- A narrowing operation has no half to choose, and packs the lanes only. -/
theorem srcLane_eq (h : lane < 4) {a : Armlet} (ha : a.imm = BitVec.ofNat 64 lane <<< 2) :
    srcLane a = lane :=
  (longField_eq h false (ha.trans (by rw [longField, show u64OfBool false = 0#64 from rfl]; simp))).2

/-- XTN is given the lanes it *reads*, which are twice as wide as those it writes; the upper half is
cleared. -/
theorem wp_vecXtn (hlane : lane < 3) : (em.vecXtn vn (lane + 1)).wp L.step n f Q ↔
    Q n (n + 1) (f.define n ⟨.u128, (narrowLanesTo (8 <<< lane) (f.value vn).bits).setWidth 128⟩) := by
  refine L.wp_vecNode fun a hop himm hargs => ?_
  have hsrc := srcLane_eq (by omega : lane + 1 < 4) himm
  rw [← arg_zero hargs]
  refine L.step_value (by rw [hop]; rfl) (fun _ _ => by rw [emitShift, hop]) ?_
  rw [vectorValue, hop]
  change (if srcLane a = 0 then none else _) = _
  rw [if_neg (by omega), hsrc, Nat.add_sub_cancel]

/-- XTN2 writes the upper half and keeps the lower one, so the old contents of the destination are
an operand. -/
theorem wp_vecXtn2 {prev : ValueRef} (hlane : lane < 3) :
    (em.vecXtn2 prev vn (lane + 1)).wp L.step n f Q ↔ Q n (n + 1) (f.define n
      ⟨.u128, (narrowLanesTo (8 <<< lane) (f.value vn).bits ++ (f.value prev).bits.setWidth 64 :
        U128)⟩) := by
  refine L.wp_vecNode fun a hop himm hargs => ?_
  have hsrc := srcLane_eq (by omega : lane + 1 < 4) himm
  rw [← arg_zero hargs, ← arg_one hargs]
  refine L.step_value (by rw [hop]; rfl) (fun _ _ => by rw [emitShift, hop]) ?_
  rw [vectorValue, hop]
  change (if srcLane a = 0 then none else _) = _
  rw [if_neg (by omega), hsrc, Nat.add_sub_cancel]

end vectors

end VectorLowering

end Rustarmic
