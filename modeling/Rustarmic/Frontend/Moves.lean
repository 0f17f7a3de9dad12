import Rustarmic.Backend.IntegerNodes
import Rustarmic.Frontend.IntegerEmitter
import Rustarmic.Frontend.MemoryEmitter
import Rustarmic.Guest.Branches
import Rustarmic.Guest.LoadStore

/-!
# Translating moves, addresses, counts of bits, and system instructions

The remaining classes of integer instructions that do not end a block.

* `Movewide.translate`, `Pcreladdr.translate`, `Dp1src.translate`, `IcSystem.translate` — the
  translators.
* `node_of_rule` — the rules of the emitter under `Armlet.nodeStep`.
* `NodeEnds` — what a translator owes an encoding.

Moves and addresses are nodes that `Armlet.dataStep` knows.  A count or a reversal of bits is the
machine code that the backend emits for it, and a hint or a barrier is a node without code; so for
the last two classes the steps are those of `Armlet.nodeStep`, and every rule of the emitter carries
over to them by `node_of_rule`.

## What is left open

`arm` is `none` where the architecture does not say what happens to the registers that are modelled
here, and then nothing is claimed of the code:

* **Pointer authentication** depends on keys, and on whether the processor has it at all.  The
  translator passes the register on, in all eighteen forms.
* **System registers, the exclusive monitor, and cache maintenance** are no part of `Machine`: MRS,
  MSR, CLREX, and SYS other than DC ZVA.

DC ZVA writes to memory and is modelled.  The block has 64 bytes, which DCZID_EL0 promises the
guest; the translator aligns the address and stores eight zeros, and `wp_emitZeroBlock` follows its
loop by the invariant `Zeroing`.
-/

set_option autoImplicit false

namespace Rustarmic

open Emitting Interp IrEmitter Lanes

/-! ## Moves -/

/-- The decoder's class of moves of immediates. -/
inductive Movewide where
  | movzRdHalf (i : U32)
  | movnRdHalf (i : U32)
  | movkRdHalf (i : U32)

namespace Movewide

def fields : Movewide → U32 × Guest.MoveWideOp
  | movzRdHalf i => (i, .z)
  | movnRdHalf i => (i, .n)
  | movkRdHalf i => (i, .k)

/-- The result of a move. -/
def emitMove (em : IrEmitter) (kind : Guest.MoveWideOp) (rd : U8) (sf shift : Nat) (immShifted : U64) :
    Emit Unit := do
  let size := sizeOf sf
  let clip (x : U64) : U64 := if sf = 0 then x &&& 0xFFFFFFFF#64 else x
  match kind with
  | .z =>
    let c ← em.constU64 immShifted
    em.setGpr rd c size
  | .n =>
    let c ← em.constU64 (clip (~~~immShifted))
    em.setGpr rd c size
  | .k =>
    let prev ← em.getGpr rd size
    let maskC ← em.constU64 (clip (~~~(0xFFFF#64 <<< shift)))
    let cleared ← em.and prev maskC size
    let immC ← em.constU64 immShifted
    let merged ← em.or cleared immC size
    em.setGpr rd merged size

def translate (em : IrEmitter) (insn : Movewide) : Emit InstStatus :=
  let (raw, kind) := insn.fields
  let sf := bit raw 31
  let hw := bits raw 21 2
  if sf = 0 ∧ 2 ≤ hw then .fail (.error (.decode em.currentPc raw))
  else do
    emitMove em kind (regField raw 0) sf (hw * 16) (BitVec.ofNat 64 (bits raw 5 16) <<< (hw * 16))
    return .continues

/-- The instruction of the architecture. -/
def arm (insn : Movewide) : Option (Machine → Machine) :=
  let (raw, kind) := insn.fields
  if bit raw 31 = 0 ∧ 2 ≤ bits raw 21 2 then none
  else some (Guest.moveWide (sizeOf (bit raw 31)).bits kind (bits raw 21 2) (BitVec.ofNat 16 (bits raw 5 16))
    (bits raw 0 5))

end Movewide

/-! ## Addresses -/

/-- The decoder's class of addresses by the PC. -/
inductive Pcreladdr where
  | adrRdAddrPcrel21 (i : U32)
  | adrpRdAddrAdrp (i : U32)

namespace Pcreladdr

def fields : Pcreladdr → U32 × Bool
  | adrRdAddrPcrel21 i => (i, false)
  | adrpRdAddrAdrp i => (i, true)

def translate (em : IrEmitter) (insn : Pcreladdr) : Emit InstStatus :=
  let (raw, isAdrp) := insn.fields
  let rawImm := BitVec.ofNat 64 (bits raw 5 19) <<< 2 ||| BitVec.ofNat 64 (bits raw 29 2)
  let offset := signExtend rawImm 21
  let target := if isAdrp then (em.currentPc &&& ~~~0xFFF#64) + (offset <<< 12) else em.currentPc + offset
  do
    let c ← em.constU64 target
    em.setX (regField raw 0) c
    return .continues

/-- The instruction of the architecture. -/
def arm (pc : U64) (insn : Pcreladdr) : Option (Machine → Machine) :=
  let (raw, isAdrp) := insn.fields
  some (Guest.address isAdrp (BitVec.ofNat 19 (bits raw 5 19) ++ BitVec.ofNat 2 (bits raw 29 2))
    (bits raw 0 5) pc)

end Pcreladdr

/-! ## One source -/

/-- The decoder's class of instructions with one source; `pac` stands for its eighteen forms of
pointer authentication. -/
inductive Dp1src where
  | clzRdRn (i : U32)
  | clsRdRn (i : U32)
  | rbitRdRn (i : U32)
  | rev16RdRn (i : U32)
  | rev32RdRn (i : U32)
  | revRdRn (i : U32)
  | revRdXRnX (i : U32)
  | pac (i : U32)

namespace Dp1src

inductive Kind where
  | clz | cls | rbit | rev16 | rev32 | revAll
  deriving DecidableEq, Repr

/-- The operation of a kind; there is no REV32 for 32 bits. -/
def op : Kind → RegSize → Option Op
  | .clz, .w => some .clz32
  | .clz, .x => some .clz64
  | .cls, .w => some .cls32
  | .cls, .x => some .cls64
  | .rbit, .w => some .rbit32
  | .rbit, .x => some .rbit64
  | .rev16, _ => some .rev16
  | .rev32, .x => some .rev32
  | .revAll, _ => some .rev64
  | .rev32, .w => none

def tyOf : RegSize → Ty
  | .w => .u32
  | .x => .u64

def emitCount (em : IrEmitter) (raw : U32) (kind : Kind) : Emit InstStatus := do
  let size := sizeOf (bit raw 31)
  let src ← em.getGpr (regField raw 5) size
  match op kind size with
  | none => .fail (.error (.decode em.currentPc raw))
  | some op =>
    let result ← em.push ((Armlet.new op (tyOf size)).withArgs [src])
    em.setGpr (regField raw 0) result size
    return .continues

/-- `pac_identity`. -/
def pacIdentity (em : IrEmitter) (raw : U32) : Emit InstStatus := do
  let src ← em.getGpr (regField raw 0) .x
  let pass ← em.push ((Armlet.new .identity .u64).withArgs [src])
  em.setGpr (regField raw 0) pass .x
  return .continues

/-- The word and the kind; pointer authentication has none. -/
def fields : Dp1src → U32 × Option Kind
  | clzRdRn i => (i, some .clz)
  | clsRdRn i => (i, some .cls)
  | rbitRdRn i => (i, some .rbit)
  | rev16RdRn i => (i, some .rev16)
  | rev32RdRn i => (i, some .rev32)
  | revRdRn i | revRdXRnX i => (i, some .revAll)
  | pac i => (i, none)

def translate (em : IrEmitter) (insn : Dp1src) : Emit InstStatus :=
  match insn.fields with
  | (raw, none) => pacIdentity em raw
  | (raw, some kind) => emitCount em raw kind

/-- The counts and reversals of the architecture. -/
def count {N : Nat} : Kind → BitVec N → BitVec N
  | .clz, x => x.clz
  | .cls, x => BitCode.leadingSigns x
  | .rbit, x => x.reverse
  | .rev16, x => BitCode.reverseIn 2 x
  | .rev32, x => BitCode.reverseIn 4 x
  | .revAll, x => BitCode.reverseIn (N / 8) x

/-- The instruction of the architecture.  Pointer authentication is left open: whether its
instructions exist, and what they do to a pointer, is up to the implementation, while the code
passes the register on. -/
def arm (insn : Dp1src) : Option (Machine → Machine) :=
  match insn.fields with
  | (_, none) => none
  | (raw, some kind) =>
    let N := (sizeOf (bit raw 31)).bits
    if kind = .rev32 ∧ bit raw 31 = 0 then none
    else some fun m => Guest.setX m (bits raw 0 5) (count kind (Guest.X N m (bits raw 5 5)))

end Dp1src

/-! ## System instructions -/

/-- `encode_sysreg`. -/
def encodeSysreg (raw : U32) : U16 :=
  BitVec.ofNat 16 ((2 ||| bit raw 19) <<< 14 ||| bits raw 16 3 <<< 11 ||| bits raw 12 4 <<< 7 |||
    bits raw 8 4 <<< 3 ||| bits raw 5 3)

/-- The decoder's class of system instructions. -/
inductive IcSystem where
  | clrexUimm4 (i : U32)
  | hintUimm7 (i : U32)
  | dgh (i : U32)
  | sb (i : U32)
  | dmbBarrier (i : U32)
  | dsbBarrier (i : U32)
  | dsbBarrierDsbNxs (i : U32)
  | isbBarrierIsb (i : U32)
  | msrPstatefieldUimm4 (i : U32)
  | mrsRtSysreg (i : U32)
  | msrSysregRt (i : U32)
  | sys (i : U32)
  | other (i : U32)

namespace IcSystem

/-- The operation that zeroes a block of memory. -/
def ZeroesBlock (raw : U32) : Prop :=
  bits raw 16 3 = 3 ∧ bits raw 12 4 = 7 ∧ bits raw 8 4 = 4 ∧ bits raw 5 3 = 1

instance (raw : U32) : Decidable (ZeroesBlock raw) := by
  unfold ZeroesBlock
  infer_instance

def emitAddr (em : IrEmitter) (aligned : ValueRef) (off : Nat) : Emit ValueRef :=
  if off = 0 then pure aligned
  else do
    let d ← em.constU64 (BitVec.ofNat 64 off)
    em.add aligned d .x

/-- A store at an offset from the block. -/
def emitZeroAt (em : IrEmitter) (aligned value : ValueRef) (off : Nat) : Emit Unit := do
  let addr ← emitAddr em aligned off
  em.store addr value 8

/-- Eight stores from the start of the block of 64 bytes. -/
def emitZeroBlock (em : IrEmitter) (rt : U8) : Emit Unit := do
  let base ← em.getXOrSp rt false
  let mask ← em.constU64 (~~~63#64)
  let aligned ← em.and base mask .x
  let value ← em.constU64 0
  (List.range 8).foldlM (fun _ k => emitZeroAt em aligned value (8 * k)) ()

def idleNode (em : IrEmitter) (op : Op) : Emit InstStatus := do
  let _ ← em.push (Armlet.new op .void)
  return .continues

def translate (em : IrEmitter) : IcSystem → Emit InstStatus
  | clrexUimm4 _ => idleNode em .clrex
  | hintUimm7 _ | dgh _ | sb _ | msrPstatefieldUimm4 _ => idleNode em .hint
  | dmbBarrier _ | dsbBarrier _ | dsbBarrierDsbNxs _ | isbBarrierIsb _ => idleNode em .memoryBarrier
  | mrsRtSysreg raw => do
    let val ← em.push ((Armlet.new .mrs .u64).withImm ((encodeSysreg raw).setWidth 64))
    em.setGpr (regField raw 0) val .x
    return .continues
  | msrSysregRt raw => do
    let val ← em.getGpr (regField raw 0) .x
    let _ ← em.push (((Armlet.new .msr .void).withArgs [val]).withImm ((encodeSysreg raw).setWidth 64))
    return .continues
  | sys raw =>
    if ZeroesBlock raw then do
      emitZeroBlock em (regField raw 0)
      return .continues
    else idleNode em .hint
  | other _ => .fail (.error (.unsupported em.currentPc 0))

/-- DC ZVA with blocks of 64 bytes, written eight bytes at a time. -/
def zeroBlock (rt : Nat) (m : Machine) : Machine :=
  (List.range 8).foldl (fun m' k => m'.store ((m.readX rt &&& ~~~63#64) + BitVec.ofNat 64 (8 * k)) 8 0) m

/-- What the architecture does to registers and memory: hints, as they are without pointer
authentication, and barriers do nothing to them, and DC ZVA zeroes a block.  Left open are the
exclusive monitor (CLREX), the system registers and the processor state (MRS, MSR), and SYS but for
DC ZVA. -/
def arm : IcSystem → Option (Machine → Machine)
  | hintUimm7 _ | dgh _ | sb _ | dmbBarrier _ | dsbBarrier _ | dsbBarrierDsbNxs _ | isbBarrierIsb _ => some id
  | sys raw => if ZeroesBlock raw then some (zeroBlock (bits raw 0 5)) else none
  | clrexUimm4 _ | msrPstatefieldUimm4 _ | mrsRtSysreg _ | msrSysregRt _ | other _ => none

end IcSystem

/-! ## What a translator owes -/

/-- The code of a translator leaves a machine. -/
def NodeEnds (H : BitHost) (p : Emit InstStatus) (n : Nat) (f : Frame) (m : Machine) : Prop :=
  p.wp (Armlet.nodeStep H) n f fun st _ f' => st = .continues ∧ f'.machine = m

section rules

variable {H : BitHost} {em : IrEmitter} {n : Nat} {f : Frame} {Q : ValueRef → Nat → Frame → Prop}

/-- A rule for the other nodes is a rule here. -/
theorem node_of_rule {α : Type} {p : Emit α} {r : α} {m : Nat} {f' : Frame}
    (h : ∀ R : α → Nat → Frame → Prop, p.wp Armlet.dataStep n f R ↔ R r m f') (R : α → Nat → Frame → Prop) :
    p.wp (Armlet.nodeStep H) n f R ↔ R r m f' :=
  Prog.wp_rule_mono (fun _ _ _ _ => Armlet.nodeStep_of_dataStep) h R

theorem node_push {a : Armlet} {f' : Frame}
    (h : Armlet.nodeStep H n { a with pc := em.currentPc } f = some f') :
    (em.push a).wp (Armlet.nodeStep H) n f Q ↔ Q n (n + 1) f' := by
  rw [IrEmitter.push, Prog.wp_emit, h]
  simp only [Option.some.injEq, exists_eq_left']

end rules

/-! ## Moves -/

variable {N : Nat}

/-- A half is put into a register by masks and shifts. -/
theorem ofLanes_update (x : BitVec N) (hw : Nat) (imm : BitVec 16) :
    ofLanes N 16 (Function.update (lane 16 x) hw imm) =
      x &&& ~~~((0xFFFF#16).setWidth N <<< (hw * 16)) ||| imm.setWidth N <<< (hw * 16) := by
  refine BitVec.eq_of_getLsbD_eq fun i hi => ?_
  have hones (j : Nat) : (0xFFFF#16).getLsbD j = decide (j < 16) := BitVec.getLsbD_allOnes
  rw [getLsbD_ofLanes, BitVec.getLsbD_or, BitVec.getLsbD_and, BitVec.getLsbD_not, BitVec.getLsbD_shiftLeft,
    BitVec.getLsbD_shiftLeft, BitVec.getLsbD_setWidth, BitVec.getLsbD_setWidth, hones, Function.update_apply]
  have hsplit := Nat.div_add_mod i 16
  have hmod := Nat.mod_lt i (by decide : 16 > 0)
  by_cases h : i / 16 = hw
  · have hlow : ¬ i < hw * 16 := by omega
    have hoff : i - hw * 16 = i % 16 := by omega
    have hlt : i % 16 < N := by omega
    simp [h, hi, hlow, hoff, hmod, hlt]
  · rw [if_neg h, getLsbD_lane, hsplit, decide_eq_true hmod]
    by_cases hlow : i < hw * 16
    · simp [hi, hlow]
    · have hhigh : ¬ i - hw * 16 < 16 := by omega
      have himm : imm.getLsbD (i - hw * 16) = false := BitVec.getLsbD_of_ge _ _ (by omega)
      simp [hi, hhigh, himm]

namespace Movewide

variable {em : IrEmitter} {n : Nat} {f : Frame}

/-- A constant is cut to the size; the register takes the low bits anyway. -/
theorem setWidth_clip {sf : Nat} (hsf : sf = 0 ∨ sf = 1) (x : U64) :
    (if sf = 0 then x &&& 0xFFFFFFFF#64 else x).setWidth (sizeOf sf).bits = x.setWidth (sizeOf sf).bits := by
  rcases hsf with rfl | rfl
  · rw [if_pos rfl]
    refine BitVec.eq_of_getLsbD_eq fun i hi => ?_
    have hi : i < 32 := hi
    have hones : (0xFFFFFFFF#64).getLsbD i = true := by
      rw [show 0xFFFFFFFF#64 = (BitVec.allOnes 32).setWidth 64 by decide, BitVec.getLsbD_setWidth,
        BitVec.getLsbD_allOnes, decide_eq_true hi, decide_eq_true (by omega), Bool.true_and]
    rw [BitVec.getLsbD_setWidth, BitVec.getLsbD_setWidth, BitVec.getLsbD_and, hones, Bool.and_true]
  · rfl

theorem setWidth_shifted {M : Nat} (hN : N ≤ 64) (x : BitVec M) (k : Nat) :
    (x.setWidth 64 <<< k).setWidth N = x.setWidth N <<< k := by
  refine BitVec.eq_of_getLsbD_eq fun i hi => ?_
  have h64 : i < 64 := by omega
  rw [BitVec.getLsbD_setWidth, BitVec.getLsbD_shiftLeft, BitVec.getLsbD_shiftLeft, BitVec.getLsbD_setWidth,
    BitVec.getLsbD_setWidth, decide_eq_true hi, decide_eq_true h64, decide_eq_true (by omega : i - k < 64),
    decide_eq_true (by omega : i - k < N), Bool.true_and]

theorem wp_emitMove {kind : Guest.MoveWideOp} {rd : U8} {sf hw : Nat} (hsf : sf = 0 ∨ sf = 1)
    (imm : BitVec 16) :
    (emitMove em kind rd sf (hw * 16) (imm.setWidth 64 <<< (hw * 16))).wp Armlet.dataStep n f fun _ _ f' =>
      f'.machine = Guest.moveWide (sizeOf sf).bits kind hw imm rd.toNat f.machine := by
  have hN := BitCode.bits_le (sizeOf sf)
  have himm := setWidth_shifted hN imm (hw * 16)
  have hmask : (0xFFFF#64 <<< (hw * 16)).setWidth (sizeOf sf).bits = (0xFFFF#16).setWidth _ <<< (hw * 16) :=
    setWidth_shifted hN (0xFFFF#16) (hw * 16)
  have hzero (y : BitVec (sizeOf sf).bits) : 0 &&& ~~~((0xFFFF#16).setWidth _ <<< (hw * 16)) ||| y = y :=
    (congrArg (· ||| y) BitVec.zero_and).trans BitVec.zero_or
  cases kind with
  | z =>
    rw [emitMove, Prog.wp_bind, data_constU64, data_setGpr, Guest.moveWide, ofLanes_update]
    simp only [reduceCtorEq, if_false, hzero, Frame.value_define, if_true, lowBits_ofU64, himm]
    rfl
  | n =>
    rw [emitMove, Prog.wp_bind, data_constU64, data_setGpr, Guest.moveWide, ofLanes_update]
    simp only [reduceCtorEq, if_false, hzero, Frame.value_define, if_true, lowBits_ofU64,
      setWidth_clip hsf, BitVec.setWidth_not hN, himm]
    rfl
  | k =>
    rw [emitMove, Guest.moveWide, ofLanes_update]
    simp only [Prog.wp_bind, data_constU64, data_getGpr, data_and, data_or, data_setGpr, Frame.value_define,
      Frame.machine_define, Nat.left_eq_add, one_ne_zero, if_true, if_false, lowBits_sizedValue, lowBits_ofU64,
      setWidth_clip hsf, BitVec.setWidth_not hN, himm, hmask, reduceCtorEq]
    rfl

theorem translates (insn : Movewide) (em : IrEmitter) (n : Nat) (f : Frame) :
    Translates (insn.translate em) insn.arm n f := by
  rcases hfields : insn.fields with ⟨raw, kind⟩
  rw [translate, arm, hfields]
  refine translates_ite Iff.rfl fun _ => ?_
  have himm : BitVec.ofNat 64 (bits raw 5 16) = (BitVec.ofNat 16 (bits raw 5 16)).setWidth 64 := by
    have := bits_lt raw 5 (by decide : 16 < 32)
    refine BitVec.eq_of_toNat_eq ?_
    rw [BitVec.toNat_ofNat, BitVec.toNat_setWidth, BitVec.toNat_ofNat]
    omega
  rw [Translates, Prog.wp_bind, himm]
  refine Prog.wp_mono (wp_emitMove (bit_cases raw 31) _) fun _ _ f' hf' => ⟨rfl, ?_⟩
  rw [hf', toNat_regField]

end Movewide

/-! ## Addresses -/

/-- A sign extension that is shifted, as one of the shifted field. -/
theorem signExtend_shiftLeft {len k : Nat} (hlen : 0 < len) (hk : len + k ≤ 64) (imm : BitVec len) :
    imm.signExtend 64 <<< k = (imm ++ 0#k).signExtend 64 := by
  refine BitVec.eq_of_getLsbD_eq fun i hi => ?_
  have hmsb : (imm ++ 0#k).msb = imm.msb := by
    rw [BitVec.msb_append, if_neg (by simpa using hlen.ne')]
  rw [BitVec.getLsbD_shiftLeft, BitVec.getLsbD_signExtend, BitVec.getLsbD_signExtend,
    BitVec.getLsbD_append, hmsb, BitVec.getLsbD_zero, decide_eq_true hi,
    decide_eq_true (by omega : i - k < 64), Bool.true_and, Bool.true_and, Bool.true_and]
  by_cases hlow : i < k
  · simp [hlow, (by omega : i < len + k)]
  · simp [hlow, (by omega : i - k < len ↔ i < len + k)]

/-- A result of the whole size. -/
theorem result_x (m : Machine) (d : Nat) (x : U64) :
    @result m d .x (x.setWidth RegSize.x.bits) = m.writeX d x := by
  rw [result, BitVec.setWidth_setWidth_of_le x (by decide)]
  exact congrArg _ (BitVec.setWidth_eq x)

namespace Pcreladdr

/-- The immediate in two fields. -/
theorem rawImm_eq (raw : U32) : BitVec.ofNat 64 (bits raw 5 19) <<< 2 ||| BitVec.ofNat 64 (bits raw 29 2) =
    (BitVec.ofNat 19 (bits raw 5 19) ++ BitVec.ofNat 2 (bits raw 29 2)).setWidth 64 := by
  have hhi := bits_lt raw 5 (by decide : 19 < 32)
  have hlo := bits_lt raw 29 (by decide : 2 < 32)
  refine BitVec.eq_of_toNat_eq ?_
  rw [BitVec.toNat_or, BitVec.toNat_shiftLeft, BitVec.toNat_setWidth, BitVec.toNat_append, BitVec.toNat_ofNat,
    BitVec.toNat_ofNat, BitVec.toNat_ofNat, BitVec.toNat_ofNat, Nat.mod_eq_of_lt (by omega : _ < 2 ^ 64),
    Nat.mod_eq_of_lt (by omega : bits raw 29 2 < 2 ^ 64), Nat.mod_eq_of_lt (by omega : bits raw 5 19 < 2 ^ 64),
    Nat.mod_eq_of_lt hhi, Nat.mod_eq_of_lt hlo, Nat.shiftLeft_eq]
  have hor : bits raw 5 19 * 2 ^ 2 ||| bits raw 29 2 < 2 ^ 64 := Nat.or_lt_two_pow (by omega) (by omega)
  rw [Nat.mod_eq_of_lt hor]

theorem translates (insn : Pcreladdr) (em : IrEmitter) (n : Nat) (f : Frame) :
    Translates (insn.translate em) (insn.arm em.currentPc) n f := by
  rcases hfields : insn.fields with ⟨raw, isAdrp⟩
  have hoffset : signExtend (BitVec.ofNat 64 (bits raw 5 19) <<< 2 ||| BitVec.ofNat 64 (bits raw 29 2)) 21 =
      (BitVec.ofNat 19 (bits raw 5 19) ++ BitVec.ofNat 2 (bits raw 29 2)).signExtend 64 := by
    rw [signExtend_eq _ (by decide), rawImm_eq, BitVec.setWidth_setWidth_of_le _ (by decide)]
    exact congrArg _ (BitVec.setWidth_eq _)
  rw [translate, arm, hfields]
  dsimp only
  rw [Translates, Prog.wp_bind, data_constU64, Prog.wp_bind, data_setX, Prog.wp_pure, hoffset]
  refine ⟨rfl, ?_⟩
  simp only [Frame.value_define, Frame.machine_define, if_true, lowBits_ofU64, toNat_regField, Guest.address]
  cases isAdrp with
  | false => exact result_x ..
  | true =>
    rw [if_pos rfl, if_pos rfl, signExtend_shiftLeft (by decide) (by decide)]
    exact result_x ..

end Pcreladdr

/-! ## One source -/

namespace Dp1src

variable {H : BitHost} {em : IrEmitter} {n : Nat} {f : Frame}

/-- The code of an operation counts what its kind does. -/
theorem emitOneSource_op {host : BitCode.Host} {kind : Kind} {size : RegSize} {o : Op}
    (h : op kind size = some o) :
    ∃ code, BitCode.emitOneSource host o (tyOf size) = some (size, code) ∧
      BitCode.oneSource o size = count kind := by
  cases kind <;> cases size <;> cases h <;> exact ⟨_, rfl, rfl⟩

theorem node_count {kind : Kind} {size : RegSize} {o : Op} (h : op kind size = some o) (src : ValueRef)
    {Q : ValueRef → Nat → Frame → Prop} :
    (em.push ((Armlet.new o (tyOf size)).withArgs [src])).wp (Armlet.nodeStep H) n f Q ↔
      Q n (n + 1) (f.define n (sizedValue size (count kind (lowBits (f.value src) size)))) := by
  obtain ⟨code, hcode, hcount⟩ := (emitOneSource_op h : ∃ code,
    BitCode.emitOneSource H.host o (tyOf size) = some (size, code) ∧
      BitCode.oneSource o size = count kind)
  have hlow : (f.value src).lo64.setWidth size.bits = lowBits (f.value src) size := by
    cases size
    · exact (f.value src).setWidth_lo64
    · exact BitVec.setWidth_eq _
  have hval :
    (⟨tyOf size, (BitCode.oneSource o size ((f.value src).lo64.setWidth size.bits)).setWidth 128⟩ : Value) =
      sizedValue size (count kind (lowBits (f.value src) size)) := by
    rw [hcount, hlow]
    cases size <;> rfl
  rw [node_push (Armlet.nodeStep_oneSource hcode), ← hval]
  rfl

theorem nodeEnds (insn : Dp1src) {exec : Machine → Machine} (harm : insn.arm = some exec) :
    NodeEnds H (insn.translate em) n f (exec f.machine) := by
  rcases hfields : insn.fields with ⟨raw, _ | kind⟩
  · rw [arm, hfields] at harm
    cases harm
  · rw [arm, hfields] at harm
    obtain ⟨hkind, ⟨⟩⟩ := Option.ite_none_left_eq_some.mp harm
    obtain ⟨o, ho⟩ : ∃ o, op kind (sizeOf (bit raw 31)) = some o := by
      rcases bit_cases raw 31 with h | h
      · rw [h]
        cases kind <;> first | exact ⟨_, rfl⟩ | exact absurd ⟨rfl, h⟩ hkind
      · rw [h]
        cases kind <;> exact ⟨_, rfl⟩
    rw [translate, hfields]
    dsimp only
    rw [emitCount, NodeEnds, Prog.wp_bind, node_of_rule (fun _ => data_getGpr _ _), ho]
    dsimp only
    rw [Prog.wp_bind, node_count ho, Prog.wp_bind, node_of_rule (fun _ => data_setGpr _ _ _), Prog.wp_pure]
    refine ⟨rfl, ?_⟩
    simp only [Frame.value_define, Frame.machine_define, if_true, lowBits_sizedValue, toNat_regField]
    rfl

end Dp1src

/-! ## System instructions -/

namespace IcSystem

variable {H : BitHost} {em : IrEmitter} {n : Nat} {f : Frame}

theorem nodeEnds_idle {op : Op} (h : Armlet.isIdle op = true) : NodeEnds H (idleNode em op) n f f.machine := by
  rw [idleNode, NodeEnds, Prog.wp_bind, node_push (Armlet.nodeStep_idle h), Prog.wp_pure]
  exact ⟨rfl, rfl⟩

/-- What the loop of the stores keeps: the address of the block and the zero. -/
structure Zeroing (f₀ : Frame) (block : U64) (aligned value : ValueRef) (done : List Nat) (n : Nat)
    (f : Frame) :
    Prop where
  aligned_lt : aligned < n
  value_lt : value < n
  aligned_eq : (f.value aligned).lo64 = block
  value_eq : f.value value = .ofU64 .u64 0
  machine_eq : f.machine = done.foldl (fun m k => m.store (block + BitVec.ofNat 64 (8 * k)) 8 0) f₀.machine

theorem wp_emitZeroAt {f₀ : Frame} {block : U64} {aligned value : ValueRef} {done : List Nat} {k : Nat}
    (h : Zeroing f₀ block aligned value done n f) :
    (emitZeroAt em aligned value (8 * k)).wp (Armlet.nodeStep H) n f fun _ n' f' =>
      Zeroing f₀ block aligned value (done ++ [k]) n' f' := by
  have hstore {addr : ValueRef} {n' : Nat} {f' : Frame} (hf' : Zeroing f₀ block aligned value done n' f')
      (haddr : (f'.value addr).lo64 = block + BitVec.ofNat 64 (8 * k)) :
      (em.store addr value 8).wp (Armlet.nodeStep H) n' f' fun _ n'' f'' =>
        Zeroing f₀ block aligned value (done ++ [k]) n'' f'' := by
    refine (node_of_rule (fun _ => data_of_rule (fun _ => wp_store (by decide : 3 ≤ 4) addr value) _) _).mpr ?_
    refine ⟨hf'.aligned_lt.trans (Nat.lt_succ_self _), hf'.value_lt.trans (Nat.lt_succ_self _), hf'.aligned_eq,
      hf'.value_eq, ?_⟩
    rw [List.foldl_append, ← hf'.machine_eq, haddr, hf'.value_eq]
    rfl
  rw [emitZeroAt, Prog.wp_bind, emitAddr]
  by_cases hk : 8 * k = 0
  · rw [if_pos hk, Prog.wp_pure]
    exact hstore h (by rw [h.aligned_eq, hk]; exact (BitVec.add_zero _).symm)
  · rw [if_neg hk, Prog.wp_bind, node_of_rule (fun _ => data_constU64 _), node_of_rule (fun _ => data_add _)]
    have haligned : aligned ≠ n ∧ aligned ≠ n + 1 := ⟨h.aligned_lt.ne, (h.aligned_lt.trans n.lt_succ_self).ne⟩
    have hvalue : value ≠ n ∧ value ≠ n + 1 := ⟨h.value_lt.ne, (h.value_lt.trans n.lt_succ_self).ne⟩
    refine hstore ⟨Nat.lt_add_right 2 h.aligned_lt, Nat.lt_add_right 2 h.value_lt, ?_, ?_, h.machine_eq⟩ ?_
    · simp only [Frame.value_define, haligned.1, haligned.2, if_false, h.aligned_eq]
    · simp only [Frame.value_define, hvalue.1, hvalue.2, if_false, h.value_eq]
    · simp only [Frame.value_define, haligned.1, if_true, if_false, lo64_sizedValue, lowBits_ofU64]
      rw [← h.aligned_eq]
      exact (BitVec.setWidth_eq _).trans (congrArg ((f.value aligned).lo64 + ·) (BitVec.setWidth_eq _))

theorem wp_emitZeroBlock (rt : U8) : (emitZeroBlock em rt).wp (Armlet.nodeStep H) n f fun _ _ f' =>
    f'.machine = zeroBlock rt.toNat f.machine := by
  rw [emitZeroBlock, Prog.wp_bind, node_of_rule (fun _ => data_getXOrSp _ _), Prog.wp_bind,
    node_of_rule (fun _ => data_constU64 _), Prog.wp_bind, node_of_rule (fun _ => data_and _), Prog.wp_bind,
    node_of_rule (fun _ => data_constU64 _)]
  refine Prog.wp_foldlM (fun done _ n' f' =>
    Zeroing f (f.machine.readX rt.toNat &&& ~~~63#64) (n + 1 + 1) (n + 1 + 1 + 1) done n' f') ?_ ?_ ?_
  · refine ⟨Nat.lt_succ_of_lt (Nat.lt_succ_self _), Nat.lt_succ_self _, ?_, ?_, rfl⟩
    · have hwhole (x : U64) : (x.setWidth RegSize.x.bits).setWidth 64 = x :=
        (BitVec.setWidth_eq _).trans (BitVec.setWidth_eq x)
      simp [hwhole]
    · simp
  · exact fun done k rest _ _ n' f' h => wp_emitZeroAt h
  · exact fun _ _ f' h => h.machine_eq

theorem nodeEnds (insn : IcSystem) {exec : Machine → Machine} (harm : insn.arm = some exec) :
    NodeEnds H (insn.translate em) n f (exec f.machine) := by
  cases insn with
  | sys raw =>
    obtain ⟨hzeroes, ⟨⟩⟩ := Option.ite_none_right_eq_some.mp harm
    rw [translate, if_pos hzeroes, NodeEnds, Prog.wp_bind]
    refine Prog.wp_mono (wp_emitZeroBlock _) fun _ _ f' hf' => ⟨rfl, ?_⟩
    rw [hf', toNat_regField]
  | _ => cases harm <;> exact nodeEnds_idle rfl

end IcSystem

end Rustarmic
