import Rustarmic.Frontend.Emitter
import Rustarmic.Frontend.Translator
import Rustarmic.Ir.EvalInteger

/-!
# The emitter of integer nodes

The functions of `IrEmitter` that the data-processing translators need besides those of
`Frontend.Emitter`, and one rule for every function that says what its node does under
`Armlet.dataStep`.

The rules of `Frontend.Emitter` give a result twice, once for 32 bits and once for 64, as the
operations of the source come in pairs (`Add32`, `Add64`).  A translator picks the pair's member by
the `sf` bit and is written once; so should its proof be.  Here results are given *by the size*:

* `operand`, `lowBits` — what an operation of a size reads of a register and of a value: a
  `BitVec size.bits`.
* `sizedValue`, `result` — the value of a node of that size, and the machine in which it has been
  written to a register.  A 32-bit result clears the upper half of the register, which is the
  `setWidth 64` in `result`.
* `amount` — what a shift takes of its second operand, which is the remainder by the size; the host
  masks the count to five or six bits, and so does the architecture for the shifts by a register.

With these, the effect of a translator and the pseudocode of the architecture are both functions of
`size`, and comparing them needs no case split on it.

Flags are not values in the first place.  `ADDS` and the like write NZCV as a side effect of the
node (`withNzcv`), while `GetNzcv` and `SetNzcv` move it to and from a value; a conditional compare
uses both ways.  The rules keep the two apart: `value_withNzcv` and `machine_withNzcv` say that
writing the flags leaves the values and the other registers alone.

The rules are tagged `simp`, so that a translator without a branch is followed by one call; rules
with a side condition on the register (`data_setGpr`, `data_setGprOrSp`) are applied by hand, since
what they say of the next index depends on it: nothing is pushed for a write to the zero register.
-/

set_option autoImplicit false

namespace Rustarmic

open Emitting Interp

namespace IrEmitter

variable (em : IrEmitter)

def eor (a b : ValueRef) (size : RegSize) : Emit ValueRef := em.binary .eor32 .eor64 a b size

def ror (a amt : ValueRef) (size : RegSize) : Emit ValueRef := em.binary .ror32 .ror64 a amt size

def getNzcv : Emit ValueRef := em.push (Armlet.new .getNzcv .nzcv)

def setNzcv (value : ValueRef) : Emit Unit := do
  let _ ← em.push ((Armlet.new .setNzcv .void).withArgs [value])

/-- The flags of a logical operation are computed from its *result*, by a node of their own: N and Z
are those of the result, C and V are clear. -/
def logicFlags (result : ValueRef) (size : RegSize) : Emit Unit := do
  let op := match size with
    | .w => Op.logicFlags32
    | .x => Op.logicFlags64
  let _ ← em.push (((Armlet.new op .void).withArgs [result]).withFlags Armlet.flagNzcvLive)

/-- A node of the operation and the type of its size, for operations that the source picks by a
`match` where it uses them, so that there is no function of the emitter to model. -/
def sizedNode (opW opX : Op) (args : List ValueRef) : RegSize → Emit ValueRef
  | .w => em.push ((Armlet.new opW .u32).withArgs args)
  | .x => em.push ((Armlet.new opX .u64).withArgs args)

/-- A select by the flags in `nzcv`. -/
def csel (a b nzcv : ValueRef) (cond : Nat) : RegSize → Emit ValueRef
  | .w => em.push (((Armlet.new .csel32 .u32).withArgs [a, b, nzcv]).withImm (BitVec.ofNat 64 cond))
  | .x => em.push (((Armlet.new .csel64 .u64).withArgs [a, b, nzcv]).withImm (BitVec.ofNat 64 cond))

/-! ## What the nodes do -/

section rules

variable {em : IrEmitter} {n : Nat} {f : Frame} {Q : ValueRef → Nat → Frame → Prop}
  {P : Unit → Nat → Frame → Prop}

/-- A rule for the nodes of `Armlet.step` is a rule here: `Armlet.dataStep` does the same with
them. -/
theorem data_of_rule {α : Type} {p : Emit α} {r : α} {m : Nat} {f' : Frame}
    (h : ∀ R : α → Nat → Frame → Prop, p.wp Armlet.step n f R ↔ R r m f') (R : α → Nat → Frame → Prop) :
    p.wp Armlet.dataStep n f R ↔ R r m f' :=
  Prog.wp_rule_mono (fun _ _ _ _ => Armlet.dataStep_of_step) h R

theorem data_push {a : Armlet} {f' : Frame}
    (h : Armlet.dataStep n { a with pc := em.currentPc } f = some f') :
    (em.push a).wp Armlet.dataStep n f Q ↔ Q n (n + 1) f' := by
  rw [IrEmitter.push, Prog.wp_emit, h]
  simp only [Option.some.injEq, exists_eq_left']

@[simp] theorem data_constU32 (v : U32) : (em.constU32 v).wp Armlet.dataStep n f Q ↔
    Q n (n + 1) (f.define n (.ofU32 .u32 v)) :=
  data_of_rule (fun _ => em.wp_constU32 v) Q

@[simp] theorem data_constU64 (v : U64) : (em.constU64 v).wp Armlet.dataStep n f Q ↔
    Q n (n + 1) (f.define n (.ofU64 .u64 v)) :=
  data_of_rule (fun _ => em.wp_constU64 v) Q

/-- What an operation of the size reads of a register; the zero register is zero. -/
def operand (m : Machine) (reg : Nat) (size : RegSize) : BitVec size.bits :=
  (m.readX reg).setWidth size.bits

/-- The machine with a result of the size in a register, its upper half cleared; nothing is written
to the zero register. -/
def result (m : Machine) (reg : Nat) {size : RegSize} (x : BitVec size.bits) : Machine :=
  m.writeX reg (x.setWidth 64)

/-- A 32-bit value read as 64 bits has zeros above. -/
@[simp] theorem lo64_sizedValue (size : RegSize) (x : BitVec size.bits) :
    (sizedValue size x).lo64 = x.setWidth 64 := by
  cases size
  · exact Value.lo64_ofU32 .u32 x
  · exact (Value.lo64_ofU64 .u64 x).trans (BitVec.setWidth_eq x).symm

@[simp] theorem data_getGpr (reg : U8) (size : RegSize) :
    (em.getGpr reg size).wp Armlet.dataStep n f Q ↔
      Q n (n + 1) (f.define n (sizedValue size (operand f.machine reg.toNat size))) := by
  have hval : readGpr f.machine reg.toNat size = sizedValue size (operand f.machine reg.toNat size) := by
    cases size
    · rfl
    · exact congrArg (Value.ofU64 .u64) (BitVec.setWidth_eq _).symm
  rw [← hval]
  exact data_of_rule (fun _ => em.wp_getGpr reg size) Q

@[simp] theorem data_getX (reg : U8) : (em.getX reg).wp Armlet.dataStep n f Q ↔
    Q n (n + 1) (f.define n (sizedValue .x (operand f.machine reg.toNat .x))) := data_getGpr reg .x

@[simp] theorem data_getW (reg : U8) : (em.getW reg).wp Armlet.dataStep n f Q ↔
    Q n (n + 1) (f.define n (sizedValue .w (operand f.machine reg.toNat .w))) := data_getGpr reg .w

theorem data_getXOrSp (reg : U8) (spForm : Bool) : (em.getXOrSp reg spForm).wp Armlet.dataStep n f Q ↔
    Q n (n + 1) (f.define n (.ofU64 .u64 (if reg.toNat = zrEncoding ∧ spForm then f.machine.sp
      else f.machine.readX reg.toNat))) :=
  data_of_rule (fun _ => em.wp_getXOrSp reg spForm) Q

@[simp] theorem data_getNzcv : em.getNzcv.wp Armlet.dataStep n f Q ↔
    Q n (n + 1) (f.define n ⟨.nzcv, f.machine.nzcv.setWidth 128⟩) := data_push rfl

@[simp] theorem data_setNzcv (value : ValueRef) : (em.setNzcv value).wp Armlet.dataStep n f P ↔
    P () (n + 1) { f with machine := { f.machine with nzcv := (f.value value).bits.setWidth 8 } } := by
  rw [setNzcv, Prog.wp_bind, data_push rfl]
  rfl

/-! ### Results -/

theorem data_setGpr (reg : U8) (value : ValueRef) (size : RegSize) :
    (em.setGpr reg value size).wp Armlet.dataStep n f P ↔
      P () (if reg.toNat = zrEncoding then n else n + 1)
        { f with machine := result f.machine reg.toNat (lowBits (f.value value) size) } := by
  have hval : writeGpr f.machine reg.toNat (f.value value) size =
      result f.machine reg.toNat (lowBits (f.value value) size) := by
    cases size
    · rfl
    · exact congrArg (f.machine.writeX reg.toNat) (BitVec.setWidth_eq _).symm
  rw [← hval]
  exact data_of_rule (fun _ => em.wp_setGpr reg value size) P

theorem data_setX (reg : U8) (value : ValueRef) : (em.setX reg value).wp Armlet.dataStep n f P ↔
    P () (if reg.toNat = zrEncoding then n else n + 1)
      { f with machine := result f.machine reg.toNat (lowBits (f.value value) .x) } :=
  data_setGpr reg value .x

theorem data_setW (reg : U8) (value : ValueRef) : (em.setW reg value).wp Armlet.dataStep n f P ↔
    P () (if reg.toNat = zrEncoding then n else n + 1)
      { f with machine := result f.machine reg.toNat (lowBits (f.value value) .w) } :=
  data_setGpr reg value .w

/-- A result may go to the stack pointer instead, and that is written as a whole: a 32-bit result is
extended first, as it is for a register.  The value has to be one of the size, or `set_sp` would
write what a 32-bit node has above. -/
theorem data_setGprOrSp (reg : U8) (value : ValueRef) (size : RegSize) (spForm : Bool)
    {x : BitVec size.bits} (hx : f.value value = sizedValue size x) :
    (em.setGprOrSp reg value size spForm).wp Armlet.dataStep n f P ↔
      P () (if reg.toNat = zrEncoding ∧ ¬ spForm then n else n + 1)
        { f with
          machine := if reg.toNat = zrEncoding ∧ spForm then { f.machine with sp := x.setWidth 64 }
            else result f.machine reg.toNat x } := by
  have hval : writeGprOrSp f.machine reg.toNat (f.value value) size spForm =
      if reg.toNat = zrEncoding ∧ spForm then { f.machine with sp := x.setWidth 64 }
        else result f.machine reg.toNat x := by
    have hgpr : writeGpr f.machine reg.toNat (f.value value) size = result f.machine reg.toNat x := by
      rw [hx]
      cases size
      · exact congrArg (fun y : U32 => f.machine.writeX reg.toNat (y.setWidth 64)) (Value.lo32_ofU32 .u32 x)
      · exact congrArg (f.machine.writeX reg.toNat)
          ((Value.lo64_ofU64 .u64 x).trans (BitVec.setWidth_eq _).symm)
    rw [writeGprOrSp, hgpr, hx, lo64_sizedValue]
    by_cases hreg : reg.toNat = zrEncoding
    · cases spForm
      · simp [hreg, result, Machine.writeX]
      · simp [hreg]
    · simp [hreg]
  rw [← hval]
  exact data_of_rule (fun _ => em.wp_setGprOrSp reg value size spForm) P

/-! ### Operations with two operands -/

variable {a b : ValueRef} (size : RegSize)

theorem wp_eor : (em.eor a b size).wp Armlet.step n f Q ↔
    Q n (n + 1) (f.define n (binaryValue (· ^^^ ·) (· ^^^ ·) (f.value a) (f.value b) size)) :=
  em.wp_binary size rfl rfl (fun _ _ => rfl) (fun _ _ => rfl)

theorem wp_ror : (em.ror a b size).wp Armlet.step n f Q ↔ Q n (n + 1) (f.define n
    (binaryValue (fun u v => u.rotateRight (amount32 v)) (fun u v => u.rotateRight (amount64 v))
      (f.value a) (f.value b) size)) :=
  em.wp_binary size rfl rfl (fun _ _ => rfl) (fun _ _ => rfl)

theorem wp_mul : (em.binary .mul32 .mul64 a b size).wp Armlet.step n f Q ↔
    Q n (n + 1) (f.define n (binaryValue (· * ·) (· * ·) (f.value a) (f.value b) size)) :=
  em.wp_binary size rfl rfl (fun _ _ => rfl) (fun _ _ => rfl)

/-- A pair of operations that do the same on 32 and on 64 bits, as one operation on `size.bits`. -/
theorem sizedValue_binary (op : ∀ {w : Nat}, BitVec w → BitVec w → BitVec w) (x y : Value) :
    binaryValue op op x y size = sizedValue size (op (lowBits x size) (lowBits y size)) := by
  cases size <;> rfl

@[simp] theorem data_add : (em.add a b size).wp Armlet.dataStep n f Q ↔
    Q n (n + 1) (f.define n (sizedValue size (lowBits (f.value a) size + lowBits (f.value b) size))) := by
  rw [data_of_rule (fun _ => em.wp_add size), sizedValue_binary size fun {_} x y => x + y]

@[simp] theorem data_sub : (em.sub a b size).wp Armlet.dataStep n f Q ↔
    Q n (n + 1) (f.define n (sizedValue size (lowBits (f.value a) size - lowBits (f.value b) size))) := by
  rw [data_of_rule (fun _ => em.wp_sub size), sizedValue_binary size fun {_} x y => x - y]

@[simp] theorem data_and : (em.and a b size).wp Armlet.dataStep n f Q ↔
    Q n (n + 1) (f.define n (sizedValue size (lowBits (f.value a) size &&& lowBits (f.value b) size))) := by
  rw [data_of_rule (fun _ => em.wp_and size), sizedValue_binary size fun {_} x y => x &&& y]

@[simp] theorem data_or : (em.or a b size).wp Armlet.dataStep n f Q ↔
    Q n (n + 1) (f.define n (sizedValue size (lowBits (f.value a) size ||| lowBits (f.value b) size))) := by
  rw [data_of_rule (fun _ => em.wp_or size), sizedValue_binary size fun {_} x y => x ||| y]

@[simp] theorem data_eor : (em.eor a b size).wp Armlet.dataStep n f Q ↔
    Q n (n + 1) (f.define n (sizedValue size (lowBits (f.value a) size ^^^ lowBits (f.value b) size))) := by
  rw [data_of_rule (fun _ => em.wp_eor size), sizedValue_binary size fun {_} x y => x ^^^ y]

/-- The amount that a shift of the size takes from its operand: the host uses the low five bits of
the count for 32-bit operands and six for 64-bit ones. -/
def amount (v : Value) (size : RegSize) : Nat := (lowBits v size).toNat % size.bits

/-- Masking the count is taking the remainder by the width. -/
theorem amounts_eq (v : Value) : amount32 v.lo32 = amount v .w ∧ amount64 v.lo64 = amount v .x := by
  constructor
  · rw [amount32, BitVec.toNat_and]
    exact Nat.and_two_pow_sub_one_eq_mod v.lo32.toNat 5
  · rw [amount64, Optimizer.shiftBy, BitVec.toNat_and, BitVec.toNat_setWidth]
    refine (Nat.and_two_pow_sub_one_eq_mod _ 6).trans ?_
    exact Nat.mod_mod_of_dvd _ (by decide)

/-- As `sizedValue_binary`, where the second operand is a count and no word. -/
theorem sizedValue_shift (op : ∀ {w : Nat}, BitVec w → Nat → BitVec w) (x y : Value) :
    binaryValue (fun u v => op u (amount32 v)) (fun u v => op u (amount64 v)) x y size =
      sizedValue size (op (lowBits x size) (amount y size)) := by
  obtain ⟨hw, hx⟩ := amounts_eq y
  cases size
  · rw [binaryValue, hw]
    rfl
  · rw [binaryValue, hx]
    rfl

@[simp] theorem data_lsl : (em.lsl a b size).wp Armlet.dataStep n f Q ↔
    Q n (n + 1) (f.define n (sizedValue size (lowBits (f.value a) size <<< amount (f.value b) size))) := by
  rw [data_of_rule (fun _ => em.wp_lsl size), sizedValue_shift size fun {_} x k => x <<< k]

@[simp] theorem data_lsr : (em.lsr a b size).wp Armlet.dataStep n f Q ↔
    Q n (n + 1) (f.define n (sizedValue size (lowBits (f.value a) size >>> amount (f.value b) size))) := by
  rw [data_of_rule (fun _ => em.wp_lsr size), sizedValue_shift size fun {_} x k => x >>> k]

@[simp] theorem data_asr : (em.asr a b size).wp Armlet.dataStep n f Q ↔ Q n (n + 1)
    (f.define n (sizedValue size ((lowBits (f.value a) size).sshiftRight (amount (f.value b) size)))) := by
  rw [data_of_rule (fun _ => em.wp_asr size), sizedValue_shift size fun {_} x k => x.sshiftRight k]

@[simp] theorem data_ror : (em.ror a b size).wp Armlet.dataStep n f Q ↔ Q n (n + 1)
    (f.define n (sizedValue size ((lowBits (f.value a) size).rotateRight (amount (f.value b) size)))) := by
  rw [data_of_rule (fun _ => em.wp_ror size), sizedValue_shift size fun {_} x k => x.rotateRight k]

@[simp] theorem data_mul : (em.binary .mul32 .mul64 a b size).wp Armlet.dataStep n f Q ↔
    Q n (n + 1) (f.define n (sizedValue size (lowBits (f.value a) size * lowBits (f.value b) size))) := by
  rw [data_of_rule (fun _ => em.wp_mul size), sizedValue_binary size fun {_} x y => x * y]

/-! ### Flags -/

/-- The frame with other flags in the machine, and everything else as it was. -/
def withNzcv (f : Frame) (nzcv : U8) : Frame := { f with machine := { f.machine with nzcv } }

@[simp] theorem value_withNzcv (nzcv : U8) : (withNzcv f nzcv).value = f.value := rfl

@[simp] theorem machine_withNzcv (nzcv : U8) :
    (withNzcv f nzcv).machine = { f.machine with nzcv } := rfl

@[simp] theorem data_adds : (em.adds a b size).wp Armlet.dataStep n f Q ↔ Q n (n + 1)
    ((withNzcv f (addFlags (lowBits (f.value a) size) (lowBits (f.value b) size))).define n
      (sizedValue size (lowBits (f.value a) size + lowBits (f.value b) size))) := by
  rw [data_of_rule (fun _ => em.wp_adds size), sizedValue_binary size fun {_} x y => x + y]
  cases size <;> exact Iff.rfl

@[simp] theorem data_subs : (em.subs a b size).wp Armlet.dataStep n f Q ↔ Q n (n + 1)
    ((withNzcv f (subFlags (lowBits (f.value a) size) (lowBits (f.value b) size))).define n
      (sizedValue size (lowBits (f.value a) size - lowBits (f.value b) size))) := by
  rw [data_of_rule (fun _ => em.wp_subs size), sizedValue_binary size fun {_} x y => x - y]
  cases size <;> exact Iff.rfl

@[simp] theorem data_logicFlags (value : ValueRef) :
    (em.logicFlags value size).wp Armlet.dataStep n f P ↔
      P () (n + 1) (withNzcv f (Rustarmic.logicFlags (lowBits (f.value value) size))) := by
  cases size
  · rw [logicFlags, Prog.wp_bind, data_push rfl]
    exact Iff.rfl
  · rw [logicFlags, Prog.wp_bind, data_push rfl]
    exact Iff.rfl

/-! ### Nodes with a rule of their own -/

@[simp] theorem data_csel (nzcv : ValueRef) (cond : Nat) :
    (em.csel a b nzcv cond size).wp Armlet.dataStep n f Q ↔ Q n (n + 1) (f.define n (sizedValue size
      (if condHolds (BitVec.ofNat 64 cond) (f.value nzcv) then lowBits (f.value a) size
        else lowBits (f.value b) size))) := by
  cases size <;> exact data_push rfl

/-- The carry of flags that are a value.  C is bit 1 of the byte. -/
def carryOf (nzcv : Value) : Bool := nzcv.lo32.getLsbD 1

@[simp] theorem data_adc (nzcv : ValueRef) :
    (em.sizedNode .adc32 .adc64 [a, b, nzcv] size).wp Armlet.dataStep n f Q ↔ Q n (n + 1)
      (f.define n (sizedValue size
        (hostAdc (lowBits (f.value a) size) (lowBits (f.value b) size) (carryOf (f.value nzcv))))) := by
  cases size <;> exact data_push rfl

@[simp] theorem data_sbc (nzcv : ValueRef) :
    (em.sizedNode .sbc32 .sbc64 [a, b, nzcv] size).wp Armlet.dataStep n f Q ↔ Q n (n + 1)
      (f.define n (sizedValue size
        (hostSbb (lowBits (f.value a) size) (lowBits (f.value b) size) !carryOf (f.value nzcv)))) := by
  cases size <;> exact data_push rfl

@[simp] theorem data_adcs (nzcv : ValueRef) :
    (em.sizedNode .adcs32 .adcs64 [a, b, nzcv] size).wp Armlet.dataStep n f Q ↔ Q n (n + 1)
      ((withNzcv f (adcFlags (lowBits (f.value a) size) (lowBits (f.value b) size)
          (carryOf (f.value nzcv)))).define n (sizedValue size
        (hostAdc (lowBits (f.value a) size) (lowBits (f.value b) size) (carryOf (f.value nzcv))))) := by
  cases size <;> exact data_push rfl

@[simp] theorem data_sbcs (nzcv : ValueRef) :
    (em.sizedNode .sbcs32 .sbcs64 [a, b, nzcv] size).wp Armlet.dataStep n f Q ↔ Q n (n + 1)
      ((withNzcv f (sbbFlags (lowBits (f.value a) size) (lowBits (f.value b) size)
          !carryOf (f.value nzcv))).define n (sizedValue size
        (hostSbb (lowBits (f.value a) size) (lowBits (f.value b) size) !carryOf (f.value nzcv)))) := by
  cases size <;> exact data_push rfl

@[simp] theorem data_udiv : (em.sizedNode .uDiv32 .uDiv64 [a, b] size).wp Armlet.dataStep n f Q ↔
    Q n (n + 1) (f.define n
      (sizedValue size (guardedDiv (lowBits (f.value a) size) (lowBits (f.value b) size)))) := by
  cases size <;> exact data_push rfl

@[simp] theorem data_sdiv : (em.sizedNode .sDiv32 .sDiv64 [a, b] size).wp Armlet.dataStep n f Q ↔
    Q n (n + 1) (f.define n
      (sizedValue size (guardedSdiv (lowBits (f.value a) size) (lowBits (f.value b) size)))) := by
  cases size <;> exact data_push rfl

theorem data_mulh (signed : Bool) :
    (em.push ((Armlet.new (if signed then .sMulH64 else .uMulH64) .u64).withArgs [a, b])).wp
        Armlet.dataStep n f Q ↔
      Q n (n + 1) (f.define n
        (sizedValue .x (mulHigh (lowBits (f.value a) .x) (lowBits (f.value b) .x) signed))) := by
  cases signed <;> exact data_push rfl

end rules

end IrEmitter

/-- The constant with which a translator inverts a register by an exclusive or.  It is a 64-bit
constant in any case, and has ones in the low half only for a 32-bit operation. -/
def onesOf (sf : Nat) : U64 := if sf = 1 then BitVec.allOnes 64 else 0xFFFFFFFF

@[simp] theorem setWidth_onesOf (sf : Nat) :
    (onesOf sf).setWidth (sizeOf sf).bits = BitVec.allOnes (sizeOf sf).bits := by
  by_cases h : sf = 1
  · rw [onesOf, sizeOf, if_pos h, if_pos h]
    rfl
  · rw [onesOf, sizeOf, if_neg h, if_neg h]
    rfl

/-- What a translator owes an encoding: the effect that the architecture gives it, or an error when
it is reserved. -/
def Translates (p : Emit InstStatus) (exec : Option (Machine → Machine)) (n : Nat) (f : Frame) : Prop :=
  match exec with
  | none => ∃ e, p = .fail (.error e)
  | some exec => p.wp Armlet.dataStep n f fun st _ f' => st = .continues ∧ f'.machine = exec f.machine

/-- What is rejected is what is reserved. -/
theorem translates_ite {c c' : Prop} [Decidable c] [Decidable c'] (hc : c ↔ c') {e : Error}
    {p : Emit InstStatus}
    {exec : Option (Machine → Machine)} {n : Nat} {f : Frame} (h : ¬ c → Translates p exec n f) :
    Translates (if c then .fail (.error e) else p) (if c' then none else exec) n f := by
  by_cases hyes : c
  · rw [if_pos hyes, if_pos (hc.mp hyes)]
    exact ⟨e, rfl⟩
  · rw [if_neg hyes, if_neg (mt hc.mpr hyes)]
    exact h hyes

end Rustarmic
