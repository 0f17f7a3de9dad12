import Rustarmic.Lib.Emitting
import Rustarmic.Lib.ModularMemory
import Rustarmic.Optimizer.Fold

/-!
# What the nodes of a block do

A `Machine` is the guest state that nodes read and write; a `Frame` adds the values of the nodes
that ran so far.  `Armlet.step` is the effect of one node as the back end lowers it, wherever the
register allocator puts the operands: a value of 32 bits is kept zero-extended, an operation reads
as much of an operand as it is wide, and accesses to memory do not fault.

* `Armlet.registerStep` — guest registers and constants.
* `Armlet.flagStep` — the operations that leave the host flags in NZCV.
* `Armlet.memoryStep` — loads and stores of plain accesses; each is noted in `accesses`.
* `Optimizer.foldOp` gives the remaining integer operations.
-/

set_option autoImplicit false

namespace Rustarmic

open ModularMemory

/-- One access to guest memory. -/
structure GuestAccess where
  write : Bool
  addr : U64
  bytes : Nat
  deriving DecidableEq, Repr

/-- The guest state that plain nodes read and write. -/
structure Machine where
  x : Nat → U64
  sp : U64
  nzcv : U8
  v : Nat → U128
  memory : Mem 64
  /-- What was accessed, the latest first. -/
  accesses : List GuestAccess

namespace Machine

/-- `load_guest_x`: register 31 reads as zero. -/
def readX (m : Machine) (reg : Nat) : U64 := if reg = zrEncoding then 0 else m.x reg

/-- `store_guest_x`: nothing is written to register 31. -/
def writeX (m : Machine) (reg : Nat) (value : U64) : Machine :=
  if reg = zrEncoding then m else { m with x := Function.update m.x reg value }

def writeV (m : Machine) (reg : Nat) (value : U128) : Machine :=
  { m with v := Function.update m.v reg value }

def load (m : Machine) (addr : U64) (bytes : Nat) : Machine :=
  { m with accesses := ⟨false, addr, bytes⟩ :: m.accesses }

def store (m : Machine) (addr : U64) (bytes : Nat) (value : U128) : Machine :=
  { m with memory := write m.memory addr bytes value, accesses := ⟨true, addr, bytes⟩ :: m.accesses }

end Machine

/-- The value of a node with the type of the node; a scalar is zero-extended. -/
structure Value where
  ty : Ty
  bits : U128
  deriving DecidableEq, Repr

namespace Value

def lo32 (v : Value) : U32 := v.bits.setWidth 32

def lo64 (v : Value) : U64 := v.bits.setWidth 64

def ofU32 (ty : Ty) (x : U32) : Value := ⟨ty, x.setWidth 128⟩

def ofU64 (ty : Ty) (x : U64) : Value := ⟨ty, x.setWidth 128⟩

variable (ty : Ty) (v : Value)

@[simp] theorem ty_ofU32 (x : U32) : (ofU32 ty x).ty = ty := rfl

@[simp] theorem ty_ofU64 (x : U64) : (ofU64 ty x).ty = ty := rfl

@[simp] theorem lo32_ofU32 (x : U32) : (ofU32 ty x).lo32 = x :=
  BitVec.setWidth_setWidth_of_le x (by decide)

@[simp] theorem lo64_ofU64 (x : U64) : (ofU64 ty x).lo64 = x :=
  BitVec.setWidth_setWidth_of_le x (by decide)

@[simp] theorem lo64_ofU32 (x : U32) : (ofU32 ty x).lo64 = x.setWidth 64 :=
  BitVec.setWidth_setWidth_of_le x (by decide)

@[simp] theorem lo32_ofU64 (x : U64) : (ofU64 ty x).lo32 = x.setWidth 32 :=
  BitVec.setWidth_setWidth_of_le x (by decide)

@[simp] theorem setWidth_lo64 : v.lo64.setWidth 32 = v.lo32 :=
  BitVec.setWidth_setWidth_of_le v.bits (by decide)

end Value

/-- The machine and the values of the nodes that ran. -/
structure Frame where
  machine : Machine
  value : ValueRef → Value

namespace Frame

/-- The value of a node becomes known. -/
def define (f : Frame) (n : ValueRef) (v : Value) : Frame :=
  { f with value := Function.update f.value n v }

@[simp] theorem machine_define (f : Frame) (n : ValueRef) (v : Value) :
    (f.define n v).machine = f.machine := rfl

@[simp] theorem value_define (f : Frame) (n : ValueRef) (v : Value) (r : ValueRef) :
    (f.define n v).value r = if r = n then v else f.value r :=
  Function.update_apply f.value n v r

end Frame

/-! ## Flags -/

/-- The byte of the context: `N` in bit 3 down to `V` in bit 0. -/
def packNzcv (n z c v : Bool) : U8 :=
  (if n then Nzcv.nBit else 0) ||| (if z then Nzcv.zBit else 0) ||| (if c then Nzcv.cBit else 0) |||
    (if v then Nzcv.vBit else 0)

/-- The flags the host leaves behind an addition. -/
def addFlags {w : Nat} (x y : BitVec w) : U8 :=
  packNzcv (x + y).msb (x + y == 0#w) (BitVec.uaddOverflow x y) (BitVec.saddOverflow x y)

/-- The same for a subtraction; the carry of the guest is the absence of a borrow. -/
def subFlags {w : Nat} (x y : BitVec w) : U8 :=
  packNzcv (x - y).msb (x - y == 0#w) (!BitVec.usubOverflow x y) (BitVec.ssubOverflow x y)

def logicFlags {w : Nat} (x : BitVec w) : U8 := packNzcv x.msb (x == 0#w) false false

/-! ## Steps -/

namespace Armlet

variable (a : Armlet) (f : Frame) (n : ValueRef)

def arg (k : Fin 4) : Value := f.value (a.args.get k)

/-- Constants and guest registers.  How much of a vector register is read is the type of the node,
how much is written the type of the value. -/
def registerStep : Option Frame :=
  let m := f.machine
  let reg := a.imm.toNat
  match a.op with
  | .constU32 => some (f.define n (.ofU32 a.ty (a.imm.setWidth 32)))
  | .constU64 => some (f.define n (.ofU64 a.ty a.imm))
  | .getX => some (f.define n (.ofU64 a.ty (m.readX reg)))
  | .getW => some (f.define n (.ofU32 a.ty ((m.readX reg).setWidth 32)))
  | .setX => some { f with machine := m.writeX reg (a.arg f 0).lo64 }
  | .setW => some { f with machine := m.writeX reg ((a.arg f 0).lo32.setWidth 64) }
  | .getSp => some (f.define n (.ofU64 a.ty m.sp))
  | .setSp => some { f with machine := { m with sp := (a.arg f 0).lo64 } }
  | .getNzcv => some (f.define n ⟨a.ty, m.nzcv.setWidth 128⟩)
  | .setNzcv => some { f with machine := { m with nzcv := (a.arg f 0).bits.setWidth 8 } }
  | .getV =>
    match a.ty with
    | .u32 => some (f.define n (.ofU32 a.ty ((m.v reg).setWidth 32)))
    | .u64 => some (f.define n (.ofU64 a.ty ((m.v reg).setWidth 64)))
    | .u128 => some (f.define n ⟨a.ty, m.v reg⟩)
    | _ => none
  | .setV =>
    match (a.arg f 0).ty with
    | .u32 => some { f with machine := m.writeV reg ((a.arg f 0).lo32.setWidth 128) }
    | .u64 => some { f with machine := m.writeV reg ((a.arg f 0).lo64.setWidth 128) }
    | .u128 => some { f with machine := m.writeV reg (a.arg f 0).bits }
    | _ => none
  | _ => none

/-- The operations that set NZCV. -/
def flagStep : Option Frame :=
  let x := a.arg f 0
  let y := a.arg f 1
  let flags (nzcv : U8) : Frame := { f with machine := { f.machine with nzcv } }
  match a.op with
  | .addsFlags32 => some ((flags (addFlags x.lo32 y.lo32)).define n (.ofU32 a.ty (x.lo32 + y.lo32)))
  | .addsFlags64 => some ((flags (addFlags x.lo64 y.lo64)).define n (.ofU64 a.ty (x.lo64 + y.lo64)))
  | .subsFlags32 => some ((flags (subFlags x.lo32 y.lo32)).define n (.ofU32 a.ty (x.lo32 - y.lo32)))
  | .subsFlags64 => some ((flags (subFlags x.lo64 y.lo64)).define n (.ofU64 a.ty (x.lo64 - y.lo64)))
  | .logicFlags32 => some (flags (logicFlags x.lo32))
  | .logicFlags64 => some (flags (logicFlags x.lo64))
  | _ => none

/-- The bytes a plain load reads, or a plain store writes. -/
def accessBytes : Op → Option (Bool × Nat)
  | .load8 => some (false, 1)
  | .load16 => some (false, 2)
  | .load32 => some (false, 4)
  | .load64 => some (false, 8)
  | .load128 => some (false, 16)
  | .store8 => some (true, 1)
  | .store16 => some (true, 2)
  | .store32 => some (true, 4)
  | .store64 => some (true, 8)
  | .store128 => some (true, 16)
  | _ => none

/-- Loads and stores; the width of the element accesses (`imm`) does not change what is read or
written. -/
def memoryStep : Option Frame :=
  let addr := (a.arg f 0).lo64
  (accessBytes a.op).map fun p =>
    if p.1 then { f with machine := f.machine.store addr p.2 (a.arg f 1).bits }
    else Frame.define { f with machine := f.machine.load addr p.2 } n
      ⟨a.ty, read 128 f.machine.memory addr p.2⟩

/-- The operations on integer registers that have no effect but their value. -/
def scalarStep : Option Frame :=
  (Optimizer.foldOp a.op (a.arg f 0).lo64 (some (a.arg f 1).lo64)).map fun r =>
    f.define n (.ofU64 a.ty r)

/-- What node `n` does. -/
def step (n : ValueRef) (a : Armlet) (f : Frame) : Option Frame :=
  a.registerStep f n <|> a.flagStep f n <|> a.memoryStep f n <|> a.scalarStep f n

/-! ## Shift amounts -/

/-- The width of a shift. -/
def shiftWidth : Op → Option Nat
  | .lsl32 | .lsr32 | .asr32 | .ror32 => some 32
  | .lsl64 | .lsr64 | .asr64 | .ror64 => some 64
  | _ => none

/-- The amount of a shift is less than its width, so that the host need not reduce it. -/
def AmountInRange (a : Armlet) (f : Frame) : Prop :=
  ∀ w, shiftWidth a.op = some w → ((a.arg f 1).bits.setWidth w).toNat < w

instance (a : Armlet) (f : Frame) : Decidable (a.AmountInRange f) :=
  match h : shiftWidth a.op with
  | none => isTrue fun w hw => by rw [h] at hw; cases hw
  | some v => decidable_of_iff (((a.arg f 1).bits.setWidth v).toNat < v)
      ⟨fun hlt w hw => by rw [h] at hw; cases hw; exact hlt, fun hall => hall v h⟩

/-- The step of a machine that does not shift by the width or more. -/
def strictStep (n : ValueRef) (a : Armlet) (f : Frame) : Option Frame :=
  if a.AmountInRange f then a.step n f else none

theorem strictStep_eq_some {n : ValueRef} {a : Armlet} {f f' : Frame} :
    a.strictStep n f = some f' ↔ a.AmountInRange f ∧ a.step n f = some f' := by
  rw [strictStep, Option.ite_none_right_eq_some]

/-! ## Integer operations -/

/-- Whether an operation touches nothing but the registers its operands are in. -/
def isScalar : Op → Bool
  | .add32 | .add64 | .sub32 | .sub64 | .and32 | .and64 | .or32 | .or64 | .eor32 | .eor64
  | .lsl32 | .lsl64 | .lsr32 | .lsr64 | .asr32 | .asr64 | .ror32 | .ror64 | .mul32 | .mul64
  | .not32 | .not64 | .neg32 | .neg64 => true
  | _ => false

theorem step_scalar {a : Armlet} {f : Frame} {n : ValueRef} (h : isScalar a.op) :
    a.step n f = a.scalarStep f n := by
  cases a with
  | mk op ty flags prev next args imm pc =>
  cases op <;> first | exact absurd h Bool.false_ne_true | rfl

end Armlet

end Rustarmic
