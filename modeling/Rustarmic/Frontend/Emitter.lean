import Rustarmic.Error
import Rustarmic.Interp.ThreeSame
import Rustarmic.Ir.Eval

/-!
# The emitter

`IrEmitter` has one function for every node a translator can push.  A translator is a program that
calls them, `Emit`; `IrEmitter.place` is what it does to a block, and `place_eq` says that this is
to append its nodes.

Every function has one rule, which says what the node does when it runs, so that a translator can be
followed call by call.

## Two readings of a translator

A translator runs while a guest's code is translated, and what it leaves runs later.  So the same
program has two meanings, and a theorem about it has to keep them apart.

* **Running it** gives nodes, and an error or a result.  It decides by the word only: it cannot look
  at a register, since there is none yet.  `Emit` is the free monad over pushing a node
  (`Lib.Emitting`), and the index of the node is all that comes back.
* **Running its nodes** changes a machine.  `wp` is the weakest precondition of that:
  `p.wp step n f Q` says that the nodes of `p`, put at index `n` and on, run from the frame `f` to
  one where `Q` holds of the result of `p`.  A rule is an equivalence, so that `simp` can follow a
  translator through its calls.

An error is the end of both.  `Stop.panic` stands for the places where the source would panic, and a
theorem that a translator's nodes do something excludes it.

## Machines

Rules are stated for `Armlet.step` first.  `Armlet.strictStep` does the same but has no value for a
shift by the width or more, and `Computes` is for pieces of code that leave the machine as it is and
only return a value; both carry over to the machines of later files.
-/

set_option autoImplicit false

namespace Rustarmic

open Emitting Interp

/-- The operand size of an integer instruction. -/
inductive RegSize where
  | w | x
  deriving DecidableEq, Repr

namespace RegSize

def bits : RegSize → Nat
  | w => 32
  | x => 64

end RegSize

/-- A register field of an instruction. -/
def regField (raw : U32) (lsb : Nat) : U8 := BitVec.ofNat 8 (bits raw lsb 5)

def sizeOf (sf : Nat) : RegSize := if sf = 1 then .x else .w

theorem toNat_regField (raw : U32) (lsb : Nat) : (regField raw lsb).toNat = bits raw lsb 5 := by
  have := bits_lt raw lsb (by decide : 5 < 32)
  rw [regField, BitVec.toNat_ofNat, Nat.mod_eq_of_lt (by omega)]

/-- Why a translator stops: it returns an error, or arithmetic of its own overflows. -/
inductive Stop where
  | error (e : Error)
  | panic
  deriving DecidableEq, Repr

/-- A program that pushes nodes. -/
abbrev Emit (α : Type) := Prog Armlet Stop α

/-- The emitter at a guest instruction. -/
structure IrEmitter where
  currentPc : U64

namespace IrEmitter

/-- Run an emitter on a block. -/
def place {α : Type} : Emit α → Block → Block × Except Stop α
  | .done a, b => (b, .ok a)
  | .fail e, b => (b, .error e)
  | .push node k, b => place (k (b.push node).2) (b.push node).1

theorem size_push (b : Block) (a : Armlet) : (b.push a).1.code.size = b.code.size + 1 := by
  simp only [Block.push, Block.linkNext, Block.set]
  split <;> simp

/-- **An emitter appends its nodes to the block.** -/
theorem place_eq {α : Type} (p : Emit α) (b : Block) :
    place p b = (b.pushAll (p.nodes b.code.size), p.result b.code.size) := by
  induction p generalizing b with
  | done a => rfl
  | fail e => rfl
  | push node k ih =>
    rw [place, ih, size_push]
    rfl

variable (em : IrEmitter)

def push (a : Armlet) : Emit ValueRef := Prog.emit { a with pc := em.currentPc }

/-! ## Constants and registers -/

def constU32 (v : U32) : Emit ValueRef := em.push ((Armlet.new .constU32 .u32).withImm (v.setWidth 64))

def constU64 (v : U64) : Emit ValueRef := em.push ((Armlet.new .constU64 .u64).withImm v)

def getX (reg : U8) : Emit ValueRef :=
  if reg.toNat = zrEncoding then em.constU64 0
  else em.push ((Armlet.new .getX .u64).withImm (reg.setWidth 64))

def getW (reg : U8) : Emit ValueRef :=
  if reg.toNat = zrEncoding then em.constU32 0
  else em.push ((Armlet.new .getW .u32).withImm (reg.setWidth 64))

def getGpr (reg : U8) : RegSize → Emit ValueRef
  | .w => em.getW reg
  | .x => em.getX reg

def setX (reg : U8) (value : ValueRef) : Emit Unit :=
  if reg.toNat = zrEncoding then pure ()
  else do
    let _ ← em.push (((Armlet.new .setX .void).withArgs [value]).withImm (reg.setWidth 64))

def setW (reg : U8) (value : ValueRef) : Emit Unit :=
  if reg.toNat = zrEncoding then pure ()
  else do
    let _ ← em.push ((((Armlet.new .setW .void).withArgs [value]).withImm
      (reg.setWidth 64)).withFlags Armlet.flagWSized)

def setGpr (reg : U8) (value : ValueRef) : RegSize → Emit Unit
  | .w => em.setW reg value
  | .x => em.setX reg value

def getSp : Emit ValueRef := em.push (Armlet.new .getSp .u64)

def getXOrSp (reg : U8) (spForm : Bool) : Emit ValueRef :=
  if reg.toNat = zrEncoding then if spForm then em.getSp else em.constU64 0 else em.getX reg

def setSp (value : ValueRef) : Emit Unit := do
  let _ ← em.push ((Armlet.new .setSp .void).withArgs [value])

/-- Write an integer result; register 31 is the stack pointer or nothing. -/
def setGprOrSp (reg : U8) (value : ValueRef) (size : RegSize) (spForm : Bool) : Emit Unit :=
  if reg.toNat = zrEncoding then if spForm then em.setSp value else pure ()
  else em.setGpr reg value size

def getVS (reg : U8) : Emit ValueRef := em.push ((Armlet.new .getV .u32).withImm (reg.setWidth 64))

def getVD (reg : U8) : Emit ValueRef := em.push ((Armlet.new .getV .u64).withImm (reg.setWidth 64))

def getVQ (reg : U8) : Emit ValueRef := em.push ((Armlet.new .getV .u128).withImm (reg.setWidth 64))

def setVS (reg : U8) (value : ValueRef) : Emit Unit := do
  let _ ← em.push ((((Armlet.new .setV .void).withArgs [value]).withImm
    (reg.setWidth 64)).withFlags Armlet.flagWSized)

def setVD (reg : U8) (value : ValueRef) : Emit Unit := do
  let _ ← em.push (((Armlet.new .setV .void).withArgs [value]).withImm (reg.setWidth 64))

def setVQ (reg : U8) (value : ValueRef) : Emit Unit := do
  let _ ← em.push (((Armlet.new .setV .void).withArgs [value]).withImm (reg.setWidth 64))

/-! ## Integer operations -/

/-- A node with two operands, of the operation and the type of its size. -/
def binary (opW opX : Op) (a b : ValueRef) : RegSize → Emit ValueRef
  | .w => em.push ((Armlet.new opW .u32).withArgs [a, b])
  | .x => em.push ((Armlet.new opX .u64).withArgs [a, b])

/-- The same for an operation that sets the flags. -/
def binaryFlags (opW opX : Op) (a b : ValueRef) : RegSize → Emit ValueRef
  | .w => em.push (((Armlet.new opW .u32).withArgs [a, b]).withFlags Armlet.flagNzcvLive)
  | .x => em.push (((Armlet.new opX .u64).withArgs [a, b]).withFlags Armlet.flagNzcvLive)

def add (a b : ValueRef) (size : RegSize) : Emit ValueRef := em.binary .add32 .add64 a b size

def sub (a b : ValueRef) (size : RegSize) : Emit ValueRef := em.binary .sub32 .sub64 a b size

def adds (a b : ValueRef) (size : RegSize) : Emit ValueRef :=
  em.binaryFlags .addsFlags32 .addsFlags64 a b size

def subs (a b : ValueRef) (size : RegSize) : Emit ValueRef :=
  em.binaryFlags .subsFlags32 .subsFlags64 a b size

def and (a b : ValueRef) (size : RegSize) : Emit ValueRef := em.binary .and32 .and64 a b size

def or (a b : ValueRef) (size : RegSize) : Emit ValueRef := em.binary .or32 .or64 a b size

def lsl (a amt : ValueRef) (size : RegSize) : Emit ValueRef := em.binary .lsl32 .lsl64 a amt size

def lsr (a amt : ValueRef) (size : RegSize) : Emit ValueRef := em.binary .lsr32 .lsr64 a amt size

def asr (a amt : ValueRef) (size : RegSize) : Emit ValueRef := em.binary .asr32 .asr64 a amt size

/-! ## What the nodes do -/

variable {n : Nat} {f : Frame} {Q : ValueRef → Nat → Frame → Prop} {P : Unit → Nat → Frame → Prop}

theorem wp_push (a : Armlet) : (em.push a).wp Armlet.step n f Q ↔
    ∃ f', Armlet.step n { a with pc := em.currentPc } f = some f' ∧ Q n (n + 1) f' := Iff.rfl

/-- A node whose step is known. -/
theorem wp_push_of_step {a : Armlet} {f' : Frame}
    (h : Armlet.step n { a with pc := em.currentPc } f = some f') :
    (em.push a).wp Armlet.step n f Q ↔ Q n (n + 1) f' := by
  rw [wp_push, h]
  simp only [Option.some.injEq, exists_eq_left']

theorem toNat_reg (reg : U8) : (reg.setWidth 64).toNat = reg.toNat :=
  BitVec.toNat_setWidth_of_le (by decide)

@[simp] theorem wp_constU32 (v : U32) : (em.constU32 v).wp Armlet.step n f Q ↔
    Q n (n + 1) (f.define n (.ofU32 .u32 v)) := by
  rw [constU32, em.wp_push_of_step rfl]
  simp only [Armlet.withImm, Armlet.new, BitVec.setWidth_setWidth_of_le v (by decide : 32 ≤ 64),
    BitVec.setWidth_eq]

@[simp] theorem wp_constU64 (v : U64) : (em.constU64 v).wp Armlet.step n f Q ↔
    Q n (n + 1) (f.define n (.ofU64 .u64 v)) :=
  em.wp_push_of_step rfl

@[simp] theorem wp_getX (reg : U8) : (em.getX reg).wp Armlet.step n f Q ↔
    Q n (n + 1) (f.define n (.ofU64 .u64 (f.machine.readX reg.toNat))) := by
  rw [getX]
  split
  · next h => rw [wp_constU64, Machine.readX, if_pos h]
  · rw [em.wp_push_of_step rfl]
    simp only [Armlet.withImm, toNat_reg]
    rfl

@[simp] theorem wp_getW (reg : U8) : (em.getW reg).wp Armlet.step n f Q ↔
    Q n (n + 1) (f.define n (.ofU32 .u32 ((f.machine.readX reg.toNat).setWidth 32))) := by
  rw [getW]
  split
  · next h =>
    rw [wp_constU32, Machine.readX, if_pos h]
    rfl
  · rw [em.wp_push_of_step rfl]
    simp only [Armlet.withImm, toNat_reg]
    rfl

/-- The register as an operand of the size. -/
def readGpr (m : Machine) (reg : Nat) : RegSize → Value
  | .w => .ofU32 .u32 ((m.readX reg).setWidth 32)
  | .x => .ofU64 .u64 (m.readX reg)

@[simp] theorem wp_getGpr (reg : U8) (size : RegSize) : (em.getGpr reg size).wp Armlet.step n f Q ↔
    Q n (n + 1) (f.define n (readGpr f.machine reg.toNat size)) := by
  cases size
  · exact em.wp_getW reg
  · exact em.wp_getX reg

@[simp] theorem wp_getSp : em.getSp.wp Armlet.step n f Q ↔
    Q n (n + 1) (f.define n (.ofU64 .u64 f.machine.sp)) :=
  em.wp_push_of_step rfl

@[simp] theorem wp_getXOrSp (reg : U8) (spForm : Bool) : (em.getXOrSp reg spForm).wp Armlet.step n f Q ↔
    Q n (n + 1) (f.define n (.ofU64 .u64 (if reg.toNat = zrEncoding ∧ spForm then f.machine.sp
      else f.machine.readX reg.toNat))) := by
  rw [getXOrSp]
  split
  · next h =>
    cases spForm
    · simp [Machine.readX, h]
    · simp [h]
  · next h => simp [h]

/-- The machine after a result was written; register 31 takes nothing. -/
def writeGpr (m : Machine) (reg : Nat) (value : Value) : RegSize → Machine
  | .w => m.writeX reg (value.lo32.setWidth 64)
  | .x => m.writeX reg value.lo64

/-- The same for an instruction that may write the stack pointer, as a whole. -/
def writeGprOrSp (m : Machine) (reg : Nat) (value : Value) (size : RegSize) (spForm : Bool) : Machine :=
  if reg = zrEncoding then if spForm then { m with sp := value.lo64 } else m
  else writeGpr m reg value size

/-- No node is pushed for register 31. -/
theorem wp_setX (reg : U8) (value : ValueRef) : (em.setX reg value).wp Armlet.step n f P ↔
    P () (if reg.toNat = zrEncoding then n else n + 1)
      { f with machine := f.machine.writeX reg.toNat (f.value value).lo64 } := by
  rw [setX]
  split
  · next h => rw [Prog.wp_pure, Machine.writeX, if_pos h]
  · rw [Prog.wp_bind, em.wp_push_of_step rfl]
    simp only [Armlet.withImm, toNat_reg]
    rfl

theorem wp_setW (reg : U8) (value : ValueRef) : (em.setW reg value).wp Armlet.step n f P ↔
    P () (if reg.toNat = zrEncoding then n else n + 1)
      { f with machine := f.machine.writeX reg.toNat ((f.value value).lo32.setWidth 64) } := by
  rw [setW]
  split
  · next h => rw [Prog.wp_pure, Machine.writeX, if_pos h]
  · rw [Prog.wp_bind, em.wp_push_of_step rfl]
    simp only [Armlet.withImm, Armlet.withFlags, toNat_reg]
    rfl

theorem wp_setGpr (reg : U8) (value : ValueRef) (size : RegSize) :
    (em.setGpr reg value size).wp Armlet.step n f P ↔
      P () (if reg.toNat = zrEncoding then n else n + 1)
        { f with machine := writeGpr f.machine reg.toNat (f.value value) size } := by
  cases size
  · exact em.wp_setW reg value
  · exact em.wp_setX reg value

theorem wp_setSp (value : ValueRef) : (em.setSp value).wp Armlet.step n f P ↔
    P () (n + 1) { f with machine := { f.machine with sp := (f.value value).lo64 } } := by
  rw [setSp, Prog.wp_bind, em.wp_push_of_step rfl]
  rfl

theorem wp_setGprOrSp (reg : U8) (value : ValueRef) (size : RegSize) (spForm : Bool) :
    (em.setGprOrSp reg value size spForm).wp Armlet.step n f P ↔
      P () (if reg.toNat = zrEncoding ∧ ¬ spForm then n else n + 1)
        { f with machine := writeGprOrSp f.machine reg.toNat (f.value value) size spForm } := by
  rw [setGprOrSp, writeGprOrSp]
  by_cases hreg : reg.toNat = zrEncoding
  · cases spForm
    · simp [hreg]
    · simp [hreg, wp_setSp]
  · simp [hreg, wp_setGpr]

/-- The value of a node with two operands, by the size. -/
def binaryValue (opW : U32 → U32 → U32) (opX : U64 → U64 → U64) (x y : Value) : RegSize → Value
  | .w => .ofU32 .u32 (opW x.lo32 y.lo32)
  | .x => .ofU64 .u64 (opX x.lo64 y.lo64)

section binaryValue

variable (opW : U32 → U32 → U32) (opX : U64 → U64 → U64) (x y : Value)

@[simp] theorem lo32_binaryValue : (binaryValue opW opX x y .w).lo32 = opW x.lo32 y.lo32 :=
  Value.lo32_ofU32 .u32 _

@[simp] theorem lo64_binaryValue : (binaryValue opW opX x y .x).lo64 = opX x.lo64 y.lo64 :=
  Value.lo64_ofU64 .u64 _

end binaryValue

theorem ofU64_on32 (ty : Ty) (op : U32 → U32 → U32) (x y : Value) :
    Value.ofU64 ty (Optimizer.on32 op x.lo64 y.lo64) = .ofU32 ty (op x.lo32 y.lo32) := by
  rw [Value.ofU64, Optimizer.on32, Value.setWidth_lo64, Value.setWidth_lo64,
    BitVec.setWidth_setWidth (by decide)]
  rfl

theorem wp_binary {opW opX : Op} {evalW : U32 → U32 → U32} {evalX : U64 → U64 → U64}
    {a b : ValueRef} (size : RegSize)
    (hW : Armlet.isScalar opW) (hX : Armlet.isScalar opX)
    (hevalW : ∀ x y, Optimizer.foldOp opW x (some y) = some (Optimizer.on32 evalW x y))
    (hevalX : ∀ x y, Optimizer.foldOp opX x (some y) = some (evalX x y)) :
    (em.binary opW opX a b size).wp Armlet.step n f Q ↔
      Q n (n + 1) (f.define n (binaryValue evalW evalX (f.value a) (f.value b) size)) := by
  cases size
  · refine em.wp_push_of_step ?_
    rw [Armlet.step_scalar hW, Armlet.scalarStep]
    change (Optimizer.foldOp opW (f.value a).lo64 (some (f.value b).lo64)).map _ = _
    rw [hevalW, Option.map_some]
    exact congrArg some (congrArg (f.define n) (ofU64_on32 .u32 evalW (f.value a) (f.value b)))
  · refine em.wp_push_of_step ?_
    rw [Armlet.step_scalar hX, Armlet.scalarStep]
    change (Optimizer.foldOp opX (f.value a).lo64 (some (f.value b).lo64)).map _ = _
    rw [hevalX]
    rfl

section operations

variable {a b : ValueRef} (size : RegSize)

@[simp] theorem wp_add : (em.add a b size).wp Armlet.step n f Q ↔
    Q n (n + 1) (f.define n (binaryValue (· + ·) (· + ·) (f.value a) (f.value b) size)) :=
  em.wp_binary size rfl rfl (fun _ _ => rfl) (fun _ _ => rfl)

@[simp] theorem wp_sub : (em.sub a b size).wp Armlet.step n f Q ↔
    Q n (n + 1) (f.define n (binaryValue (· - ·) (· - ·) (f.value a) (f.value b) size)) :=
  em.wp_binary size rfl rfl (fun _ _ => rfl) (fun _ _ => rfl)

@[simp] theorem wp_and : (em.and a b size).wp Armlet.step n f Q ↔
    Q n (n + 1) (f.define n (binaryValue (· &&& ·) (· &&& ·) (f.value a) (f.value b) size)) :=
  em.wp_binary size rfl rfl (fun _ _ => rfl) (fun _ _ => rfl)

@[simp] theorem wp_or : (em.or a b size).wp Armlet.step n f Q ↔
    Q n (n + 1) (f.define n (binaryValue (· ||| ·) (· ||| ·) (f.value a) (f.value b) size)) :=
  em.wp_binary size rfl rfl (fun _ _ => rfl) (fun _ _ => rfl)

/-- The amount an operation of 32 bits shifts by. -/
def amount32 (v : U32) : Nat := (v &&& 31).toNat

def amount64 (v : U64) : Nat := Optimizer.shiftBy v 63

theorem amount32_ofNat {k : Nat} (hk : k < 32) : amount32 (BitVec.ofNat 32 k) = k := by
  rw [amount32, BitVec.toNat_and, BitVec.toNat_ofNat, Nat.mod_eq_of_lt (by omega)]
  exact (Nat.and_two_pow_sub_one_eq_mod k 5).trans (Nat.mod_eq_of_lt hk)

theorem amount64_ofNat {k : Nat} (hk : k < 64) : amount64 (BitVec.ofNat 64 k) = k := by
  rw [amount64, Optimizer.shiftBy, BitVec.toNat_and, BitVec.toNat_setWidth, BitVec.toNat_ofNat,
    Nat.mod_eq_of_lt (by omega : k < 2 ^ 64), Nat.mod_eq_of_lt (by omega : k < 2 ^ 32)]
  exact (Nat.and_two_pow_sub_one_eq_mod k 6).trans (Nat.mod_eq_of_lt hk)

@[simp] theorem wp_lsl : (em.lsl a b size).wp Armlet.step n f Q ↔ Q n (n + 1) (f.define n
    (binaryValue (fun u v => u <<< amount32 v) (fun u v => u <<< amount64 v) (f.value a) (f.value b)
      size)) :=
  em.wp_binary size rfl rfl (fun _ _ => rfl) (fun _ _ => rfl)

@[simp] theorem wp_lsr : (em.lsr a b size).wp Armlet.step n f Q ↔ Q n (n + 1) (f.define n
    (binaryValue (fun u v => u >>> amount32 v) (fun u v => u >>> amount64 v) (f.value a) (f.value b)
      size)) :=
  em.wp_binary size rfl rfl (fun _ _ => rfl) (fun _ _ => rfl)

@[simp] theorem wp_asr : (em.asr a b size).wp Armlet.step n f Q ↔ Q n (n + 1) (f.define n
    (binaryValue (fun u v => u.sshiftRight (amount32 v)) (fun u v => u.sshiftRight (amount64 v))
      (f.value a) (f.value b) size)) :=
  em.wp_binary size rfl rfl (fun _ _ => rfl) (fun _ _ => rfl)

/-- The flags of an operation that sets them, by the size. -/
def flagsOf (flagsW : U32 → U32 → U8) (flagsX : U64 → U64 → U8) (x y : Value) : RegSize → U8
  | .w => flagsW x.lo32 y.lo32
  | .x => flagsX x.lo64 y.lo64

@[simp] theorem wp_adds : (em.adds a b size).wp Armlet.step n f Q ↔ Q n (n + 1)
    (Frame.define { f with machine := { f.machine with
        nzcv := flagsOf addFlags addFlags (f.value a) (f.value b) size } } n
      (binaryValue (· + ·) (· + ·) (f.value a) (f.value b) size)) := by
  cases size <;> exact em.wp_push_of_step rfl

@[simp] theorem wp_subs : (em.subs a b size).wp Armlet.step n f Q ↔ Q n (n + 1)
    (Frame.define { f with machine := { f.machine with
        nzcv := flagsOf subFlags subFlags (f.value a) (f.value b) size } } n
      (binaryValue (· - ·) (· - ·) (f.value a) (f.value b) size)) := by
  cases size <;> exact em.wp_push_of_step rfl

end operations

/-! ## Shift amounts in range

The same rules on the machine that does not shift by the width or more. -/

/-- The low bits of a value that an operation of the size reads. -/
def lowBits (v : Value) : (size : RegSize) → BitVec size.bits
  | .w => v.lo32
  | .x => v.lo64

/-- The result of an operation of the size. -/
def sizedValue : (size : RegSize) → BitVec size.bits → Value
  | .w, x => .ofU32 .u32 x
  | .x, x => .ofU64 .u64 x

@[simp] theorem lowBits_sizedValue (size : RegSize) (x : BitVec size.bits) :
    lowBits (sizedValue size x) size = x := by
  cases size
  · exact Value.lo32_ofU32 .u32 x
  · exact Value.lo64_ofU64 .u64 x

@[simp] theorem lowBits_ofU64 (size : RegSize) (ty : Ty) (x : U64) :
    lowBits (.ofU64 ty x) size = x.setWidth size.bits := by
  cases size
  · exact Value.lo32_ofU64 ty x
  · exact (Value.lo64_ofU64 ty x).trans (BitVec.setWidth_eq x).symm

section strict

variable {α : Type} {R : α → Nat → Frame → Prop} {a b : ValueRef} (size : RegSize)

theorem wp_strict {p : Emit α} (h : ∀ a ∈ p.nodes n, Armlet.shiftWidth a.op = none) :
    p.wp Armlet.strictStep n f R ↔ p.wp Armlet.step n f R := by
  induction p generalizing n f with
  | done a => exact Iff.rfl
  | fail e => exact Iff.rfl
  | push node k ih =>
    have hin : ∀ f, node.AmountInRange f := by
      intro f w hw
      rw [h node (List.mem_cons_self ..)] at hw
      cases hw
    simp only [Prog.wp, Armlet.strictStep_eq_some, hin, true_and,
      ih n fun a ha => h a (List.mem_cons_of_mem _ ha)]

/-- What runs on that machine runs on the other. -/
theorem wp_of_strict {p : Emit α} (h : p.wp Armlet.strictStep n f R) : p.wp Armlet.step n f R := by
  induction p generalizing n f with
  | done a => exact h
  | fail e => exact h
  | push node k ih =>
    obtain ⟨f', hstep, h⟩ := h
    exact ⟨f', (Armlet.strictStep_eq_some.mp hstep).2, ih n h⟩

/-- A node that does not shift. -/
theorem strict_push {a : Armlet} (h : Armlet.shiftWidth a.op = none) :
    (em.push a).wp Armlet.strictStep n f Q ↔ (em.push a).wp Armlet.step n f Q := by
  refine wp_strict fun a' ha' => ?_
  obtain rfl := List.mem_singleton.mp ha'
  exact h

theorem strict_constU64 (v : U64) : (em.constU64 v).wp Armlet.strictStep n f Q ↔
    Q n (n + 1) (f.define n (.ofU64 .u64 v)) :=
  (em.strict_push rfl).trans (em.wp_constU64 v)

theorem strict_getGpr (reg : U8) : (em.getGpr reg size).wp Armlet.strictStep n f Q ↔
    Q n (n + 1) (f.define n (sizedValue size ((f.machine.readX reg.toNat).setWidth size.bits))) := by
  have hval : readGpr f.machine reg.toNat size =
      sizedValue size ((f.machine.readX reg.toNat).setWidth size.bits) := by
    cases size
    · rfl
    · exact congrArg (Value.ofU64 .u64) (BitVec.setWidth_eq _).symm
  rw [← hval]
  refine Iff.trans ?_ (em.wp_getGpr reg size)
  cases size
  · rw [getGpr, getW]
    split <;> exact em.strict_push rfl
  · rw [getGpr, getX]
    split <;> exact em.strict_push rfl

theorem strict_and : (em.and a b size).wp Armlet.strictStep n f Q ↔ Q n (n + 1)
    (f.define n (sizedValue size (lowBits (f.value a) size &&& lowBits (f.value b) size))) := by
  cases size
  · exact Iff.trans (em.strict_push rfl) (em.wp_and .w)
  · exact Iff.trans (em.strict_push rfl) (em.wp_and .x)

theorem strict_or : (em.or a b size).wp Armlet.strictStep n f Q ↔ Q n (n + 1)
    (f.define n (sizedValue size (lowBits (f.value a) size ||| lowBits (f.value b) size))) := by
  cases size
  · exact Iff.trans (em.strict_push rfl) (em.wp_or .w)
  · exact Iff.trans (em.strict_push rfl) (em.wp_or .x)

theorem strict_setGpr (reg : U8) (value : ValueRef) :
    (em.setGpr reg value size).wp Armlet.strictStep n f P ↔
      P () (if reg.toNat = zrEncoding then n else n + 1)
        { f with
          machine := f.machine.writeX reg.toNat ((lowBits (f.value value) size).setWidth 64) } := by
  have hval : writeGpr f.machine reg.toNat (f.value value) size =
      f.machine.writeX reg.toNat ((lowBits (f.value value) size).setWidth 64) := by
    cases size
    · rfl
    · exact congrArg (f.machine.writeX reg.toNat) (BitVec.setWidth_eq _).symm
  rw [← hval]
  refine Iff.trans ?_ (em.wp_setGpr reg value size)
  refine wp_strict fun a ha => ?_
  cases size
  · rw [setGpr, setW] at ha
    split at ha
    · cases ha
    · obtain rfl := List.mem_singleton.mp ha
      rfl
  · rw [setGpr, setX] at ha
    split at ha
    · cases ha
    · obtain rfl := List.mem_singleton.mp ha
      rfl

theorem strict_binary {opW opX : Op} (hW : Armlet.shiftWidth opW = some 32)
    (hX : Armlet.shiftWidth opX = some 64) : (em.binary opW opX a b size).wp Armlet.strictStep n f Q ↔
      (lowBits (f.value b) size).toNat < size.bits ∧
        (em.binary opW opX a b size).wp Armlet.step n f Q := by
  cases size
  · have hin : Armlet.AmountInRange { (Armlet.new opW .u32).withArgs [a, b] with
        pc := em.currentPc } f ↔ (lowBits (f.value b) .w).toNat < 32 := by
      constructor
      · exact fun h => h 32 hW
      · intro h w hw
        obtain rfl := Option.some.inj (hW.symm.trans hw)
        exact h
    rw [binary, wp_push, push, Prog.wp_emit]
    simp only [Armlet.strictStep_eq_some, hin, and_assoc, exists_and_left]
    rfl
  · have hin : Armlet.AmountInRange { (Armlet.new opX .u64).withArgs [a, b] with
        pc := em.currentPc } f ↔ (lowBits (f.value b) .x).toNat < 64 := by
      constructor
      · exact fun h => h 64 hX
      · intro h w hw
        obtain rfl := Option.some.inj (hX.symm.trans hw)
        exact h
    rw [binary, wp_push, push, Prog.wp_emit]
    simp only [Armlet.strictStep_eq_some, hin, and_assoc, exists_and_left]
    rfl

/-- A constant amount, as the shift takes it. -/
theorem amounts_ofNat {k : Nat} (hk : k < size.bits) {v : Value}
    (hv : v = .ofU64 .u64 (BitVec.ofNat 64 k)) : (lowBits v size).toNat = k ∧
      (match size with
        | .w => amount32 v.lo32 = k
        | .x => amount64 v.lo64 = k) := by
  subst hv
  have hle : size.bits ≤ 64 := by cases size <;> decide
  have hpow : k < 2 ^ size.bits := Nat.lt_trans hk Nat.lt_two_pow_self
  refine ⟨?_, ?_⟩
  · rw [lowBits_ofU64, BitVec.setWidth_ofNat_of_le hle, BitVec.toNat_ofNat, Nat.mod_eq_of_lt hpow]
  · cases size
    · rw [Value.lo32_ofU64, BitVec.setWidth_ofNat_of_le (by decide)]
      exact amount32_ofNat hk
    · rw [Value.lo64_ofU64]
      exact amount64_ofNat hk

variable {k : Nat} (hk : k < size.bits) (hb : f.value b = .ofU64 .u64 (BitVec.ofNat 64 k))
include hk hb

theorem strict_lsl : (em.lsl a b size).wp Armlet.strictStep n f Q ↔
    Q n (n + 1) (f.define n (sizedValue size (lowBits (f.value a) size <<< k))) := by
  obtain ⟨hlow, hamount⟩ := amounts_ofNat size hk hb
  rw [lsl, em.strict_binary size rfl rfl, hlow, and_iff_right hk]
  refine Iff.trans (em.wp_lsl size) ?_
  cases size <;> simp only at hamount <;> simp only [binaryValue, hamount] <;> rfl

theorem strict_lsr : (em.lsr a b size).wp Armlet.strictStep n f Q ↔
    Q n (n + 1) (f.define n (sizedValue size (lowBits (f.value a) size >>> k))) := by
  obtain ⟨hlow, hamount⟩ := amounts_ofNat size hk hb
  rw [lsr, em.strict_binary size rfl rfl, hlow, and_iff_right hk]
  refine Iff.trans (em.wp_lsr size) ?_
  cases size <;> simp only at hamount <;> simp only [binaryValue, hamount] <;> rfl

theorem strict_asr : (em.asr a b size).wp Armlet.strictStep n f Q ↔
    Q n (n + 1) (f.define n (sizedValue size ((lowBits (f.value a) size).sshiftRight k))) := by
  obtain ⟨hlow, hamount⟩ := amounts_ofNat size hk hb
  rw [asr, em.strict_binary size rfl rfl, hlow, and_iff_right hk]
  refine Iff.trans (em.wp_asr size) ?_
  cases size <;> simp only at hamount <;> simp only [binaryValue, hamount] <;> rfl

end strict

/-! ## Pieces of code that compute a value -/

/-- Nothing but new values. -/
structure Keeps (n : Nat) (f f' : Frame) : Prop where
  machine : f'.machine = f.machine
  value : ∀ r < n, f'.value r = f.value r

theorem Keeps.trans {m : Nat} {f' f'' : Frame} (h : Keeps n f f') (h' : Keeps m f' f'')
    (hle : n ≤ m) : Keeps n f f'' where
  machine := h'.machine.trans h.machine
  value r hr := (h'.value r (Nat.lt_of_lt_of_le hr hle)).trans (h.value r hr)

theorem keeps_refl : Keeps n f f := ⟨rfl, fun _ _ => rfl⟩

@[simp] theorem keeps_define {m : Nat} {f' : Frame} {v : Value} (hm : n ≤ m) :
    Keeps n f (f'.define m v) ↔ Keeps n f f' := by
  have hval : ∀ r < n, (f'.define m v).value r = f'.value r := by
    intro r hr
    rw [Frame.value_define, if_neg (Nat.ne_of_lt (Nat.lt_of_lt_of_le hr hm))]
  constructor
  · exact fun h => ⟨h.machine, fun r hr => (hval r hr).symm.trans (h.value r hr)⟩
  · exact fun h => ⟨h.machine, fun r hr => (hval r hr).trans (h.value r hr)⟩

/-- The code only computes, and the value it returns is as stated. -/
def Computes (step : Nat → Armlet → Frame → Option Frame) (p : Emit ValueRef) (n : Nat) (f : Frame)
    (φ : Value → Prop) : Prop :=
  p.wp step n f fun r n' f' => n ≤ n' ∧ r < n' ∧ Keeps n f f' ∧ φ (f'.value r)

/-- A value that is there already. -/
theorem computes_pure {step : Nat → Armlet → Frame → Option Frame} {φ : Value → Prop}
    {r : ValueRef} (hr : r < n) (h : φ (f.value r)) : Computes step (pure r) n f φ :=
  ⟨Nat.le_refl n, hr, keeps_refl, h⟩

section pieces

variable {step : Nat → Armlet → Frame → Option Frame} {φ ψ : Value → Prop}

/-- One node whose value is known. -/
theorem computes_of_value {p : Emit ValueRef} {v : Value}
    (h : ∀ Q : ValueRef → Nat → Frame → Prop, p.wp step n f Q ↔ Q n (n + 1) (f.define n v)) (hφ : φ v) :
    Computes step p n f φ := by
  refine (h _).mpr ⟨Nat.le_succ n, Nat.lt_succ_self n, (keeps_define (Nat.le_refl n)).mpr keeps_refl, ?_⟩
  rwa [Frame.value_define, if_pos rfl]

theorem computes_of_rule {p : Emit ValueRef} {v : Value}
    (h : ∀ Q : ValueRef → Nat → Frame → Prop, p.wp step n f Q ↔ Q n (n + 1) (f.define n v)) :
    Computes step p n f (· = v) := computes_of_value h rfl

theorem wp_bind_computes {α : Type} {p : Emit ValueRef} {k : ValueRef → Emit α}
    {Q : α → Nat → Frame → Prop} (h : Computes step p n f φ)
    (hk : ∀ r n' f', n ≤ n' → r < n' → Keeps n f f' → φ (f'.value r) → (k r).wp step n' f' Q) :
    (p >>= k).wp step n f Q := by
  rw [Prog.wp_bind]
  refine Prog.wp_mono h ?_
  rintro r n' f' ⟨hle, hlt, hkeep, hval⟩
  exact hk r n' f' hle hlt hkeep hval

theorem computes_bind {p : Emit ValueRef} {k : ValueRef → Emit ValueRef} (h : Computes step p n f φ)
    (hk : ∀ r n' f', n ≤ n' → r < n' → Keeps n f f' → φ (f'.value r) →
      Computes step (k r) n' f' ψ) : Computes step (p >>= k) n f ψ := by
  refine wp_bind_computes h fun r n' f' hle hlt hkeep hval => ?_
  refine Prog.wp_mono (hk r n' f' hle hlt hkeep hval) ?_
  rintro s m g ⟨hle', hlt', hkeep', hval'⟩
  exact ⟨hle.trans hle', hlt', hkeep.trans hkeep' hle, hval'⟩

end pieces

end IrEmitter

end Rustarmic
