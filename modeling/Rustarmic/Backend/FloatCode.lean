import Rustarmic.Backend.HostFloat
import Rustarmic.Backend.VectorCompare

/-!
# Floating point code

The instructions on lanes of singles and doubles, over the instructions on vector registers.  The
arithmetic on numbers is an argument; what NaNs give is not.

* `FloatOp.apply` — an operation on one lane.
* `FloatInstr`, `runFloat` — the instructions and what they do.
* `lanewise` — an operation of encodings on lanes.

The generated code for FMAX, FRINTA and the like is a sequence of SSE instructions that repairs what
the host does differently from Arm, so a model of it has to know precisely what the host does where
it is odd:

* **`max` and `min` are no maximum and minimum.**  They return the second operand when the operands
  are equal or unordered, so that a zero keeps the sign of the second one and a NaN in the first one
  is lost.
* **Arithmetic with a NaN** returns the first operand that is one, quieted (`quietFirst`).  This is
  documented, and it is written out here rather than assumed of the processor.
* **Scalar forms** write the lowest lane and keep the rest of the destination.

Code is a list, and `runFloat` folds over it; the lemmas for `cons` and `append` together with one
`exec` lemma for each instruction are the simp set by which a sequence is run.
-/

set_option autoImplicit false

namespace Rustarmic

open Interp Lanes

namespace VectorCode

inductive FloatOp where
  | max
  | min
  | add
  | sub
  | mul
  /-- `cmpps` with predicate 2. -/
  | cmple
  | cmpunord
  /-- `roundps` without a report. -/
  | round (mode : Round)
  deriving DecidableEq, Repr

/-- The first operand that is a NaN, quieted, or else the result on numbers. -/
def quietFirst (f : Fmt) (a b number : U64) : U64 :=
  if f.isNan a then f.quiet a else if f.isNan b then f.quiet b else number

def maskOf (f : Fmt) (p : Bool) : U64 := if p then mask f.bits else 0#64

/-- An operation on one lane; `a` is in the destination.  `max` and `min` return the second operand
for equal and for unordered operands, `round` reads the second only. -/
def FloatOp.apply (host : HostFloat) (f : Fmt) (a b : U64) : FloatOp → U64
  | max => if hostGt f a b then a else b
  | min => if hostGt f b a then a else b
  | add => quietFirst f a b (host2 f a b host.add)
  | sub => quietFirst f a b (host2 f a b host.sub)
  | cmple => maskOf f (hostGe f b a)
  | cmpunord => maskOf f (f.isNan a || f.isNan b)
  | mul => quietFirst f a b (host2 f a b host.mul)
  | round mode => if f.isNan b then f.quiet b else host.round mode f b

/-- An operation of encodings on lanes. -/
def lanewise (w : Nat) (g : U64 → U64 → U64) (x y : BitVec w) : BitVec w :=
  (g (x.setWidth 64) (y.setWidth 64)).setWidth w

/-- The scalar instructions write the lowest lane. -/
inductive FloatInstr where
  | base (i : Instr)
  | pandn (dst src : Nat)
  | packed (op : FloatOp) (f : Fmt) (dst src : Nat)
  | scalar (op : FloatOp) (f : Fmt) (dst src : Nat)
  deriving DecidableEq, Repr

/-- The lowest lane. -/
def lowest (w : Nat) (g : BitVec w → BitVec w → BitVec w) (x y : U128) : U128 :=
  ofLanes 128 w fun k => if k = 0 then g (lane w x 0) (lane w y 0) else lane w x k

def FloatInstr.exec (host : HostFloat) (m : Contents) : FloatInstr → Contents
  | base i => i.exec m
  | pandn dst src => m.combine dst src fun x y => ~~~x &&& y
  | packed op f dst src =>
    m.combine dst src (Packed.zipLanes f.bits (lanewise f.bits fun a b => op.apply host f a b))
  | scalar op f dst src =>
    m.combine dst src (lowest f.bits (lanewise f.bits fun a b => op.apply host f a b))

def runFloat (host : HostFloat) (code : List FloatInstr) (m : Contents) : Contents :=
  code.foldl (FloatInstr.exec host) m

section exec

variable {host : HostFloat} (m : Contents) (q : Place) (dst src : Nat) (op : FloatOp) (f : Fmt)

@[simp] theorem runFloat_nil : runFloat host [] m = m := rfl

@[simp] theorem runFloat_cons (i : FloatInstr) (code : List FloatInstr) :
    runFloat host (i :: code) m = runFloat host code (i.exec host m) := rfl

@[simp] theorem runFloat_append (code code' : List FloatInstr) :
    runFloat host (code ++ code') m = runFloat host code' (runFloat host code m) := List.foldl_append

/-- Code without arithmetic. -/
@[simp] theorem runFloat_base (code : List Instr) :
    runFloat host (code.map .base) m = run code m := by
  induction code generalizing m with
  | nil => rfl
  | cons i code ih => exact ih (i.exec m)

@[simp] theorem exec_base (i : Instr) : (FloatInstr.base i).exec host m = i.exec m := rfl

@[simp] theorem exec_pandn : (FloatInstr.pandn dst src).exec host m q =
    if q = .xmm dst then ~~~m (.xmm dst) &&& m (.xmm src) else m q := Contents.set_apply ..

@[simp] theorem exec_packed : (FloatInstr.packed op f dst src).exec host m q =
    if q = .xmm dst then Packed.zipLanes f.bits (lanewise f.bits fun a b => op.apply host f a b)
      (m (.xmm dst)) (m (.xmm src)) else m q := Contents.set_apply ..

@[simp] theorem exec_scalar : (FloatInstr.scalar op f dst src).exec host m q =
    if q = .xmm dst then lowest f.bits (lanewise f.bits fun a b => op.apply host f a b)
      (m (.xmm dst)) (m (.xmm src)) else m q := Contents.set_apply ..

end exec

/-- An odd operation is on doubles. -/
def vecFpIsDouble (op : Op) : Bool := op.raw &&& 1 != 0

/-! ## Lanes -/

section lanes

variable {w : Nat} {g : U64 → U64 → U64} {x y : U128}

theorem lane_lowest (h : BitVec w → BitVec w → BitVec w) (hw : w ≤ 128) :
    lane w (lowest w h x y) 0 = h (lane w x 0) (lane w y 0) := by
  rw [lowest, lane_ofLanes _ (by omega), if_pos rfl]

theorem bits_dvd (f : Fmt) : 0 < f.bits ∧ f.bits ∣ 64 ∧ f.bits ≤ 64 := by
  cases f <;> decide

/-- A lane is an encoding. -/
theorem encodes_lane {f : Fmt} (x : BitVec f.bits) : f.Encodes (x.setWidth 64) := by
  have hle := (bits_dvd f).2.2
  have hlt := x.isLt
  have hpow : 2 ^ f.bits ≤ 2 ^ 64 := Nat.pow_le_pow_right (by decide) hle
  rw [Fmt.Encodes, BitVec.toNat_setWidth, Nat.mod_eq_of_lt (by omega)]
  exact hlt

theorem maskOf_lane (f : Fmt) (p : Bool) : (maskOf f p).setWidth f.bits = Packed.fill f.bits p := by
  cases f <;> cases p <;> decide

/-- Bits chosen by a mask. -/
theorem blend_fill {w : Nat} (p : Bool) (a b : BitVec w) :
    a &&& Packed.fill w p ||| (~~~Packed.fill w p &&& b) = if p then a else b := by
  cases p <;> simp [Packed.fill]

end lanes

end VectorCode
end Rustarmic
