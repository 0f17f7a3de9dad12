import Rustarmic.Backend.VectorAlloc
import Rustarmic.Backend.VectorShift
import Rustarmic.Interp.Rows
import Rustarmic.Ir.Eval

/-!
# What vector nodes do

A node that shifts a vector is run as its machine code, wherever its operand and its result are; the
other vector nodes have the value that their lowerings give lane by lane.

* `vectorValue` — the value of a node that is not a shift.
* `halfForm_row` — a result as its active lanes.
* `VectorLowering` — where the values of a block are.
* `VectorLowering.step` — what a node does; `VectorLowering.step_ushr` and its siblings say what
  that is for a shift.
* `VectorLowering.exists_linearScan` — the register allocator gives such a `VectorLowering`.
-/

set_option autoImplicit false

namespace Rustarmic

namespace VectorCode

open Lanes Packed

/-! ## Values -/

/-- A result of which only the lower half counts unless `q`. -/
def halfForm (q : Bool) (x : U128) : U128 := if q then x else Packed.movq x

/-- The lanes that a widening operation reads, or a narrowing operation. -/
def srcLane (a : Armlet) : Nat := ((a.imm >>> 2) &&& 3#64).toNat

def highHalf (a : Armlet) : Bool := (a.imm >>> 1) &&& 1#64 != 0#64

/-- `pmovsx` and `pmovzx` of one half of a vector. -/
def extendHalf (signed high : Bool) (w : Nat) (x : U128) : U128 :=
  let half := if high then x >>> 64 else x
  ofLanes 128 (2 * w) fun k =>
    if signed then (lane w half k).signExtend (2 * w) else (lane w half k).setWidth (2 * w)

/-- The sum of two halves that are widened; there is none of 64-bit lanes. -/
def addLong (signed : Bool) (a : Armlet) (x y : U128) : Option U128 :=
  if srcLane a = 3 then none
  else
    let w := 8 <<< srcLane a
    some (zipLanes (2 * w) (· + ·) (extendHalf signed (highHalf a) w x)
      (extendHalf signed (highHalf a) w y))

/-- The lower halves of the lanes. -/
def narrowLanesTo (w : Nat) (x : U128) : U64 := ofLanes 64 w fun k => (lane (2 * w) x k).setWidth w

/-- The vector nodes that are not shifts. -/
def vectorValue (a : Armlet) (x y : U128) : Option U128 :=
  match a.op with
  | .vecAnd => some (halfForm (qForm a) (x &&& y))
  | .vecOrr => some (halfForm (qForm a) (x ||| y))
  | .vecAdd8 | .vecAdd16 | .vecAdd32 | .vecAdd64 =>
    some (halfForm (qForm a) (zipLanes (8 <<< a.op.sizeLog2) (· + ·) x y))
  | .vecDupGpr8 | .vecDupGpr16 | .vecDupGpr32 | .vecDupGpr64 =>
    some (halfForm (qForm a) (ofLanes 128 (8 <<< a.op.sizeLog2) fun _ => x.setWidth _))
  | .vecBuildQ => some (y.setWidth 64 ++ x.setWidth 64 : U128)
  | .vecSaddl => addLong true a x y
  | .vecUaddl => addLong false a x y
  | .vecXtn =>
    if srcLane a = 0 then none else some ((narrowLanesTo (8 <<< (srcLane a - 1)) x).setWidth 128)
  | .vecXtn2 =>
    if srcLane a = 0 then none
    else some (narrowLanesTo (8 <<< (srcLane a - 1)) y ++ x.setWidth 64 : U128)
  | _ => none

/-- The operation for lanes of `8 << lane` bits. -/
def laneOp (op8 op16 op32 op64 : Op) : Nat → Op
  | 0 => op8
  | 1 => op16
  | 2 => op32
  | _ => op64

theorem laneOp_cases {motive : Op → Prop} {op8 op16 op32 op64 : Op} (h8 : motive op8)
    (h16 : motive op16) (h32 : motive op32) (h64 : motive op64) (lane : Nat) :
    motive (laneOp op8 op16 op32 op64 lane) := by
  match lane with
  | 0 => exact h8
  | 1 => exact h16
  | 2 => exact h32
  | _ + 3 => exact h64

def shlOp : Nat → Op := laneOp .vecShlImm8 .vecShlImm16 .vecShlImm32 .vecShlImm64

def ushrOp : Nat → Op := laneOp .vecUshrImm8 .vecUshrImm16 .vecUshrImm32 .vecUshrImm64

def sshrOp : Nat → Op := laneOp .vecSshrImm8 .vecSshrImm16 .vecSshrImm32 .vecSshrImm64

def addOp : Nat → Op := laneOp .vecAdd8 .vecAdd16 .vecAdd32 .vecAdd64

def dupOp : Nat → Op := laneOp .vecDupGpr8 .vecDupGpr16 .vecDupGpr32 .vecDupGpr64

/-! ## Active lanes -/

section rows

variable {w k : Nat} {q : Bool} (hpos : 0 < w) (hdvd : w ∣ 64)
include hpos hdvd

/-- A result as its active lanes. -/
theorem halfForm_row {x : U128} {g : Nat → BitVec w}
    (h : ∀ k < activeLanes w q false, lane w x k = g k) :
    halfForm q x = ofLanes 128 w (upTo (activeLanes w q false) g) := by
  refine BitVec.eq_of_getLsbD_eq fun i hi => ?_
  have hiff := lt_activeLanes (q := q) hpos hdvd i
  rw [getLsbD_ofLanes, decide_eq_true hi, Bool.true_and, upTo]
  by_cases hin : i / w < activeLanes w q false
  · rw [if_pos hin, ← h _ hin, ← getLsbD_eq_lane x hpos, halfForm]
    rw [hiff] at hin
    cases q with
    | true => rfl
    | false =>
      rw [if_neg Bool.false_ne_true] at hin ⊢
      rw [Packed.movq, BitVec.getLsbD_setWidth, BitVec.getLsbD_setWidth, decide_eq_true hi,
        decide_eq_true hin, Bool.true_and, Bool.true_and]
  · rw [if_neg hin, halfForm]
    rw [hiff] at hin
    cases q with
    | true => exact absurd hi hin
    | false =>
      rw [if_neg Bool.false_ne_true] at hin ⊢
      rw [Packed.movq, BitVec.getLsbD_setWidth, BitVec.getLsbD_setWidth, decide_eq_false hin]
      simp

theorem lane_halfForm (x : U128) (hk : k < activeLanes w q false) :
    lane w (halfForm q x) k = lane w x k := by
  rw [halfForm_row hpos hdvd (g := lane w x) fun _ _ => rfl, lane_row hpos hdvd hk]

theorem lane_shiftLanes {size : Nat} (hsize : size < 4) (hw : w = 8 <<< size)
    {g : ∀ w, BitVec w → BitVec w} {x : U128} (hk : k < activeLanes w q false) :
    lane w (shiftLanes g size x) k = g w (lane w x k) := by
  have hle := activeLanes_le hpos hdvd hk
  subst hw
  match size, hsize with
  | 0, _ => exact lane_mapLanes (g 8) hle
  | 1, _ => exact lane_mapLanes (g 16) hle
  | 2, _ => exact lane_mapLanes (g 32) hle
  | 3, _ => exact lane_mapLanes (g 64) hle

end rows

/-- A scalar is the lowest lane. -/
theorem ofLanes_scalar (g : Nat → U64) : ofLanes 128 64 (upTo 1 g) = (g 0).setWidth 128 := by
  rw [ofLanes_upTo_succ g (by decide), ofLanes_upTo_zero]
  simp

theorem lane_zero (x : U128) : lane 64 x 0 = x.setWidth 64 := by
  rw [← lane_eq_setWidth]
  simp

end VectorCode

open Lanes Packed VectorCode

/-- Where the vectors of a block are, and what is in every other place; `locs` is asked for vectors
only. -/
structure VectorLowering where
  hasGfni : Bool
  locs : Nat → Loc
  contents : Contents
  vectorAt : ∀ i, ∃ p, VectorAt (locs i) p

namespace VectorLowering

variable (L : VectorLowering) {n : ValueRef} {a : Armlet} {f f' : Frame}

/-- A shift is run as its code. -/
def shiftStep (n : ValueRef) (a : Armlet) (f : Frame) : Option Frame :=
  (placeOf (L.locs (a.args.get 0))).bind fun pa =>
    (placeOf (L.locs n)).bind fun pd =>
      (emitShift L.hasGfni L.locs a n).map fun code =>
        f.define n ⟨a.ty, run code (L.contents.set pa (a.arg f 0).bits) pd⟩

/-- What node `n` does, vectors included. -/
def step (n : ValueRef) (a : Armlet) (f : Frame) : Option Frame :=
  a.step n f <|> L.shiftStep n a f <|>
    (vectorValue a (a.arg f 0).bits (a.arg f 1).bits).map fun x => f.define n ⟨a.ty, x⟩

/-- The vector operations that have a meaning here. -/
def isVector : Op → Bool
  | .vecAnd | .vecOrr | .vecAdd8 | .vecAdd16 | .vecAdd32 | .vecAdd64 | .vecDupGpr8 | .vecDupGpr16
  | .vecDupGpr32 | .vecDupGpr64 | .vecBuildQ | .vecSaddl | .vecUaddl | .vecXtn | .vecXtn2
  | .vecShlImm8 | .vecShlImm16 | .vecShlImm32 | .vecShlImm64 | .vecUshrImm8 | .vecUshrImm16
  | .vecUshrImm32 | .vecUshrImm64 | .vecSshrImm8 | .vecSshrImm16 | .vecSshrImm32
  | .vecSshrImm64 => true
  | _ => false

theorem step_vector (h : isVector a.op) : a.step n f = none := by
  cases a with
  | mk op ty flags prev next args imm pc =>
  cases op <;> first | exact absurd h Bool.false_ne_true | rfl

theorem step_of_step (h : a.step n f = some f') : L.step n a f = some f' := by
  rw [step, h]
  rfl

/-- A shift whose code leaves `x` of its operand in its result. -/
theorem step_shift {x : U128 → U128} (hop : isVector a.op)
    (h : ∀ pa pd, VectorAt (L.locs (a.args.get 0)) pa → VectorAt (L.locs n) pd →
      ∃ code, emitShift L.hasGfni L.locs a n = some code ∧ ∀ m, run code m pd = x (m pa)) :
    L.step n a f = some (f.define n ⟨a.ty, x (a.arg f 0).bits⟩) := by
  obtain ⟨pa, ha⟩ := L.vectorAt (a.args.get 0)
  obtain ⟨pd, hd⟩ := L.vectorAt n
  obtain ⟨code, hcode, hrun⟩ := h pa pd ha hd
  rw [step, step_vector hop, shiftStep, ha.place, Option.bind_some, hd.place, Option.bind_some, hcode,
    Option.map_some, hrun, Contents.set_self]
  rfl

/-- A vector node that is not a shift. -/
theorem step_value {x : U128} (hop : isVector a.op)
    (hshift : ∀ hasGfni locs, emitShift hasGfni locs a n = none)
    (h : vectorValue a (a.arg f 0).bits (a.arg f 1).bits = some x) :
    L.step n a f = some (f.define n ⟨a.ty, x⟩) := by
  have hnone : L.shiftStep n a f = none := by
    rw [shiftStep, hshift]
    simp
  rw [step, step_vector hop, hnone, h]
  rfl

section lanes

variable {lane : Nat} (hlane : lane < 4)
include hlane

/-- The shifts of one kind: their code leaves the lanes shifted. -/
theorem step_shiftLanes {ops : Nat → Op} {g : ∀ w, BitVec w → BitVec w}
    {e : Bool → (Nat → Loc) → Armlet → Nat → Option (List Instr)} (hop : a.op = ops lane)
    (hops : ∀ lane < 4, (ops lane).sizeLog2 = lane ∧ isVector (ops lane))
    (hemit : ∀ hasGfni locs, emitShift hasGfni locs a n = e hasGfni locs a n)
    (h : ∀ pa pd, VectorAt (L.locs (a.args.get 0)) pa → VectorAt (L.locs n) pd →
      ∃ code, e L.hasGfni L.locs a n = some code ∧
        ∀ m, run code m pd = form a (shiftLanes g a.op.sizeLog2 (m pa))) :
    L.step n a f = some (f.define n ⟨a.ty, form a (shiftLanes g lane (a.arg f 0).bits)⟩) := by
  obtain ⟨hsize, hvec⟩ := hops lane hlane
  rw [← hop] at hsize hvec
  refine L.step_shift (x := fun y => form a (shiftLanes g lane y)) hvec fun pa pd ha hd => ?_
  rw [hemit, ← hsize]
  exact h pa pd ha hd

theorem step_shl (hop : a.op = shlOp lane) : L.step n a f = some (f.define n
    ⟨a.ty, form a (shiftLanes (fun _ => (· <<< shiftOf a)) lane (a.arg f 0).bits)⟩) := by
  refine L.step_shiftLanes (e := emitOpVecShlImm) hlane hop (by decide) (fun hasGfni locs => ?_)
    fun pa pd ha hd => exists_emitOpVecShlImm L.hasGfni ha hd
  rw [emitShift]
  exact laneOp_cases (motive := fun op => a.op = op → _) (fun h => by rw [h]) (fun h => by rw [h])
    (fun h => by rw [h]) (fun h => by rw [h]) lane hop

theorem step_ushr (hop : a.op = ushrOp lane) : L.step n a f = some (f.define n
    ⟨a.ty, form a (shiftLanes (fun _ => (· >>> shiftOf a)) lane (a.arg f 0).bits)⟩) := by
  refine L.step_shiftLanes (e := emitOpVecUshrImm) hlane hop (by decide) (fun hasGfni locs => ?_)
    fun pa pd ha hd => exists_emitOpVecUshrImm L.hasGfni ha hd
  rw [emitShift]
  exact laneOp_cases (motive := fun op => a.op = op → _) (fun h => by rw [h]) (fun h => by rw [h])
    (fun h => by rw [h]) (fun h => by rw [h]) lane hop

theorem step_sshr (hop : a.op = sshrOp lane) (hs : shiftOf a ≤ 64) : L.step n a f = some (f.define n
    ⟨a.ty, form a (shiftLanes (fun _ => (·.sshiftRight (shiftOf a))) lane (a.arg f 0).bits)⟩) := by
  refine L.step_shiftLanes (e := emitOpVecSshrImm) hlane hop (by decide) (fun hasGfni locs => ?_)
    fun pa pd ha hd => exists_emitOpVecSshrImm L.hasGfni ha hd hs
  rw [emitShift]
  exact laneOp_cases (motive := fun op => a.op = op → _) (fun h => by rw [h]) (fun h => by rw [h])
    (fun h => by rw [h]) (fun h => by rw [h]) lane hop

/-- A sum of lanes. -/
theorem step_add (hop : a.op = addOp lane) : L.step n a f = some (f.define n
    ⟨a.ty, form a (zipLanes (8 <<< lane) (· + ·) (a.arg f 0).bits (a.arg f 1).bits)⟩) := by
  obtain ⟨hsize, hvec⟩ := (by decide : ∀ lane < 4, (addOp lane).sizeLog2 = lane ∧
    isVector (addOp lane)) lane hlane
  rw [← hop] at hsize hvec
  refine L.step_value hvec (fun hasGfni locs => ?_) ?_
  · rw [emitShift]
    exact laneOp_cases (motive := fun op => a.op = op → _) (fun h => by rw [h]) (fun h => by rw [h])
      (fun h => by rw [h]) (fun h => by rw [h]) lane hop
  · rw [vectorValue, ← hsize]
    exact laneOp_cases (motive := fun op => a.op = op → _) (fun h => by rw [h]; rfl)
      (fun h => by rw [h]; rfl) (fun h => by rw [h]; rfl) (fun h => by rw [h]; rfl) lane hop

/-- The low bits of a register in every lane. -/
theorem step_dup (hop : a.op = dupOp lane) : L.step n a f = some (f.define n
    ⟨a.ty, form a (ofLanes 128 (8 <<< lane) fun _ => (a.arg f 0).bits.setWidth _)⟩) := by
  obtain ⟨hsize, hvec⟩ := (by decide : ∀ lane < 4, (dupOp lane).sizeLog2 = lane ∧
    isVector (dupOp lane)) lane hlane
  rw [← hop] at hsize hvec
  refine L.step_value hvec (fun hasGfni locs => ?_) ?_
  · rw [emitShift]
    exact laneOp_cases (motive := fun op => a.op = op → _) (fun h => by rw [h]) (fun h => by rw [h])
      (fun h => by rw [h]) (fun h => by rw [h]) lane hop
  · rw [vectorValue, ← hsize]
    exact laneOp_cases (motive := fun op => a.op = op → _) (fun h => by rw [h]; rfl)
      (fun h => by rw [h]; rfl) (fun h => by rw [h]; rfl) (fun h => by rw [h]; rfl) lane hop

end lanes

/-- The allocator puts every vector where its code can be made. -/
theorem exists_linearScan (features : HostFeatures) {b : Block} {live : List ValueRef}
    (hwalk : b.Walk b.head live) (htail : b.tail = live.getLastD linkNone)
    (hsize : b.code.size < Block.maxNodes) (terminalUses : List ValueRef) (hasGfni : Bool)
    (contents : Contents) :
    ∃ L : VectorLowering, L.hasGfni = hasGfni ∧ L.contents = contents ∧
      ∀ i ∈ live, IsVector b i → L.locs i = locsOf features b terminalUses i := by
  classical
  let locs i := if ∃ p, VectorAt (locsOf features b terminalUses i) p then
    locsOf features b terminalUses i else .spill 0
  have hvector : ∀ i, ∃ p, VectorAt (locs i) p := by
    intro i
    by_cases h : ∃ p, VectorAt (locsOf features b terminalUses i) p
    · simpa only [locs, if_pos h] using h
    · simp only [locs, if_neg h]
      exact ⟨.frame 0, rfl, nofun⟩
  refine ⟨⟨hasGfni, locs, contents, hvector⟩, rfl, rfl, fun i hi hv => ?_⟩
  exact if_pos (vectorAt_linearScan hwalk htail hsize hi hv)

end VectorLowering

end Rustarmic
