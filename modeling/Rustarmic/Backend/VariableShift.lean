import Rustarmic.Backend.VectorCompare
import Rustarmic.Interp.Rows

/-!
# Shifts of vectors by a vector

The code shifts one lane after the other in `rax`, by a count that is the low byte of the lane of
the second operand.  The host masks a count, so counts past the width of a lane branch to a zero, or
are cut to one less than the width where the sign is to remain.

* `Cpu`, `run` — the general registers and flags that the code uses, and its jumps, all forward.
* `run_emitLane` — what the code for a lane does.
* `variableShift_agrees` — the lanes are those of the helper.
-/

set_option autoImplicit false

namespace Rustarmic

namespace VariableShift

open VectorCode Lanes Interp

/-! ## The machine -/

inductive Mark where
  | right | zero | insert
  deriving DecidableEq, Repr

/-- Every lane has labels of its own. -/
structure Label where
  lane : Nat
  mark : Mark
  deriving DecidableEq, Repr

/-- `value` is in `rax`, `count` in `rcx`, `limit` in `rdx`; counts are made with 32-bit
operations. -/
inductive Instr where
  | vec (i : VectorCode.Instr)
  | pextrValue (bytes src lane : Nat)
  | movsxValue (bytes : Nat)
  | pextrbCount (src off : Nat)
  | movsxCount
  | testCount
  | cmpCount (imm : U32)
  | negCount
  | movLimit (imm : U32)
  | cmovaeCount
  | shlValue
  | sarValue
  | shrValue
  | zeroValue
  | pinsrValue (bytes dst lane : Nat)
  | jmp (l : Label)
  | js (l : Label)
  | jae (l : Label)
  | label (l : Label)
  deriving DecidableEq, Repr

structure Cpu where
  value : U64
  count : U64
  limit : U64
  sign : Bool
  carry : Bool
  vec : Contents

namespace Cpu

variable (c : Cpu)

def count32 : U32 := c.count.setWidth 32

/-- The host takes six bits of `cl`. -/
def amount : Nat := (c.count.setWidth 6 : BitVec 6).toNat

end Cpu

/-- Replace one lane. -/
def insertLane (w k : Nat) (x : BitVec w) (v : U128) : U128 :=
  ofLanes 128 w fun j => if j = k then x else lane w v j

def Instr.exec (c : Cpu) : Instr → Cpu
  | vec i => { c with vec := i.exec c.vec }
  | pextrValue bytes src k => { c with value := (lane (8 * bytes) (c.vec (.xmm src)) k).setWidth 64 }
  | movsxValue bytes => { c with value := (c.value.setWidth (8 * bytes)).signExtend 64 }
  | pextrbCount src off => { c with count := (lane 8 (c.vec (.xmm src)) off).setWidth 64 }
  | movsxCount => { c with count := ((c.count.setWidth 8).signExtend 32).setWidth 64 }
  | testCount => { c with sign := c.count32.msb, carry := false }
  | cmpCount imm => { c with sign := (c.count32 - imm).msb, carry := c.count32.ult imm }
  | negCount =>
    { c with count := (-c.count32).setWidth 64, sign := (-c.count32).msb, carry := c.count32 != 0#32 }
  | movLimit imm => { c with limit := imm.setWidth 64 }
  | cmovaeCount => { c with count := ((if c.carry then c.count else c.limit).setWidth 32).setWidth 64 }
  | shlValue => { c with value := c.value <<< c.amount }
  | sarValue => { c with value := c.value.sshiftRight c.amount }
  | shrValue => { c with value := c.value >>> c.amount }
  | zeroValue => { c with value := 0#64 }
  | pinsrValue bytes dst k =>
    { c with vec := c.vec.set (.xmm dst) (insertLane (8 * bytes) k (c.value.setWidth _) (c.vec (.xmm dst))) }
  | jmp _ | js _ | jae _ | label _ => c

/-- Where an instruction jumps to, if it does. -/
def Instr.target (c : Cpu) : Instr → Option Label
  | jmp l => some l
  | js l => if c.sign then some l else none
  | jae l => if c.carry then none else some l
  | _ => none

/-- Run the code; under way to a label everything before it is skipped. -/
def run : List Instr → Option Label → Cpu → Option Cpu
  | [], none, c => some c
  | [], some _, _ => none
  | i :: code, none, c => run code (i.target c) (i.exec c)
  | i :: code, some l, c => run code (if i = .label l then none else some l) c

/-! ## The code -/

/-- The lane and its count. -/
def loadLane (bytes : Nat) (signed : Bool) (k : Nat) : List Instr :=
  [.pextrValue bytes 1 k] ++ (if signed ∧ bytes < 8 then [.movsxValue bytes] else []) ++
    [.pextrbCount 2 (k * bytes), .movsxCount]

/-- The shift in `rax`, a right shift behind the label for negative counts. -/
def shiftLane (bytes : Nat) (signed : Bool) (k : Nat) : List Instr :=
  let width := BitVec.ofNat 32 (8 * bytes)
  [.testCount, .js ⟨k, .right⟩, .cmpCount width, .jae ⟨k, .zero⟩, .shlValue, .jmp ⟨k, .insert⟩,
    .label ⟨k, .right⟩, .negCount, .cmpCount width] ++
    (if signed then [.movLimit (width - 1), .cmovaeCount, .sarValue]
      else [.jae ⟨k, .zero⟩, .shrValue]) ++
    [.jmp ⟨k, .insert⟩, .label ⟨k, .zero⟩, .zeroValue, .label ⟨k, .insert⟩]

def emitLane (bytes : Nat) (signed : Bool) (k : Nat) : List Instr :=
  loadLane bytes signed k ++ shiftLane bytes signed k ++ [.pinsrValue bytes 0 k]

/-- `emit_op_vec_variable_shift`. -/
def emitOpVecVariableShift (locs : Nat → Loc) (a : Armlet) (d : Nat) : Option (List Instr) := do
  let bytes := a.op.sizeBytes
  let load ← intoXmmQ (locs (a.args.get 0)) 1
  let loadCounts ← intoXmmQ (locs (a.args.get 1)) 2
  let store ← storeXmmQ (locs d) 0
  pure ((load ++ loadCounts ++ [VectorCode.Instr.pxor 0 0]).map .vec ++
    (List.range ((if qForm a then 16 else 8) / bytes)).flatMap
      (emitLane bytes (a.op.base == Op.vecSshl8.base)) ++
    store.map .vec)

/-! ## One lane -/

/-- A lane by a signed count: nothing remains beyond the width but copies of the sign. -/
def shiftedLane {w : Nat} (signed : Bool) (x : BitVec w) (count : U8) : BitVec w :=
  if 0 ≤ count.toInt then if w ≤ count.toInt.toNat then 0 else x <<< count.toInt.toNat
  else if signed then x.sshiftRight (min (-count.toInt).toNat (w - 1))
  else if w ≤ (-count.toInt).toNat then 0 else x >>> (-count.toInt).toNat

/-- The count in the 32 bits of `ecx`. -/
theorem signExtend_count (b : U8) :
    (b.signExtend 32).msb = decide (b.toInt < 0) ∧
      (0 ≤ b.toInt → (b.signExtend 32).toNat = b.toInt.toNat ∧ b.toInt.toNat < 128) ∧
      (b.toInt < 0 → (-(b.signExtend 32)).toNat = (-b.toInt).toNat ∧ (-b.toInt).toNat ≤ 128) := by
  have hall : ∀ k < 256, let b := BitVec.ofNat 8 k
      (b.signExtend 32).msb = decide (b.toInt < 0) ∧
      (0 ≤ b.toInt → (b.signExtend 32).toNat = b.toInt.toNat ∧ b.toInt.toNat < 128) ∧
      (b.toInt < 0 → (-(b.signExtend 32)).toNat = (-b.toInt).toNat ∧ (-b.toInt).toNat ≤ 128) := by
    decide +kernel
  have h := hall b.toNat b.isLt
  rwa [BitVec.ofNat_toNat, BitVec.setWidth_eq] at h

section lane

variable {bytes : Nat} (signed : Bool) (k : Nat) (rest : List Instr) (c : Cpu)

theorem run_loadLane (hle : bytes ≤ 8) :
    run (loadLane bytes signed k ++ rest) none c = run rest none
      { c with
        value := if signed then (lane (8 * bytes) (c.vec (.xmm 1)) k).signExtend 64
          else (lane (8 * bytes) (c.vec (.xmm 1)) k).setWidth 64
        count := ((lane 8 (c.vec (.xmm 2)) (k * bytes)).signExtend 32).setWidth 64 } := by
  have hvalue : ((lane (8 * bytes) (c.vec (.xmm 1)) k).setWidth 64).setWidth (8 * bytes) =
      lane (8 * bytes) (c.vec (.xmm 1)) k := by
    rw [BitVec.setWidth_setWidth_of_le _ (by omega), BitVec.setWidth_eq]
  have hcount (b : U8) : (b.setWidth 64).setWidth 8 = b := BitVec.setWidth_setWidth_of_le _ (by decide)
  cases signed with
  | true =>
    rcases Nat.lt_or_eq_of_le hle with hlt | rfl
    · rw [loadLane, if_pos ⟨rfl, hlt⟩]
      simp only [List.cons_append, List.nil_append, run, Instr.target, Instr.exec, hvalue, hcount,
        if_true]
    · rw [loadLane, if_neg fun h => Nat.lt_irrefl 8 h.2]
      have hfull (x : BitVec (8 * 8)) : x.signExtend 64 = x.setWidth 64 := by
        rw [BitVec.signExtend_eq_setWidth_of_le _ (by decide)]
      simp only [List.cons_append, List.nil_append, run, Instr.target, Instr.exec, hcount, if_true, hfull]
  | false =>
    rw [loadLane, if_neg fun h => Bool.false_ne_true h.1]
    simp only [List.cons_append, List.nil_append, run, Instr.target, Instr.exec, hcount,
      Bool.false_eq_true, if_false]

/-- The value that the code for the shift leaves. -/
def shiftedValue (width : Nat) (signed : Bool) (x : U64) (count : U8) : U64 :=
  if 0 ≤ count.toInt then if width ≤ count.toInt.toNat then 0 else x <<< count.toInt.toNat
  else if signed then x.sshiftRight (min (-count.toInt).toNat (width - 1))
  else if width ≤ (-count.toInt).toNat then 0 else x >>> (-count.toInt).toNat

@[simp] theorem exec_jmp (l : Label) : (Instr.jmp l).exec c = c := rfl

@[simp] theorem exec_js (l : Label) : (Instr.js l).exec c = c := rfl

@[simp] theorem exec_jae (l : Label) : (Instr.jae l).exec c = c := rfl

@[simp] theorem exec_label (l : Label) : (Instr.label l).exec c = c := rfl

theorem run_shiftLane (hpos : 0 < bytes) (hle : bytes ≤ 8) {b : U8}
    (hcount : c.count = (b.signExtend 32).setWidth 64) :
    ∃ c', run (shiftLane bytes signed k ++ rest) none c = run rest none c' ∧ c'.vec = c.vec ∧
      c'.value = shiftedValue (8 * bytes) signed c.value b := by
  obtain ⟨hmsb, hnonneg, hneg⟩ := signExtend_count b
  have hback (y : U32) : (y.setWidth 64).setWidth 32 = y := BitVec.setWidth_setWidth_of_le _ (by decide)
  have hwidth : (BitVec.ofNat 32 (8 * bytes)).toNat = 8 * bytes := by
    rw [BitVec.toNat_ofNat, Nat.mod_eq_of_lt (by omega)]
  have hsix (y : U32) (h : y.toNat < 64) : ((y.setWidth 64).setWidth 6 : BitVec 6).toNat = y.toNat := by
    rw [BitVec.toNat_setWidth, BitVec.toNat_setWidth]
    omega
  have htest : (Instr.testCount.exec c).sign = decide (b.toInt < 0) := by
    rw [← hmsb, Instr.exec, Cpu.count32, hcount, hback]
  have hcmp (c' : Cpu) (y : U32) (h : c'.count = y.setWidth 64) :
      ((Instr.cmpCount (BitVec.ofNat 32 (8 * bytes))).exec c').carry = decide (y.toNat < 8 * bytes) := by
    simp only [Instr.exec, Cpu.count32, h, hback, BitVec.ult, hwidth]
  rw [shiftedValue]
  by_cases hsign : 0 ≤ b.toInt
  · obtain ⟨hecx, -⟩ := hnonneg hsign
    have hjs : (Instr.testCount.exec c).sign = false := htest.trans (decide_eq_false (not_lt.mpr hsign))
    have hcarry := hcmp (Instr.testCount.exec c) _ hcount
    rw [hecx] at hcarry
    rw [if_pos hsign]
    split_ifs with hbeyond
    · rw [decide_eq_false (not_lt.mpr hbeyond)] at hcarry
      refine ⟨Instr.zeroValue.exec ((Instr.cmpCount (BitVec.ofNat 32 (8 * bytes))).exec
        (Instr.testCount.exec c)), ?_, rfl, rfl⟩
      cases signed <;> simp [shiftLane, run, Instr.target, hjs, hcarry]
    · rw [decide_eq_true (not_le.mp hbeyond)] at hcarry
      refine ⟨Instr.shlValue.exec ((Instr.cmpCount (BitVec.ofNat 32 (8 * bytes))).exec
        (Instr.testCount.exec c)), ?_, rfl, ?_⟩
      · cases signed <;> simp [shiftLane, run, Instr.target, hjs, hcarry]
      · simp only [Instr.exec, Cpu.amount, hcount]
        rw [hsix _ (by rw [hecx]; omega), hecx]
  · obtain ⟨hecx, hmax⟩ := hneg (not_le.mp hsign)
    have hjs : (Instr.testCount.exec c).sign = true := htest.trans (decide_eq_true (not_le.mp hsign))
    have hcount' : (Instr.negCount.exec (Instr.testCount.exec c)).count =
        (-b.signExtend 32).setWidth 64 := by
      simp only [Instr.exec, Cpu.count32, hcount, hback]
    have hcarry := hcmp _ _ hcount'
    rw [hecx] at hcarry
    rw [if_neg hsign]
    split_ifs with hsigned hbeyond
    · -- Counts beyond are cut to one less than the width.
      refine ⟨Instr.sarValue.exec (Instr.cmovaeCount.exec
        ((Instr.movLimit (BitVec.ofNat 32 (8 * bytes) - 1)).exec
          ((Instr.cmpCount (BitVec.ofNat 32 (8 * bytes))).exec
            (Instr.negCount.exec (Instr.testCount.exec c))))), ?_, rfl, ?_⟩
      · rw [hsigned]
        simp [shiftLane, run, Instr.target, hjs]
      · change c.value.sshiftRight (BitVec.setWidth 6 (BitVec.setWidth 64 (BitVec.setWidth 32
          (if ((Instr.cmpCount (BitVec.ofNat 32 (8 * bytes))).exec
              (Instr.negCount.exec (Instr.testCount.exec c))).carry
            then (Instr.negCount.exec (Instr.testCount.exec c)).count
            else (BitVec.ofNat 32 (8 * bytes) - 1).setWidth 64)))).toNat = _
        rw [hcarry, hcount']
        by_cases hin : (-b.toInt).toNat < 8 * bytes
        · rw [decide_eq_true hin, if_pos rfl, hback, hsix _ (by rw [hecx]; omega), hecx,
            min_eq_left (by omega)]
        · have hlimit : (BitVec.ofNat 32 (8 * bytes) - 1).toNat = 8 * bytes - 1 := by
            rw [BitVec.toNat_sub_of_le (by rw [BitVec.le_def, hwidth]; exact hpos.trans_le (by omega)),
              hwidth]
            rfl
          rw [decide_eq_false hin, if_neg Bool.false_ne_true, hback, hsix _ (by rw [hlimit]; omega),
            hlimit, min_eq_right (by omega)]
    · rw [decide_eq_false (not_lt.mpr hbeyond)] at hcarry
      refine ⟨Instr.zeroValue.exec ((Instr.cmpCount (BitVec.ofNat 32 (8 * bytes))).exec
        (Instr.negCount.exec (Instr.testCount.exec c))), ?_, rfl, rfl⟩
      rw [Bool.not_eq_true] at hsigned
      simp [shiftLane, run, Instr.target, hjs, hcarry, hsigned]
    · rw [decide_eq_true (not_le.mp hbeyond)] at hcarry
      refine ⟨Instr.shrValue.exec ((Instr.cmpCount (BitVec.ofNat 32 (8 * bytes))).exec
        (Instr.negCount.exec (Instr.testCount.exec c))), ?_, rfl, ?_⟩
      · rw [Bool.not_eq_true] at hsigned
        simp [shiftLane, run, Instr.target, hjs, hcarry, hsigned]
      · change c.value >>> (((Instr.negCount.exec (Instr.testCount.exec c)).count).setWidth 6).toNat = _
        rw [hcount', hsix _ (by rw [hecx]; omega), hecx]

section extension

variable {w : Nat} (hw : w ≤ 64) (x : BitVec w) (s : Nat)
include hw

theorem setWidth_shiftLeft_signExtend : (x.signExtend 64 <<< s).setWidth w = x <<< s := by
  refine BitVec.eq_of_getLsbD_eq fun i hi => ?_
  rw [BitVec.getLsbD_setWidth, BitVec.getLsbD_shiftLeft, BitVec.getLsbD_shiftLeft,
    BitVec.getLsbD_signExtend, if_pos (by omega), decide_eq_true (by omega : i - s < 64)]
  simp [hi, (by omega : i < 64)]

theorem setWidth_shiftLeft_setWidth : (x.setWidth 64 <<< s).setWidth w = x <<< s := by
  refine BitVec.eq_of_getLsbD_eq fun i hi => ?_
  rw [BitVec.getLsbD_setWidth, BitVec.getLsbD_shiftLeft, BitVec.getLsbD_shiftLeft,
    BitVec.getLsbD_setWidth, decide_eq_true (by omega : i - s < 64)]
  simp [hi, (by omega : i < 64)]

theorem setWidth_ushiftRight_setWidth : (x.setWidth 64 >>> s).setWidth w = x >>> s := by
  refine BitVec.eq_of_getLsbD_eq fun i hi => ?_
  rw [BitVec.getLsbD_setWidth, BitVec.getLsbD_ushiftRight, BitVec.getLsbD_ushiftRight,
    BitVec.getLsbD_setWidth]
  by_cases hin : s + i < 64
  · simp [hi, hin]
  · rw [BitVec.getLsbD_of_ge x (s + i) (by omega)]
    simp

theorem setWidth_sshiftRight_signExtend (hs : s < w) :
    ((x.signExtend 64).sshiftRight s).setWidth w = x.sshiftRight s := by
  refine BitVec.eq_of_getLsbD_eq fun i hi => ?_
  have hmsb : (x.signExtend 64).msb = x.msb := by
    rcases Nat.lt_or_eq_of_le hw with hlt | rfl
    · rw [BitVec.msb_signExtend, if_neg (by omega)]
      rfl
    · rw [BitVec.signExtend_eq]
  rw [BitVec.getLsbD_setWidth, decide_eq_true hi, Bool.true_and, BitVec.getLsbD_sshiftRight,
    BitVec.getLsbD_sshiftRight, decide_eq_false (by omega : ¬ w ≤ i),
    decide_eq_false (by omega : ¬ 64 ≤ i), hmsb]
  split_ifs with h64 hin hin
  · rw [BitVec.getLsbD_signExtend, if_pos hin, decide_eq_true h64, Bool.true_and]
  · rw [BitVec.getLsbD_signExtend, if_neg hin, decide_eq_true h64, Bool.true_and]
  · omega
  · rfl

theorem setWidth_shiftedValue (hpos : 0 < w) (b : U8) :
    (shiftedValue w signed (if signed then x.signExtend 64 else x.setWidth 64) b).setWidth w =
      shiftedLane signed x b := by
  rw [shiftedValue, shiftedLane]
  cases signed with
  | true =>
    simp only [if_true]
    split_ifs with hsign hbeyond
    · exact BitVec.setWidth_zero _ _
    · exact setWidth_shiftLeft_signExtend hw x _
    · exact setWidth_sshiftRight_signExtend hw x _ (by omega)
  | false =>
    simp only [Bool.false_eq_true, if_false]
    split_ifs with hsign hbeyond hbeyond
    · exact BitVec.setWidth_zero _ _
    · exact setWidth_shiftLeft_setWidth hw x _
    · exact BitVec.setWidth_zero _ _
    · exact setWidth_ushiftRight_setWidth hw x _

end extension

theorem run_emitLane (hpos : 0 < bytes) (hle : bytes ≤ 8) :
    ∃ c', run (emitLane bytes signed k ++ rest) none c = run rest none c' ∧
      c'.vec = c.vec.set (.xmm 0) (insertLane (8 * bytes) k
        (shiftedLane signed (lane (8 * bytes) (c.vec (.xmm 1)) k)
          (lane 8 (c.vec (.xmm 2)) (k * bytes))) (c.vec (.xmm 0))) := by
  rw [emitLane, List.append_assoc, List.append_assoc, run_loadLane signed k _ c hle]
  obtain ⟨c', hrun, hvec, hvalue⟩ := run_shiftLane signed k ([.pinsrValue bytes 0 k] ++ rest)
    { c with
      value := if signed then (lane (8 * bytes) (c.vec (.xmm 1)) k).signExtend 64
        else (lane (8 * bytes) (c.vec (.xmm 1)) k).setWidth 64
      count := ((lane 8 (c.vec (.xmm 2)) (k * bytes)).signExtend 32).setWidth 64 } hpos hle rfl
  refine ⟨_, hrun, ?_⟩
  change c'.vec.set (.xmm 0) (insertLane (8 * bytes) k (c'.value.setWidth _) (c'.vec (.xmm 0))) = _
  rw [hvalue, hvec, setWidth_shiftedValue signed (by omega) _ (by omega)]

end lane

/-! ## The vector -/

theorem run_append_vec (code : List VectorCode.Instr) (rest : List Instr) (c : Cpu) :
    run (code.map .vec ++ rest) none c = run rest none { c with vec := VectorCode.run code c.vec } := by
  induction code generalizing c with
  | nil => rfl
  | cons i code ih => exact ih _

theorem insertLane_upTo {w : Nat} (hw : 0 < w) (g : Nat → BitVec w) (k : Nat) :
    insertLane w k (g k) (ofLanes 128 w (upTo k g)) = ofLanes 128 w (upTo (k + 1) g) := by
  refine BitVec.eq_of_getLsbD_eq fun i hi => ?_
  have hrow : (lane w (ofLanes 128 w (upTo k g)) (i / w)).getLsbD (i % w) =
      (upTo k g (i / w)).getLsbD (i % w) := by
    rw [← getLsbD_eq_lane _ hw, getLsbD_ofLanes, decide_eq_true hi, Bool.true_and]
  rw [insertLane, getLsbD_ofLanes, getLsbD_ofLanes]
  split_ifs with heq
  · rw [upTo, if_pos (by omega), heq]
  · have hsame : upTo (k + 1) g (i / w) = upTo k g (i / w) := by
      rw [upTo, upTo]
      split_ifs <;> first | rfl | omega
    rw [hrow, hsame]

/-- The lanes below `k` are shifted. -/
def shiftedRow (bytes : Nat) (signed : Bool) (x y : U128) (k : Nat) : U128 :=
  ofLanes 128 (8 * bytes) (upTo k fun j =>
    shiftedLane signed (lane (8 * bytes) x j) (lane 8 y (j * bytes)))

theorem run_lanes {bytes : Nat} (hpos : 0 < bytes) (hle : bytes ≤ 8) (signed : Bool) (n : Nat)
    (rest : List Instr) (c : Cpu) (hzero : c.vec (.xmm 0) = 0) :
    ∃ c', run ((List.range n).flatMap (emitLane bytes signed) ++ rest) none c = run rest none c' ∧
      c'.vec = c.vec.set (.xmm 0) (shiftedRow bytes signed (c.vec (.xmm 1)) (c.vec (.xmm 2)) n) := by
  induction n generalizing rest with
  | zero =>
    refine ⟨c, rfl, funext fun p => ?_⟩
    rw [shiftedRow, ofLanes_upTo_zero, ← hzero, Contents.set_apply]
    split_ifs with hp
    · rw [hp]
    · rfl
  | succ n ih =>
    obtain ⟨c', hrun, hvec⟩ := ih (emitLane bytes signed n ++ rest)
    obtain ⟨c'', hrun', hvec'⟩ := run_emitLane signed n rest c' hpos hle
    refine ⟨c'', ?_, ?_⟩
    · rw [List.range_succ, List.flatMap_append, List.flatMap_singleton, List.append_assoc, hrun, hrun']
    · have h1 : c'.vec (.xmm 1) = c.vec (.xmm 1) := by
        rw [hvec, Contents.set_of_ne (by decide)]
      have h2 : c'.vec (.xmm 2) = c.vec (.xmm 2) := by
        rw [hvec, Contents.set_of_ne (by decide)]
      have h0 : c'.vec (.xmm 0) = shiftedRow bytes signed (c.vec (.xmm 1)) (c.vec (.xmm 2)) n := by
        rw [hvec, Contents.set_self]
      rw [hvec', h0, h1, h2, shiftedRow, insertLane_upTo (by omega) (fun j =>
        shiftedLane signed (lane (8 * bytes) (c.vec (.xmm 1)) j) (lane 8 (c.vec (.xmm 2)) (j * bytes))),
        hvec]
      exact Function.update_idem ..

/-! ## The helper -/

/-- The signed low byte of the count of a lane. -/
theorem setWidth_count {bytes k : Nat} (hpos : 0 < bytes) (hle : bytes ≤ 8) (y : U128) :
    (get y k (8 * bytes)).setWidth 8 = lane 8 y (k * bytes) := by
  rw [get_eq (by omega), BitVec.setWidth_setWidth_of_le _ (by decide)]
  refine BitVec.eq_of_getLsbD_eq fun i hi => ?_
  rw [BitVec.getLsbD_setWidth, getLsbD_lane, getLsbD_lane, decide_eq_true hi,
    decide_eq_true (by omega : i < 8 * bytes), (by ring : 8 * bytes * k = 8 * (k * bytes)),
    Bool.true_and]

section value

variable {w : Nat} (x : BitVec w)

/-- Past the sign there is nothing but its copies. -/
theorem sshiftRight_min (hpos : 0 < w) (s : Nat) :
    x.sshiftRight (min s (w - 1)) = x.sshiftRight s := by
  rcases Nat.le_total s (w - 1) with hle | hle
  · rw [min_eq_left hle]
  · refine BitVec.eq_of_getLsbD_eq fun i hi => ?_
    rw [min_eq_right hle, BitVec.getLsbD_sshiftRight, BitVec.getLsbD_sshiftRight]
    split_ifs with h1 h2 h2
    · rw [(by omega : w - 1 + i = s + i)]
    · rw [BitVec.msb_eq_getLsbD_last, (by omega : w - 1 + i = w - 1)]
    · omega
    · rfl

theorem ofInt_shiftLeft (v : Int) (hv : BitVec.ofInt w v = x) (s : Nat) :
    BitVec.ofInt w (v * 2 ^ s) = x <<< s := by
  rw [BitVec.ofInt_mul, hv]
  refine BitVec.eq_of_toNat_eq ?_
  have hpow : BitVec.ofInt w (2 ^ s) = BitVec.ofNat w (2 ^ s) := by
    rw [← BitVec.ofInt_natCast]
    push_cast
    rfl
  rw [hpow, BitVec.toNat_mul, BitVec.toNat_ofNat, BitVec.toNat_shiftLeft, Nat.mul_mod_mod,
    Nat.shiftLeft_eq]

/-- The lane as it is shifted by a signed count. -/
theorem shiftedLane_eq (hpos : 0 < w) (signed : Bool) (count : U8) {s : Nat} :
    (count.toInt = s → shiftedLane signed x count = x <<< s) ∧
      (0 < s → count.toInt = -s → shiftedLane signed x count =
        if signed then x.sshiftRight s else x >>> s) := by
  constructor
  · intro hs
    rw [shiftedLane, hs, if_pos (by omega), Int.toNat_natCast]
    split_ifs with hbeyond
    · exact (BitVec.shiftLeft_eq_zero hbeyond).symm
    · rfl
  · intro hpos' hs
    rw [shiftedLane, hs, if_neg (by omega), neg_neg, Int.toNat_natCast]
    split_ifs with hsigned hbeyond
    · exact sshiftRight_min x hpos s
    · exact (BitVec.ushiftRight_eq_zero hbeyond).symm
    · rfl

end value

theorem shlReg_eq {bytes : Nat} (hpos : 0 < bytes) (hle : bytes ≤ 8) (signed : Bool) (x y : U128)
    (k : Nat) (st : St) :
    shlReg (get x k (8 * bytes)) (get y k (8 * bytes)) (8 * bytes) (!signed) false false st =
      some ((shiftedLane signed (lane (8 * bytes) x k) (lane 8 y (k * bytes))).setWidth 64, st) := by
  have hcount := setWidth_count (k := k) hpos hle y
  have hback : (get x k (8 * bytes)).setWidth (8 * bytes) = lane (8 * bytes) x k := by
    rw [get_eq (by omega), BitVec.setWidth_setWidth_of_le _ (by omega), BitVec.setWidth_eq]
  have hvalue : Interp.value (get x k (8 * bytes)) (8 * bytes) (!signed) =
      if signed then (lane (8 * bytes) x k).toInt else (lane (8 * bytes) x k).toNat := by
    rw [Interp.value, hback]
    cases signed <;> rfl
  obtain ⟨s, hs⟩ := Int.eq_nat_or_neg (lane 8 y (k * bytes)).toInt
  obtain ⟨hleft, hright⟩ := @shiftedLane_eq _ (lane (8 * bytes) x k) (by omega) signed
    (lane 8 y (k * bytes)) s
  by_cases hsign : (lane 8 y (k * bytes)).toInt = s
  · rw [shlReg_left (by omega) (by omega) (by rw [hcount]; exact hsign), hleft hsign, shlResult,
      if_neg Bool.false_ne_true, hvalue, ofInt_shiftLeft (lane (8 * bytes) x k)]
    cases signed with
    | true => exact BitVec.ofInt_toInt
    | false =>
      rw [if_neg Bool.false_ne_true, BitVec.ofInt_natCast, BitVec.ofNat_toNat, BitVec.setWidth_eq]
  · have hneg := hs.resolve_left hsign
    have hs' : 0 < s := by omega
    rw [shlReg_right (by omega) (by omega) hs' (by rw [hcount]; exact hneg), hright hs' hneg, shlResult,
      if_neg Bool.false_ne_true, if_neg Bool.false_ne_true, add_zero, hvalue]
    cases signed with
    | true =>
      rw [if_pos rfl, if_pos rfl, BitVec.sshiftRight, Int.shiftRight_eq_div_pow]
      push_cast
      rfl
    | false =>
      rw [if_neg Bool.false_ne_true, if_neg Bool.false_ne_true]
      have hdiv : ((lane (8 * bytes) x k).toNat : Int) / 2 ^ s =
          (((lane (8 * bytes) x k) >>> s).toNat : Int) := by
        rw [BitVec.toNat_ushiftRight, Nat.shiftRight_eq_div_pow]
        push_cast
        rfl
      rw [hdiv, BitVec.ofInt_natCast, BitVec.ofNat_toNat, BitVec.setWidth_eq]

/-- Whether an operation is one of these shifts, and how. -/
def IsVariableShift (op : Op) (signed : Bool) : Prop :=
  op ∈ if signed then [.vecSshl8, .vecSshl16, .vecSshl32, .vecSshl64]
    else [.vecUshl8, .vecUshl16, .vecUshl32, .vecUshl64]

instance (op : Op) (signed : Bool) : Decidable (IsVariableShift op signed) :=
  inferInstanceAs (Decidable (op ∈ _))

theorem isVariableShift_size {op : Op} {signed : Bool} (h : IsVariableShift op signed) :
    0 < op.sizeBytes ∧ op.sizeBytes ≤ 8 ∧ (op.base == Op.vecSshl8.base) = signed := by
  rw [IsVariableShift] at h
  cases signed with
  | true =>
    have hall : ∀ op ∈ ([.vecSshl8, .vecSshl16, .vecSshl32, .vecSshl64] : List Op),
        0 < op.sizeBytes ∧ op.sizeBytes ≤ 8 ∧ (op.base == Op.vecSshl8.base) = true := by decide
    exact hall op h
  | false =>
    have hall : ∀ op ∈ ([.vecUshl8, .vecUshl16, .vecUshl32, .vecUshl64] : List Op),
        0 < op.sizeBytes ∧ op.sizeBytes ≤ 8 ∧ (op.base == Op.vecSshl8.base) = false := by decide
    exact hall op h

theorem isVariableShift_dvd {op : Op} {signed : Bool} (h : IsVariableShift op signed) :
    8 * op.sizeBytes ∣ 64 := by
  have hall : ∀ op ∈ ([.vecSshl8, .vecSshl16, .vecSshl32, .vecSshl64, .vecUshl8, .vecUshl16, .vecUshl32,
      .vecUshl64] : List Op), 8 * op.sizeBytes ∣ 64 := by decide
  refine hall op ?_
  rw [IsVariableShift] at h
  cases signed with
  | true => exact List.mem_append_left [.vecUshl8, .vecUshl16, .vecUshl32, .vecUshl64] h
  | false => exact List.mem_append_right [.vecSshl8, .vecSshl16, .vecSshl32, .vecSshl64] h

/-- **The code shifts every active lane like the helper**, clears the rest of the vector, and
nothing outside the result but scratch registers changes. -/
theorem variableShift_agrees {locs : Nat → Loc} {a : Armlet} {d : Nat} {pa pb pd : Place}
    {signed : Bool} (hop : IsVariableShift a.op signed) (ha : VectorAt (locs (a.args.get 0)) pa)
    (hb : VectorAt (locs (a.args.get 1)) pb) (hd : VectorAt (locs d) pd) (c : Cpu) (st : St) :
    ∃ code c', emitOpVecVariableShift locs a d = some code ∧ run code none c = some c' ∧
      (∀ k < activeLanes a.op.sizeBits (qForm a) false, ∃ r,
        shlReg (get (c.vec pa) k a.op.sizeBits) (get (c.vec pb) k a.op.sizeBits) a.op.sizeBits
          (!signed) false false st = some (r, st) ∧
        get (c'.vec pd) k a.op.sizeBits = r) ∧
      (qForm a = false → c'.vec pd >>> 64 = 0) ∧
      ∀ p, p ≠ pd → p ∉ [.xmm 0, .xmm 1, .xmm 2] → c'.vec p = c.vec p := by
  obtain ⟨hpos, hle, hsigned⟩ := isVariableShift_size hop
  obtain ⟨load, hload, hrunLoad⟩ := exists_intoXmmQ ha.place 1
  obtain ⟨loadCounts, hloadCounts, hrunCounts⟩ := exists_intoXmmQ hb.place 2
  obtain ⟨store, hstore, hrunStore⟩ := exists_storeXmmQ hd.place 0
  have hbits : a.op.sizeBits = 8 * a.op.sizeBytes := by
    rw [Op.sizeBits, Op.sizeBytes, Nat.shiftLeft_eq, Nat.shiftLeft_eq, Nat.one_mul]
  have hactive : activeLanes a.op.sizeBits (qForm a) false =
      (if qForm a then 16 else 8) / a.op.sizeBytes := by
    rw [activeLanes, if_neg Bool.false_ne_true, hbits,
      ← Nat.mul_div_mul_left (if qForm a then 16 else 8) _ (by decide : 0 < 8)]
    cases qForm a <;> rfl
  -- The operands are in `xmm1` and `xmm2` when the lanes are made.
  let m := VectorCode.run (load ++ loadCounts ++ [VectorCode.Instr.pxor 0 0]) c.vec
  have hm (p : Place) (hp : p ∉ [.xmm 0, .xmm 1, .xmm 2]) : m p = c.vec p := by
    simp only [List.mem_cons, List.not_mem_nil, or_false, not_or] at hp
    simp only [m, run_append, run_cons, run_nil, exec_pxor, hp.1, if_false, hrunCounts, hp.2.2, hrunLoad,
      hp.2.1]
  have hm0 : m (.xmm 0) = 0 := by
    simp only [m, run_append, run_cons, run_nil, exec_pxor, if_true]
    exact BitVec.xor_self
  have hm1 : m (.xmm 1) = c.vec pa := by
    simp [m, hrunCounts, hrunLoad]
  have hm2 : m (.xmm 2) = c.vec pb := by
    simp [m, hrunCounts, hrunLoad, hb.ne_scratch (by decide : 1 < 6)]
  obtain ⟨c', hrun, hvec⟩ := run_lanes hpos hle signed ((if qForm a then 16 else 8) / a.op.sizeBytes)
    (store.map .vec) { c with vec := m } hm0
  simp only [hm1, hm2] at hvec
  have hpd : VectorCode.run store c'.vec pd = shiftedRow a.op.sizeBytes signed (c.vec pa) (c.vec pb)
      ((if qForm a then 16 else 8) / a.op.sizeBytes) := by
    rw [hrunStore, if_pos rfl, hvec, Contents.set_self]
  have hdvd : 8 * a.op.sizeBytes ∣ 64 := isVariableShift_dvd hop
  refine ⟨(load ++ loadCounts ++ [VectorCode.Instr.pxor 0 0]).map .vec ++
      (List.range ((if qForm a then 16 else 8) / a.op.sizeBytes)).flatMap
        (emitLane a.op.sizeBytes signed) ++ store.map .vec,
    { c' with vec := VectorCode.run store c'.vec }, ?_, ?_, ?_, ?_, ?_⟩
  · simp only [emitOpVecVariableShift, hload, hloadCounts, hstore, hsigned]
    rfl
  · rw [List.append_assoc, run_append_vec, hrun, ← List.append_nil (store.map Instr.vec), run_append_vec]
    rfl
  · intro k hk
    rw [hbits] at hactive hk ⊢
    refine ⟨_, shlReg_eq hpos hle signed _ _ k st, ?_⟩
    change get (VectorCode.run store c'.vec pd) k _ = _
    rw [hpd, get_eq (by omega), shiftedRow, ← hactive, lane_row (by omega) hdvd hk]
  · intro hq
    change VectorCode.run store c'.vec pd >>> 64 = 0
    rw [hpd, ← hactive, hbits, hq, shiftedRow]
    refine BitVec.eq_of_getLsbD_eq fun i hi => ?_
    have hout := (lt_activeLanes (q := false) (by omega : 0 < 8 * a.op.sizeBytes) hdvd (64 + i)).not.mpr
      (by simp)
    rw [BitVec.getLsbD_ushiftRight, getLsbD_ofLanes, upTo, if_neg hout]
    simp
  · intro p hp hscratch
    have hp0 : p ≠ .xmm 0 := fun h => hscratch (h ▸ List.mem_cons_self)
    change VectorCode.run store c'.vec p = c.vec p
    rw [hrunStore, if_neg hp, hvec, Contents.set_of_ne hp0, hm p hscratch]

/-- Bytes of the lower half, of which one operand is in a register and the other in the frame. -/
theorem variableShift_agrees_bytes :
    let c : Cpu := ⟨0, 0, 0, false, false, fun _ => 0x80FF#128⟩
    IsVariableShift (Armlet.new .vecSshl8 .u128).op true ∧ ∃ code c',
      emitOpVecVariableShift (fun i => if i = 0 then .xmm 7 else .spill (16 * i))
        ((Armlet.new .vecSshl8 .u128).withArgs [0, 1]) 2 = some code ∧ run code none c = some c' ∧
      ∀ k < 8, ∃ r, shlReg (get (c.vec (.xmm 7)) k 8) (get (c.vec (.frame 16)) k 8) 8 false false false
        ⟨0, 0⟩ = some (r, ⟨0, 0⟩) ∧ get (c'.vec (.frame 32)) k 8 = r := by
  obtain ⟨code, c', hcode, hrun, hlanes, -⟩ := @variableShift_agrees
    (fun i => if i = 0 then .xmm 7 else .spill (16 * i))
    ((Armlet.new .vecSshl8 .u128).withArgs [0, 1]) 2 (.xmm 7) (.frame 16) (.frame 32) true (by decide)
    ⟨rfl, fun r h => by cases h; decide⟩ ⟨rfl, nofun⟩ ⟨rfl, nofun⟩
    ⟨0, 0, 0, false, false, fun _ => 0x80FF#128⟩ ⟨0, 0⟩
  exact ⟨by decide, code, c', hcode, hrun, hlanes⟩

end VariableShift

end Rustarmic
