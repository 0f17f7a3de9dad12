import Mathlib.Tactic.IntervalCases
import Rustarmic.Backend.TableNodes
import Rustarmic.Frontend.VectorEmitter
import Rustarmic.Frontend.Translator

/-!
# Translating table lookups

TBL and TBX look up bytes in one to four registers.  Three are looked up by one node; for a fourth
one the indices are moved down by 48, so that those of the others are out of its range.

* `Asimdtbl.translate` — the translator.
* `Asimdtbl.lookup` — the bytes that the instruction is for.
* `Asimdtbl.table_lookup_exact` — the emitted code writes them.

The registers of a table follow each other and go on at register 0 behind 31, which `tableReg` and
`lookup` both have.

**The fourth register.**  Its node gets the indices less 48, as bytes.  An index below 48 wraps to
one of at least 208 and is out of range there, so that each byte is found by one of the two nodes at
most, and they are put together by an or.

**Out of range.**  TBL gives zero there.  TBX keeps the byte of the destination, so its translator
compares the indices with the size of the table, and masks the old destination by that.

**The code itself.**  A lookup is a sequence of `pshufb` and saturating additions, which need
scratch registers.  The sequences overwrite their scratch while operands are still to be read, so
that they are right only if the register allocator has kept certain operands apart (`L.Apart`); that
it does is proved in `Backend.TableNodes`.
-/

set_option autoImplicit false

namespace Rustarmic

open Emitting Interp Lanes Packed VectorCode TableLookup

/-! ## The nodes -/

namespace IrEmitter

variable (em : IrEmitter)

def vecTbl (table indices : ValueRef) (q : Bool) : Emit ValueRef :=
  em.vecNode .vecTbl [table, indices] (u64OfBool q)

def vecTbl2 (table0 table1 indices : ValueRef) (q : Bool) : Emit ValueRef :=
  em.vecNode .vecTbl2 [table0, table1, indices] (u64OfBool q)

def vecTbl3 (table0 table1 table2 indices : ValueRef) (q : Bool) : Emit ValueRef :=
  em.vecNode .vecTbl3 [table0, table1, table2, indices] (u64OfBool q)

def vecSub (vn vm : ValueRef) (laneLog2 : Nat) (q : Bool) : Emit ValueRef :=
  em.vecNode (laneOp .vecSub8 .vecSub16 .vecSub32 .vecSub64 laneLog2) [vn, vm] (u64OfBool q)

def vecCmhs (vn vm : ValueRef) (laneLog2 : Nat) (q : Bool) : Emit ValueRef :=
  em.vecNode (laneOp .vecCmHs8 .vecCmHs16 .vecCmHs32 .vecCmHs64 laneLog2) [vn, vm] (u64OfBool q)

def vecExtractLo64 (q : ValueRef) : Emit ValueRef :=
  em.push ((Armlet.new .vecExtractLo64 .u64).withArgs [q])

end IrEmitter

/-! ## What the nodes do -/

namespace VectorLowering

open IrEmitter

variable (L : VectorLowering) {em : IrEmitter} {n : Nat} {f : Frame} {Q : ValueRef → Nat → Frame → Prop}
  {P : Unit → Nat → Frame → Prop}

/-- A rule for the other nodes is a rule here. -/
theorem byte_of_rule {α : Type} {p : Emit α} {r : α} {m : Nat} {f' : Frame}
    (h : ∀ R : α → Nat → Frame → Prop, p.wp L.step n f R ↔ R r m f') (R : α → Nat → Frame → Prop) :
    p.wp L.byteStep n f R ↔ R r m f' :=
  Prog.wp_rule_mono (fun _ _ _ _ => byteStep_of_step) h R

theorem halfForm_true (x : U128) : halfForm true x = x := if_pos rfl

/-- The operations that only `byteStep` knows. -/
def isByte : Op → Bool
  | .vecTbl | .vecTbl2 | .vecTbl3 | .vecCmHs8 | .vecSub8 | .vecExtractLo64 => true
  | _ => false

theorem step_byte {a : Armlet} (h : isByte a.op) : L.step n a f = none := by
  have hplain : a.step n f = none := by
    cases a with
    | mk op ty flags prev next args imm pc =>
    cases op <;> first | exact absurd h Bool.false_ne_true | rfl
  have hshift : L.shiftStep n a f = none := by
    have hnone : emitShift L.hasGfni L.locs a n = none := by
      rw [emitShift]
      split <;> first | rfl | simp_all [isByte]
    rw [shiftStep, hnone]
    simp
  have hvalue : vectorValue a (a.arg f 0).bits (a.arg f 1).bits = none := by
    rw [vectorValue]
    split <;> first | rfl | simp_all [isByte]
  rw [step, hplain, hshift, hvalue]
  rfl

/-- A node that only `byteStep` knows. -/
theorem byte_vecNode {op : Op} {args : List ValueRef} {imm : U64} {x : U128} (hop : isByte op)
    (h : ∀ a : Armlet, a.op = op → a.imm = imm → a.args = ((Armlet.new op .u128).withArgs args).args →
      L.byteStep n a f = (L.step n a f <|> some (f.define n ⟨a.ty, x⟩))) :
    (em.vecNode op args imm).wp L.byteStep n f Q ↔ Q n (n + 1) (f.define n ⟨.u128, x⟩) := by
  have hstep := h { ((Armlet.new op .u128).withArgs args).withImm imm with pc := em.currentPc } rfl rfl rfl
  rw [L.step_byte hop] at hstep
  rw [vecNode, IrEmitter.push, Prog.wp_emit, hstep]
  change (∃ f', some _ = some f' ∧ _) ↔ _
  simp only [Option.some.injEq, exists_eq_left']
  rfl

section bytes

variable {vn vm x y z : ValueRef} (q : Bool)

theorem byte_vecTbl : (em.vecTbl x y q).wp L.byteStep n f Q ↔ Q n (n + 1)
    (f.define n ⟨.u128, halfForm q (tableLanes [(f.value x).bits] (f.value y).bits)⟩) := by
  refine L.byte_vecNode rfl fun a hop himm hargs => ?_
  rw [← arg_zero hargs, ← arg_one hargs, ← qForm_eq q himm, byteStep, hop]
  rfl

theorem byte_vecTbl2 : (em.vecTbl2 x y z q).wp L.byteStep n f Q ↔ Q n (n + 1) (f.define n
    ⟨.u128, halfForm q (tableLanes [(f.value x).bits, (f.value y).bits] (f.value z).bits)⟩) := by
  refine L.byte_vecNode rfl fun a hop himm hargs => ?_
  have h2 : a.arg f 2 = f.value z := by
    rw [Armlet.arg, hargs]
    rfl
  rw [← arg_zero hargs, ← arg_one hargs, ← h2, ← qForm_eq q himm, byteStep, hop]
  rfl

theorem byte_vecTbl3 {i : ValueRef} : (em.vecTbl3 x y z i q).wp L.byteStep n f Q ↔ Q n (n + 1)
    (f.define n ⟨.u128, halfForm q
      (tableLanes [(f.value x).bits, (f.value y).bits, (f.value z).bits] (f.value i).bits)⟩) := by
  refine L.byte_vecNode rfl fun a hop himm hargs => ?_
  have h2 : a.arg f 2 = f.value z := by
    rw [Armlet.arg, hargs]
    rfl
  have h3 : a.arg f 3 = f.value i := by
    rw [Armlet.arg, hargs]
    rfl
  rw [← arg_zero hargs, ← arg_one hargs, ← h2, ← h3, ← qForm_eq q himm, byteStep, hop]
  rfl

theorem byte_vecSub : (em.vecSub x y 0 q).wp L.byteStep n f Q ↔ Q n (n + 1)
    (f.define n ⟨.u128, halfForm q (zipLanes 8 (· - ·) (f.value x).bits (f.value y).bits)⟩) := by
  refine L.byte_vecNode rfl fun a hop himm hargs => ?_
  replace hop : a.op = .vecSub8 := hop
  rw [← arg_zero hargs, ← arg_one hargs, ← qForm_eq q himm, byteStep, byteValue, hop]
  rfl

theorem byte_vecCmhs : (em.vecCmhs x y 0 q).wp L.byteStep n f Q ↔ Q n (n + 1)
    (f.define n ⟨.u128, halfForm q (geBytes (f.value x).bits (f.value y).bits)⟩) := by
  refine L.byte_vecNode rfl fun a hop himm hargs => ?_
  replace hop : a.op = .vecCmHs8 := hop
  rw [← arg_zero hargs, ← arg_one hargs, ← qForm_eq q himm, byteStep, hop]
  rfl

theorem byte_vecExtractLo64 : (em.vecExtractLo64 x).wp L.byteStep n f Q ↔ Q n (n + 1)
    (f.define n (.ofU64 .u64 (f.value x).lo64)) := by
  rw [vecExtractLo64, IrEmitter.push, Prog.wp_emit, byteStep, L.step_byte rfl]
  change (∃ f', some _ = some f' ∧ _) ↔ _
  simp only [Option.some.injEq, exists_eq_left']
  rfl

theorem byte_constU32 (v : U32) : (em.constU32 v).wp L.byteStep n f Q ↔
    Q n (n + 1) (f.define n (.ofU32 .u32 v)) :=
  L.byte_of_rule (fun _ => L.wp_of_rule (fun _ => em.wp_constU32 v) _) Q

theorem byte_getVQ (reg : U8) : (em.getVQ reg).wp L.byteStep n f Q ↔
    Q n (n + 1) (f.define n ⟨.u128, f.machine.v reg.toNat⟩) :=
  L.byte_of_rule (fun _ => L.wp_getVQ reg) Q

theorem byte_vecAnd : (em.vecAnd vn vm q).wp L.byteStep n f Q ↔
    Q n (n + 1) (f.define n ⟨.u128, halfForm q ((f.value vn).bits &&& (f.value vm).bits)⟩) :=
  L.byte_of_rule (fun _ => L.wp_vecAnd q) Q

theorem byte_vecOrr : (em.vecOrr vn vm q).wp L.byteStep n f Q ↔
    Q n (n + 1) (f.define n ⟨.u128, halfForm q ((f.value vn).bits ||| (f.value vm).bits)⟩) :=
  L.byte_of_rule (fun _ => L.wp_vecOrr q) Q

theorem byte_vecDupGpr : (em.vecDupGpr vn 0 q).wp L.byteStep n f Q ↔
    Q n (n + 1) (f.define n
      ⟨.u128, halfForm q (ofLanes 128 8 fun _ => (f.value vn).bits.setWidth 8)⟩) :=
  L.byte_of_rule (fun _ => L.wp_vecDupGpr q (by decide)) Q

end bytes

end VectorLowering

/-! ## The translator -/

inductive Asimdtbl where
  | tblVdLVnVm (i : U32)
  | tbxVdLVnVm (i : U32)

namespace Asimdtbl

def raw : Asimdtbl → U32
  | tblVdLVnVm i | tbxVdLVnVm i => i

def tbx : Asimdtbl → Bool
  | tblVdLVnVm _ => false
  | tbxVdLVnVm _ => true

variable (em : IrEmitter)

/-- Register `k` of the table. -/
def tableReg (raw : U32) (k : U8) : U8 := (regField raw 5 + k) &&& 31#8

/-- The fourth register: indices 48 to 63, and everything else, also what wraps below 48, is out of
its range. -/
def lookUpFourth (raw : U32) (first indices : ValueRef) : Emit ValueRef :=
  if bits raw 13 2 = 2 then pure first
  else do
    let t3 ← em.getVQ (tableReg raw 3)
    let c48 ← em.constU32 48
    let v48 ← em.vecDupGpr c48 0 true
    let rebased ← em.vecSub indices v48 0 true
    let fourth ← em.vecTbl t3 rebased true
    em.vecOrr first fourth true

def lookUp (raw : U32) (t0 indices : ValueRef) : Emit ValueRef :=
  match bits raw 13 2 with
  | 0 => em.vecTbl t0 indices true
  | 1 => do
    let t1 ← em.getVQ (tableReg raw 1)
    em.vecTbl2 t0 t1 indices true
  | _ => do
    let t1 ← em.getVQ (tableReg raw 1)
    let t2 ← em.getVQ (tableReg raw 2)
    let first ← em.vecTbl3 t0 t1 t2 indices true
    lookUpFourth em raw first indices

/-- TBX keeps the destination byte for an index that is out of range. -/
def keepOld (tbx : Bool) (raw : U32) (lookedUp indices : ValueRef) : Emit ValueRef :=
  if tbx then do
    let limit ← em.constU32 (BitVec.ofNat 32 (16 * (bits raw 13 2 + 1)))
    let vlimit ← em.vecDupGpr limit 0 true
    let outOfRange ← em.vecCmhs indices vlimit 0 true
    let old ← em.getVQ (regField raw 0)
    let kept ← em.vecAnd old outOfRange true
    em.vecOrr lookedUp kept true
  else pure lookedUp

def writeForm (raw : U32) (result : ValueRef) : Emit InstStatus :=
  if bit raw 30 = 1 then do
    em.setVQ (regField raw 0) result
    return .continues
  else do
    let lo ← em.vecExtractLo64 result
    em.setVD (regField raw 0) lo
    return .continues

def translate (insn : Asimdtbl) : Emit InstStatus := do
  let raw := insn.raw
  let t0 ← em.getVQ (regField raw 5)
  let indices ← em.getVQ (regField raw 16)
  let lookedUp ← lookUp em raw t0 indices
  let result ← keepOld em insn.tbx raw lookedUp indices
  writeForm em raw result

/-! ## What it is for -/

/-- The destination: every active byte is the byte of the table at its index, or else zero, or the
byte that was there. -/
def lookup (insn : Asimdtbl) (m : Machine) : U128 :=
  let n := bits insn.raw 13 2 + 1
  ofLanes 128 8 (upTo (if bit insn.raw 30 = 1 then 16 else 8) fun k =>
    let idx := (lane 8 (m.v (bits insn.raw 16 5)) k).toNat
    if idx < 16 * n then lane 8 (m.v ((bits insn.raw 5 5 + idx / 16) % 32)) (idx % 16)
    else if insn.tbx then lane 8 (m.v (bits insn.raw 0 5)) k else 0)

/-! ## The code does it -/

section exact

open IrEmitter

/-- The registers of the table. -/
def tables (raw : U32) (m : Machine) : List U128 :=
  (List.range (bits raw 13 2 + 1)).map fun k => m.v ((bits raw 5 5 + k) % 32)

theorem toNat_tableReg (raw : U32) {k : Nat} (hk : k < 4) :
    (tableReg raw (BitVec.ofNat 8 k)).toNat = (bits raw 5 5 + k) % 32 := by
  have hlt := bits_lt raw 5 (by decide : 5 < 32)
  rw [tableReg, BitVec.toNat_and, BitVec.toNat_add, toNat_regField, BitVec.toNat_ofNat,
    Nat.mod_eq_of_lt (by omega : k < 2 ^ 8), Nat.mod_eq_of_lt (by omega)]
  exact Nat.and_two_pow_sub_one_eq_mod _ 5

variable (em : IrEmitter) (L : VectorLowering) (raw : U32) {n : Nat} {f : Frame} {x : U128}

theorem computes_tableReg {k : Nat} (hk : k < 4) :
    Computes L.byteStep (em.getVQ (tableReg raw (BitVec.ofNat 8 k))) n f
      (· = ⟨.u128, f.machine.v ((bits raw 5 5 + k) % 32)⟩) := by
  rw [← toNat_tableReg raw hk]
  exact computes_of_rule fun _ => L.byte_getVQ _

/-- An index moved down by 48 is in range if it was between 48 and 63. -/
theorem tableLanes_rebased (t : U128) :
    tableLanes [t] (zipLanes 8 (· - ·) x (ofLanes 128 8 fun _ => 48#8)) = chunkLanes 48 t x := by
  refine ext_lane (w := 8) (by decide) fun k hk => ?_
  rw [tableLanes, chunkLanes, lane_ofLanes _ (by omega), lane_ofLanes _ (by omega),
    lane_zipLanes _ (by omega), lane_ofLanes _ (by omega)]
  dsimp only
  have hlt := (lane 8 x k).isLt
  rw [BitVec.toNat_sub]
  generalize (lane 8 x k).toNat = i at hlt ⊢
  simp only [List.length_singleton, Nat.mul_one, BitVec.toNat_ofNat]
  by_cases h : 48 ≤ i ∧ i < 48 + 16
  · rw [if_pos (by omega), if_pos h, Nat.div_eq_of_lt (by omega),
      (by omega : (2 ^ 8 - 48 % 2 ^ 8 + i) % 2 ^ 8 % 16 = i - 48)]
    rfl
  · rw [if_neg (by omega), if_neg h]

theorem computes_lookUpFourth {first indices : Nat} (hi : indices < n) (hfirst : first < n)
    (hx : f.value indices = ⟨.u128, x⟩) {l : List U128} (hl : l.length = 3)
    (h1 : f.value first = ⟨.u128, tableLanes l x⟩) :
    Computes L.byteStep (lookUpFourth em raw first indices) n f (· = ⟨.u128, tableLanes
      (if bits raw 13 2 = 2 then l else l ++ [f.machine.v ((bits raw 5 5 + 3) % 32)]) x⟩) := by
  rw [lookUpFourth]
  split_ifs with h
  · exact computes_pure hfirst h1
  · refine computes_bind (computes_tableReg em L raw (by decide : 3 < 4)) fun t3 n1 f1 hn1 ht3 hk1 h3 => ?_
    refine computes_bind (computes_of_rule fun _ => L.byte_constU32 _)
      fun c48 n2 f2 hn2 hc48 hk2 hv48 => ?_
    refine computes_bind (computes_of_rule fun _ => L.byte_vecDupGpr true)
      fun v48 n3 f3 hn3 hv48' hk3 hdup => ?_
    refine computes_bind (computes_of_rule fun _ => L.byte_vecSub true)
      fun rebased n4 f4 hn4 hrebased hk4 hsub => ?_
    refine computes_bind (computes_of_rule fun _ => L.byte_vecTbl true)
      fun fourth n5 f5 hn5 hfourth hk5 htbl => ?_
    have hor : Computes L.byteStep (em.vecOrr first fourth true) n5 f5 (· = _) :=
      computes_of_rule fun _ => L.byte_vecOrr true
    rw [hk5.value _ (by omega), hk4.value _ (by omega), hk3.value _ (by omega), hk2.value _ (by omega),
      hk1.value _ hfirst, h1, htbl, hk4.value _ (by omega), hk3.value _ (by omega),
      hk2.value _ (by omega), h3, hsub, hdup, hk3.value _ (by omega), hk2.value _ (by omega),
      hk1.value _ hi, hx, hv48] at hor
    have h48 : (Value.ofU32 .u32 (48 : U32)).bits.setWidth 8 = 48#8 := by decide
    simp only [VectorLowering.halfForm_true, h48, tableLanes_rebased] at hor
    rw [← tableLanes_append, hl]
    exact hor

theorem computes_lookUp {t0 indices : Nat} (ht : t0 < n) (hi : indices < n)
    (h0 : f.value t0 = ⟨.u128, f.machine.v (bits raw 5 5)⟩) (hx : f.value indices = ⟨.u128, x⟩) :
    Computes L.byteStep (lookUp em raw t0 indices) n f
      (· = ⟨.u128, tableLanes (tables raw f.machine) x⟩) := by
  have hreg : bits raw 5 5 < 32 := bits_lt raw 5 (by decide : 5 < 32)
  have hlen : bits raw 13 2 < 4 := bits_lt raw 13 (by decide : 2 < 32)
  have h0' : f.machine.v (bits raw 5 5) = f.machine.v ((bits raw 5 5 + 0) % 32) := by
    rw [Nat.add_zero, Nat.mod_eq_of_lt hreg]
  rw [h0'] at h0
  obtain h | h | h : bits raw 13 2 = 0 ∨ bits raw 13 2 = 1 ∨ 2 ≤ bits raw 13 2 := by omega
  · rw [lookUp, tables, h]
    have hrule : Computes L.byteStep (em.vecTbl t0 indices true) n f (· = _) :=
      computes_of_rule fun _ => L.byte_vecTbl true
    rw [h0, hx] at hrule
    exact hrule
  · rw [lookUp, tables, h]
    refine computes_bind (computes_tableReg em L raw (by decide : 1 < 4)) fun t1 n1 f1 hn1 ht1 hk1 h1 => ?_
    have hrule : Computes L.byteStep (em.vecTbl2 t0 t1 indices true) n1 f1 (· = _) :=
      computes_of_rule fun _ => L.byte_vecTbl2 true
    rw [h1, hk1.value _ ht, hk1.value _ hi, h0, hx] at hrule
    exact hrule
  · rw [lookUp]
    split
    · omega
    · omega
    · refine computes_bind (computes_tableReg em L raw (by decide : 1 < 4)) fun t1 n1 f1 hn1 ht1 hk1 h1 => ?_
      refine computes_bind (computes_tableReg em L raw (by decide : 2 < 4)) fun t2 n2 f2 hn2 ht2 hk2 h2 => ?_
      refine computes_bind (computes_of_rule fun _ => L.byte_vecTbl3 true)
        fun first n3 f3 hn3 hfirst hk3 h3 => ?_
      rw [hk2.value _ (by omega), hk1.value _ ht, h0, hk2.value _ ht1, h1, h2, hk2.value _ (by omega),
        hk1.value _ hi, hx] at h3
      have hfourth := computes_lookUpFourth em L raw (by omega) hfirst
        ((hk3.value _ (by omega)).trans ((hk2.value _ (by omega)).trans ((hk1.value _ hi).trans hx)))
        rfl h3
      rw [hk3.machine, hk2.machine, hk1.machine] at hfourth
      have htables : tables raw f.machine =
          if bits raw 13 2 = 2 then [f.machine.v ((bits raw 5 5 + 0) % 32),
            f.machine.v ((bits raw 5 5 + 1) % 32), f.machine.v ((bits raw 5 5 + 2) % 32)]
          else [f.machine.v ((bits raw 5 5 + 0) % 32), f.machine.v ((bits raw 5 5 + 1) % 32),
            f.machine.v ((bits raw 5 5 + 2) % 32)] ++ [f.machine.v ((bits raw 5 5 + 3) % 32)] := by
        rw [tables]
        split_ifs with h2
        · rw [h2]
          rfl
        · rw [(by omega : bits raw 13 2 = 3)]
          rfl
      rw [htables]
      exact hfourth

/-- Whether the byte of an index is not in the table. -/
theorem lane_outOfRange {k : Nat} (hk : k < 16) :
    lane 8 (geBytes x (ofLanes 128 8 fun _ =>
      (Value.ofU32 .u32 (BitVec.ofNat 32 (16 * (bits raw 13 2 + 1)))).bits.setWidth 8)) k =
      fill 8 (decide (16 * (bits raw 13 2 + 1) ≤ (lane 8 x k).toNat)) := by
  have hlen : bits raw 13 2 < 4 := bits_lt raw 13 (by decide : 2 < 32)
  have hlimit : ((Value.ofU32 .u32 (BitVec.ofNat 32 (16 * (bits raw 13 2 + 1)))).bits.setWidth 8).toNat =
      16 * (bits raw 13 2 + 1) := by
    exact (by decide : ∀ len < 4,
      ((Value.ofU32 .u32 (BitVec.ofNat 32 (16 * (len + 1)))).bits.setWidth 8).toNat =
        16 * (len + 1)) _ hlen
  rw [geBytes, lane_zipLanes _ (by omega), lane_ofLanes _ (by omega), hlimit]

/-- The bytes that are looked up or kept. -/
def lookedUp (insn : Asimdtbl) (m : Machine) : U128 :=
  let x := tableLanes (tables insn.raw m) (m.v (bits insn.raw 16 5))
  if insn.tbx then
    x ||| (m.v (bits insn.raw 0 5) &&& geBytes (m.v (bits insn.raw 16 5)) (ofLanes 128 8 fun _ =>
      (Value.ofU32 .u32 (BitVec.ofNat 32 (16 * (bits insn.raw 13 2 + 1)))).bits.setWidth 8))
  else x

theorem computes_keepOld (tbx : Bool) {looked indices : Nat} {y : U128} (hlooked : looked < n)
    (hi : indices < n) (hy : f.value looked = ⟨.u128, y⟩) (hx : f.value indices = ⟨.u128, x⟩) :
    Computes L.byteStep (keepOld em tbx raw looked indices) n f (· = ⟨.u128, if tbx then
      y ||| (f.machine.v (bits raw 0 5) &&& geBytes x (ofLanes 128 8 fun _ =>
        (Value.ofU32 .u32 (BitVec.ofNat 32 (16 * (bits raw 13 2 + 1)))).bits.setWidth 8))
      else y⟩) := by
  rw [keepOld]
  split_ifs
  · refine computes_bind (computes_of_rule fun _ => L.byte_constU32 _)
      fun limit n1 f1 hn1 hlimit hk1 h1 => ?_
    refine computes_bind (computes_of_rule fun _ => L.byte_vecDupGpr true)
      fun vlimit n2 f2 hn2 hvlimit hk2 h2 => ?_
    refine computes_bind (computes_of_rule fun _ => L.byte_vecCmhs true)
      fun outOfRange n3 f3 hn3 hrange hk3 h3 => ?_
    refine computes_bind (computes_of_rule fun _ => L.byte_getVQ _) fun old n4 f4 hn4 hold hk4 h4 => ?_
    refine computes_bind (computes_of_rule fun _ => L.byte_vecAnd true)
      fun kept n5 f5 hn5 hkept hk5 h5 => ?_
    have hor : Computes L.byteStep (em.vecOrr looked kept true) n5 f5 (· = _) :=
      computes_of_rule fun _ => L.byte_vecOrr true
    rw [hk5.value _ (by omega), hk4.value _ (by omega), hk3.value _ (by omega), hk2.value _ (by omega),
      hk1.value _ hlooked, hy, h5, h4, hk4.value _ hrange, h3, h2, hk2.value _ (by omega),
      hk1.value _ hi, hx, h1, hk3.machine, hk2.machine, hk1.machine, toNat_regField] at hor
    simp only [VectorLowering.halfForm_true] at hor
    exact hor
  · exact computes_pure hlooked hy

theorem wp_writeForm {result : Nat} {y : U128} (hy : f.value result = ⟨.u128, y⟩) :
    (writeForm em raw result).wp L.byteStep n f fun st _ f' => st = .continues ∧
      f'.machine = f.machine.writeV (bits raw 0 5)
        (halfForm (bit raw 30 == 1) y) := by
  rw [writeForm, halfForm, beq_eq_decide]
  simp only [decide_eq_true_eq]
  split_ifs
  · rw [Prog.wp_bind, L.byte_of_rule fun _ => L.wp_setVQ _ hy, Prog.wp_pure, toNat_regField]
    exact ⟨rfl, rfl⟩
  · refine wp_bind_computes (computes_of_rule fun _ => L.byte_vecExtractLo64)
      fun lo n1 f1 hn1 hlo hk1 h1 => ?_
    rw [hy] at h1
    rw [Prog.wp_bind, L.byte_of_rule fun _ => L.wp_setVD _ h1, Prog.wp_pure, toNat_regField, hk1.machine]
    exact ⟨rfl, rfl⟩

theorem wp_translate (insn : Asimdtbl) : (insn.translate em).wp L.byteStep n f fun st _ f' =>
    st = .continues ∧ f'.machine = f.machine.writeV (bits insn.raw 0 5)
      (halfForm (bit insn.raw 30 == 1) (insn.lookedUp f.machine)) := by
  rw [translate]
  refine wp_bind_computes (computes_of_rule fun _ => L.byte_getVQ _) fun t0 n1 f1 hn1 ht0 hk1 h0 => ?_
  refine wp_bind_computes (computes_of_rule fun _ => L.byte_getVQ _)
    fun indices n2 f2 hn2 hi hk2 hx => ?_
  rw [toNat_regField] at h0 hx
  have h0' : f2.value t0 = ⟨.u128, f2.machine.v (bits insn.raw 5 5)⟩ := by
    rw [hk2.value _ ht0, h0, hk2.machine, hk1.machine]
  refine wp_bind_computes (computes_lookUp em L insn.raw (by omega) hi h0' hx)
    fun looked n3 f3 hn3 hlooked hk3 h3 => ?_
  refine wp_bind_computes (computes_keepOld em L insn.raw insn.tbx hlooked (by omega) h3
    ((hk3.value _ hi).trans hx)) fun result n4 f4 hn4 hresult hk4 h4 => ?_
  refine Prog.wp_mono (wp_writeForm em L insn.raw h4) ?_
  rintro st n5 f5 ⟨hst, hm⟩
  refine ⟨hst, ?_⟩
  rw [hm, hk4.machine, hk3.machine, hk2.machine, hk1.machine]
  rfl

/-- The bytes are those of the lookup. -/
theorem lane_lookedUp (insn : Asimdtbl) (m : Machine) {k : Nat} (hk : k < 16) :
    lane 8 (insn.lookedUp m) k =
      let idx := (lane 8 (m.v (bits insn.raw 16 5)) k).toNat
      if idx < 16 * (bits insn.raw 13 2 + 1) then
        lane 8 (m.v ((bits insn.raw 5 5 + idx / 16) % 32)) (idx % 16)
      else if insn.tbx then lane 8 (m.v (bits insn.raw 0 5)) k else 0 := by
  have htable : lane 8 (tableLanes (tables insn.raw m) (m.v (bits insn.raw 16 5))) k =
      let idx := (lane 8 (m.v (bits insn.raw 16 5)) k).toNat
      if idx < 16 * (bits insn.raw 13 2 + 1) then
        lane 8 (m.v ((bits insn.raw 5 5 + idx / 16) % 32)) (idx % 16) else 0 := by
    rw [tableLanes, lane_ofLanes _ (by omega)]
    dsimp only
    rw [show (tables insn.raw m).length = bits insn.raw 13 2 + 1 by simp [tables]]
    split_ifs with h
    · rw [tables, List.getD_eq_getElem _ _ (by simp; omega), List.getElem_map, List.getElem_range]
    · rfl
  rw [lookedUp]
  dsimp only at htable ⊢
  split_ifs with htbx hidx hidx
  · rw [lane_or, lane_and, htable, lane_outOfRange _ hk, and_fill, if_pos hidx,
      decide_eq_false (by omega), if_neg Bool.false_ne_true]
    exact BitVec.or_zero
  · rw [lane_or, lane_and, htable, lane_outOfRange _ hk, and_fill, if_neg hidx,
      decide_eq_true (not_lt.mp hidx), if_pos rfl]
    exact BitVec.zero_or
  · rw [htable, if_pos hidx]
  · rw [htable, if_neg hidx]

theorem halfForm_lookedUp (insn : Asimdtbl) (m : Machine) :
    halfForm (bit insn.raw 30 == 1) (insn.lookedUp m) = insn.lookup m := by
  rw [halfForm_row (by decide) (by decide) fun k hk =>
    lane_lookedUp insn m (by have := activeLanes_le (by decide) (by decide) hk; omega), lookup]
  congr 2
  simp only [activeLanes, Bool.false_eq_true, if_false, beq_iff_eq]
  split_ifs <;> rfl

/-- **The emitted code looks every byte up.** -/
theorem table_lookup_exact (insn : Asimdtbl) (n : Nat) (f : Frame)
    (hapart : ∀ i a, ((insn.translate em).nodes n)[i]? = some a → L.Apart (n + i) a) :
    (insn.translate em).wp L.tableStep n f fun st _ f' => st = .continues ∧
      f'.machine = f.machine.writeV (bits insn.raw 0 5) (insn.lookup f.machine) := by
  rw [← halfForm_lookedUp]
  exact (Prog.wp_congr_step fun i a ha s => VectorLowering.tableStep_eq (hapart i a ha) s).mpr
    (wp_translate em L insn)

/-- TBX of two registers, the second one being register 0, into the indices. -/
theorem table_lookup_exact_wrapped :
    ((tbxVdLVnVm 0x4E0333E3#32).translate ⟨0⟩).wp
      (VectorLowering.mk false (fun i => .spill (16 * i)) (fun _ => 0)
        fun i => ⟨.frame (16 * i), rfl, nofun⟩).tableStep 0
      ⟨⟨fun _ => 0, 0, 0, fun r => BitVec.ofNat 128 (7 * r), fun _ => 0, []⟩, fun _ => ⟨.void, 0⟩⟩
      fun st _ f' => st = .continues ∧ f'.machine =
        (⟨fun _ => 0, 0, 0, fun r => BitVec.ofNat 128 (7 * r), fun _ => 0, []⟩ : Machine).writeV 3
          ((tbxVdLVnVm 0x4E0333E3#32).lookup
            ⟨fun _ => 0, 0, 0, fun r => BitVec.ofNat 128 (7 * r), fun _ => 0, []⟩) :=
  table_lookup_exact ⟨0⟩ _ (tbxVdLVnVm 0x4E0333E3#32) 0
    ⟨⟨fun _ => 0, 0, 0, fun r => BitVec.ofNat 128 (7 * r), fun _ => 0, []⟩, fun _ => ⟨.void, 0⟩⟩
    fun i a ha => by
      have hi : i < 11 := (List.getElem?_eq_some_iff.mp ha).1
      interval_cases i <;> cases ha <;> exact ⟨by decide, by decide⟩

end exact

end Asimdtbl

end Rustarmic
