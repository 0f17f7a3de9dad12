import Rustarmic.Optimizer.ByteMaps
import Rustarmic.Optimizer.PassLinks

/-!
# Affine maps preserve values

`vectorValue` is the value of a vector node, lane by lane, in terms of the values of its arguments.

* `recognize_exact`: a recognized map, applied to its source, is the value of the node.
* `compose_exact`: a composition is one map after the other, also in the upper half.
* `vectorConstant_exact`: a constant vector is the value of its node.
* `visitAffine_exact`: the operation put in place of a node has the node's value.

The pass carries tables from node to node: the constant a scalar holds, the two halves of a constant
vector, and the map a node is.  `Facts` says of all values that the tables are right about them, and
the walk keeps it.  The values themselves are arbitrary; nothing is run here, and the connection to
running a block is by the values its nodes have.

**The two halves.**  A node of 64 bits clears the upper half of its register (`keepWidth`), and one
of 128 bits maps it as well.  A map carries which it is.  Composing two of them is allowed only if
the upper half comes out right, and this is where a careless rule would fail: an addend is not zero
on a cleared half.

**What is replaced.**  A node keeps its place and its value, so that its uses need no change.  A
constant is put in front of it for the matrix, and values are extended there (`Values.withConst`),
which leaves the facts about the old ones alone.
-/

set_option autoImplicit false

namespace Rustarmic

namespace Optimizer

open Lanes

/-! ## Values of vector nodes -/

/-- What every node computes, as a vector register holds it; a scalar is in the low bits. -/
abbrev Values := ValueRef → U128

/-- `movq reg, reg`, which ends a 64-bit operation: the upper half becomes zero. -/
def keepWidth (q : Bool) (x : U128) : U128 := if q then x else (x.setWidth 64).setWidth 128

/-- A byte shifted by a signed count: left when it is positive, right when it is negative. -/
def variableShift (signed : Bool) (x count : U8) : U8 :=
  if 0 ≤ count.toInt then if count.toInt < 8 then x <<< count.toInt.toNat else 0
  else if signed then x.sshiftRight (min count.toInt.natAbs 7)
  else if count.toInt.natAbs < 8 then x >>> count.toInt.natAbs else 0

/-- The value of a node that computes on bytes of vectors, `none` for other nodes. -/
def vectorValue (b : Block) (val : Values) (a : Armlet) : Option U128 :=
  let q := a.imm &&& 1 != 0
  let shift := (a.imm >>> 1).toNat
  let x := val (a.args.get 0)
  let y := val (a.args.get 1)
  let bytes (f : U8 → U8 → U8) : Option U128 :=
    some (keepWidth q (ofLanes 128 8 fun k => f (lane 8 x k) (lane 8 y k)))
  match a.op with
  | .identity => if a.ty = .u128 then some x else none
  | .vecBuildQ => some (y.setWidth 64 ++ x.setWidth 64)
  | .vecDupGpr8 => some (keepWidth q (ofLanes 128 8 fun _ => x.setWidth 8))
  | .vecBitAffine => (b.code[a.args.get 1]?).bind fun literal =>
    if literal.op = .constU64 then bytes fun c _ => gf2p8affineqb literal.imm (byteAt a.imm 1) c
    else none
  | .vecNot => some (keepWidth q (~~~x))
  | .vecShlImm8 => bytes fun c _ => c <<< shift
  | .vecUshrImm8 => bytes fun c _ => c >>> shift
  | .vecSshrImm8 => bytes fun c _ => c.sshiftRight shift
  | .vecAdd8 => bytes fun c d => c + d
  | .vecMul8 => bytes fun c d => c * d
  | .vecUshl8 => bytes (variableShift false)
  | .vecSshl8 => bytes (variableShift true)
  | .vecAnd => some (keepWidth q (x &&& y))
  | .vecOrr => some (keepWidth q (x ||| y))
  | .vecEor => some (keepWidth q (x ^^^ y))
  | .vecBic => some (keepWidth q (x &&& ~~~y))
  | .vecOrn => some (keepWidth q (x ||| ~~~y))
  | _ => none

/-- The map on a whole vector: on every byte of the low half, and of the high half when `q`, which
is zero otherwise. -/
def ByteMap.apply (map : ByteMap) (x : U128) : U128 :=
  ofLanes 128 8 fun k =>
    if k < 8 ∨ map.q then gf2p8affineqb map.matrix map.addend (lane 8 x k) else 0

/-- The facts the pass has collected are true of the values. -/
structure Facts (b : Block) (consts : Consts) (vectors : Vectors) (val : Values) : Prop where
  /-- A literal is what it says. -/
  literal : ∀ v node c, b.code[v]? = some node → node.op = .constU64 → consts v = some c →
    node.imm = c
  /-- A constant of 64 bits is the low half of the register. -/
  word : ∀ v node c, b.code[v]? = some node → node.ty = .u64 → consts v = some c →
    (val v).setWidth 64 = c
  /-- Of one of 32 bits, the rest of the register is arbitrary. -/
  half : ∀ v node c, b.code[v]? = some node → node.ty = .u32 → consts v = some c →
    (val v).setWidth 32 = c.setWidth 32
  vector : ∀ v lo hi, vectors v = some (lo, hi) → val v = hi ++ lo

variable {b : Block} {consts : Consts} {vectors : Vectors} {val : Values} {a : Armlet}
  {map : ByteMap} {q : Bool}

/-! ## Bytes of vectors -/

theorem lane_keepWidth (q : Bool) (x : U128) {k : Nat} (hk : k < 16) :
    lane 8 (keepWidth q x) k = if k < 8 ∨ q then lane 8 x k else 0 := by
  refine BitVec.eq_of_getLsbD_eq fun i hi => ?_
  rw [getLsbD_lane, decide_eq_true hi, Bool.true_and, keepWidth]
  cases q
  · rw [if_neg Bool.false_ne_true, BitVec.getLsbD_setWidth, BitVec.getLsbD_setWidth]
    by_cases hlow : k < 8
    · rw [if_pos (Or.inl hlow), getLsbD_lane, decide_eq_true hi,
        decide_eq_true (by omega : 8 * k + i < 64), decide_eq_true (by omega : 8 * k + i < 128)]
      simp only [Bool.true_and]
    · rw [if_neg (by simp [hlow]), decide_eq_false (by omega : ¬ 8 * k + i < 64)]
      simp
  · rw [if_pos rfl, if_pos (Or.inr rfl), getLsbD_lane, decide_eq_true hi, Bool.true_and]

theorem lane_apply (map : ByteMap) (x : U128) {k : Nat} (hk : k < 16) :
    lane 8 (map.apply x) k =
      if k < 8 ∨ map.q then gf2p8affineqb map.matrix map.addend (lane 8 x k) else 0 := by
  rw [ByteMap.apply, lane_ofLanes _ (by omega)]

/-- A vector of the node's width is a map when every byte of that width is. -/
theorem keepWidth_eq_apply {v x : U128}
    (h : ∀ k < 16, k < 8 ∨ map.q →
      lane 8 v k = linear map.matrix (lane 8 x k) ^^^ map.addend) :
    keepWidth map.q v = map.apply x := by
  refine ext_lane (by decide : 0 < 8) fun k hk => ?_
  have hk' : k < 16 := by omega
  rw [lane_keepWidth _ _ hk', lane_apply _ _ hk']
  by_cases hin : k < 8 ∨ map.q
  · rw [if_pos hin, if_pos hin, h k hk' hin, gf2p8affineqb_eq]
  · rw [if_neg hin, if_neg hin]

/-! ## Uniform operands -/

theorem uniformByte_eq_some {v : ValueRef} {c : U8} (hu : uniformByte v q vectors = some c) :
    ∃ hi, vectors v = some (repeatByte c, hi) ∧ (q → hi = repeatByte c) := by
  rw [uniformByte] at hu
  obtain ⟨⟨lo, hi⟩, hv, hcond⟩ := Option.bind_eq_some_iff.mp hu
  rw [Option.ite_none_right_eq_some] at hcond
  obtain ⟨⟨hlo, hhi⟩, hc⟩ := hcond
  obtain rfl := Option.some.inj hc
  refine ⟨hi, ?_, fun hq => ?_⟩
  · rw [hv]
    exact congrArg some (Prod.ext hlo rfl)
  · rcases hhi with hnq | hhi
    · exact absurd hq hnq
    · exact hhi

/-- Every byte of a uniform operand, as far as the node looks at it. -/
theorem Facts.uniform_lane (h : Facts b consts vectors val) {v : ValueRef} {c : U8}
    (hu : uniformByte v q vectors = some c) {k : Nat} (hk : k < 16) (hin : k < 8 ∨ q) :
    lane 8 (val v) k = c := by
  obtain ⟨hi, hv, hhi⟩ := uniformByte_eq_some hu
  rw [h.vector v _ _ hv, lane_halves _ _ hk]
  by_cases hlow : k < 8
  · rw [if_pos hlow, byteAt_repeatByte c hlow]
  · rw [if_neg hlow, hhi (hin.resolve_left hlow), byteAt_repeatByte c (by omega)]

theorem uniformOperand_cases {c : U8} {source : ValueRef}
    (hu : uniformOperand a q vectors = some (c, source)) :
    (source = a.args.get 0 ∧ uniformByte (a.args.get 1) q vectors = some c) ∨
      (source = a.args.get 1 ∧ uniformByte (a.args.get 0) q vectors = some c) := by
  rw [uniformOperand] at hu
  cases h1 : uniformByte (a.args.get 1) q vectors with
  | some d =>
    simp only [h1] at hu
    obtain ⟨rfl, rfl⟩ := Prod.mk.inj (Option.some.inj hu)
    exact Or.inl ⟨rfl, rfl⟩
  | none =>
    simp only [h1] at hu
    obtain ⟨d, h0, heq⟩ := Option.map_eq_some_iff.mp hu
    obtain ⟨rfl, rfl⟩ := Prod.mk.inj heq
    exact Or.inr ⟨rfl, h0⟩

/-- A commutative operation with a uniform operand on either side. -/
theorem Facts.uniformOperand_lane (h : Facts b consts vectors val) {c : U8} {source : ValueRef}
    (hu : uniformOperand a q vectors = some (c, source)) {f : U8 → U8 → U8}
    (hcomm : ∀ x y, f x y = f y x) {k : Nat} (hk : k < 16) (hin : k < 8 ∨ q) :
    f (lane 8 (val (a.args.get 0)) k) (lane 8 (val (a.args.get 1)) k) =
      f (lane 8 (val source) k) c := by
  rcases uniformOperand_cases hu with ⟨rfl, h1⟩ | ⟨rfl, h0⟩
  · rw [h.uniform_lane h1 hk hin]
  · rw [h.uniform_lane h0 hk hin, hcomm]

/-! ## Recognition -/

/-- Multiplying by a power of two is a shift. -/
theorem mul_powerOfTwo {c : U8} (hc : isPowerOfTwo c) (x : U8) :
    x * c = x <<< trailingZeros c := by
  obtain ⟨k, hk, rfl⟩ := (isPowerOfTwo_iff c).mp hc
  rw [trailingZeros_bit k hk, BitVec.shiftLeft_eq_mul_twoPow x, BitVec.twoPow]

theorem add_self (x : U8) : x + x = x <<< 1 := by
  rw [BitVec.shiftLeft_eq_mul_twoPow]
  bv_omega

theorem linear_shiftRow (signed : Bool) (count x : U8) :
    linear (matrix (shiftRow signed count.toInt)) x = variableShift signed x count := by
  rw [variableShift]
  by_cases hpos : 0 ≤ count.toInt
  · by_cases hlt : count.toInt < 8
    · have hrow : shiftRow signed count.toInt = leftRow count.toInt.toNat := by
        funext bit
        rw [shiftRow, if_pos hpos, if_pos hlt]
      rw [hrow, linear_leftRow, if_pos hpos, if_pos hlt]
    · rw [if_pos hpos, if_neg hlt]
      refine linear_matrix fun i hi => ?_
      rw [shiftRow, if_pos hpos, if_neg hlt]
      exact (parity_and_zero x).trans BitVec.getLsbD_zero.symm
  · rw [if_neg hpos]
    cases signed
    · have hrow : shiftRow false count.toInt = rightRow count.toInt.natAbs := by
        funext bit
        rw [shiftRow, if_neg hpos]
        rfl
      rw [hrow, linear_rightRow, if_neg Bool.false_ne_true]
      by_cases hlt : count.toInt.natAbs < 8
      · rw [if_pos hlt]
      · rw [if_neg hlt]
        exact BitVec.ushiftRight_eq_zero (by omega)
    · have hrow : shiftRow true count.toInt = signedRow count.toInt.natAbs := by
        funext bit
        rw [shiftRow, if_neg hpos]
        rfl
      rw [hrow, linear_signedRow, if_pos rfl]
      refine BitVec.eq_of_getLsbD_eq fun i hi => ?_
      rw [BitVec.getLsbD_sshiftRight, BitVec.getLsbD_sshiftRight, BitVec.msb_eq_getLsbD_last]
      by_cases hin : count.toInt.natAbs + i < 8
      · rw [Nat.min_eq_left (by omega)]
      · rw [if_neg hin]
        by_cases hmin : count.toInt.natAbs ≤ 7
        · rw [Nat.min_eq_left hmin, if_neg hin]
        · rw [Nat.min_eq_right (by omega)]
          split
          · rw [(by omega : 7 + i = 8 - 1)]
          · rfl

/-- A node with a uniform operand on either side, whose operation is a map for that operand. -/
theorem Facts.operand_exact (h : Facts b consts vectors val) (f : U8 → U8 → U8) {c : U8}
    (hu : uniformOperand a map.q vectors = some (c, map.source)) (hcomm : ∀ x y, f x y = f y x)
    (hf : ∀ x, f x c = linear map.matrix x ^^^ map.addend) {v : U128}
    (hv : ∀ k < 16, lane 8 v k = f (lane 8 (val (a.args.get 0)) k) (lane 8 (val (a.args.get 1)) k)) :
    keepWidth map.q v = map.apply (val map.source) :=
  keepWidth_eq_apply fun k hk hin => by
    rw [hv k hk, h.uniformOperand_lane hu hcomm hk hin, hf]

/-- The same with the uniform operand on the right. -/
theorem Facts.right_exact (h : Facts b consts vectors val) (f : U8 → U8 → U8) {c : U8}
    (hu : uniformByte (a.args.get 1) map.q vectors = some c) (hsource : map.source = a.args.get 0)
    (hf : ∀ x, f x c = linear map.matrix x ^^^ map.addend) {v : U128}
    (hv : ∀ k < 16, lane 8 v k = f (lane 8 (val (a.args.get 0)) k) (lane 8 (val (a.args.get 1)) k)) :
    keepWidth map.q v = map.apply (val map.source) :=
  keepWidth_eq_apply fun k hk hin => by
    rw [hv k hk, h.uniform_lane hu hk hin, hf, hsource]

/-- And without one. -/
theorem unary_exact (f : U8 → U8) (hsource : map.source = a.args.get 0)
    (hf : ∀ x, f x = linear map.matrix x ^^^ map.addend) {v : U128}
    (hv : ∀ k < 16, lane 8 v k = f (lane 8 (val (a.args.get 0)) k)) :
    keepWidth map.q v = map.apply (val map.source) :=
  keepWidth_eq_apply fun k hk _ => by rw [hv k hk, hf, hsource]

theorem and_bitwise (c x : U8) : x &&& c = linear (diagonal c) x ^^^ 0 := by
  rw [linear_diagonal, BitVec.and_comm]
  exact (BitVec.xor_zero).symm

theorem or_bitwise (c x : U8) : x ||| c = linear (diagonal (~~~c)) x ^^^ c := by
  rw [linear_diagonal]
  refine BitVec.eq_of_getLsbD_eq fun i hi => ?_
  simp only [BitVec.getLsbD_or, BitVec.getLsbD_xor, BitVec.getLsbD_and, BitVec.getLsbD_not,
    decide_eq_true hi]
  cases x.getLsbD i <;> cases c.getLsbD i <;> rfl

theorem linear_ones (x : U8) : linear (diagonal 0xFF) x = x := by
  rw [linear_diagonal]
  exact BitVec.allOnes_and

theorem lane_bytes (f : Nat → U8) {k : Nat} (hk : k < 16) : lane 8 (ofLanes 128 8 f) k = f k :=
  lane_ofLanes f (by omega)

theorem map_parts {source : ValueRef} {m : U64} {addend : U8}
    (h : (source, m, addend) = (map.source, map.matrix, map.addend)) :
    map.source = source ∧ map.matrix = m ∧ map.addend = addend := by
  obtain ⟨hs, h⟩ := Prod.mk.inj h
  obtain ⟨hm, ha⟩ := Prod.mk.inj h
  exact ⟨hs.symm, hm.symm, ha.symm⟩

/-- An affine operation with a literal matrix is its map. -/
theorem vectorValue_bitAffine {literal : Armlet} (hop : a.op = .vecBitAffine)
    (hs : map.source = a.args.get 0) (hliteral : b.code[a.args.get 1]? = some literal)
    (hop' : literal.op = .constU64) (hmat : map.matrix = literal.imm)
    (hadd : map.addend = byteAt a.imm 1) (hq : map.q = (a.imm &&& 1 != 0)) :
    vectorValue b val a = some (map.apply (val map.source)) := by
  simp only [vectorValue, hop, hliteral, Option.bind_some, if_pos hop', ← hmat, ← hadd, ← hq]
  exact congrArg some (unary_exact _ hs (gf2p8affineqb_eq _ _) fun k hk => lane_bytes _ hk)

/-- The case split of `recognizeMap`, with what the node computes in each case. -/
theorem recognizeMap_exact (h : Facts b consts vectors val)
    (hm : recognizeMap a b consts vectors = some (map.source, map.matrix, map.addend))
    (hq : map.q = (a.imm &&& 1 != 0)) :
    vectorValue b val a = some (map.apply (val map.source)) := by
  rw [recognizeMap, ← hq] at hm
  split at hm
  next hop =>
    obtain ⟨⟨_, hliteral⟩, hm⟩ := Option.ite_none_right_eq_some.mp hm
    obtain ⟨c, hc, heq⟩ := Option.map_eq_some_iff.mp hm
    obtain ⟨hs, hmat, hadd⟩ := map_parts heq
    obtain ⟨node, hnode, hop'⟩ := Option.map_eq_some_iff.mp hliteral
    exact vectorValue_bitAffine hop hs hnode hop'
      (hmat.trans (h.literal _ _ _ hnode hop' hc).symm) hadd hq
  next hop =>
    obtain ⟨_, heq⟩ := Option.ite_none_right_eq_some.mp hm
    obtain ⟨hs, hmat, hadd⟩ := map_parts (Option.some.inj heq)
    simp only [vectorValue, hop, ← hq]
    refine congrArg some (unary_exact _ hs (fun x => ?_) fun k hk => lane_not _ k (by omega))
    rw [hmat, hadd, linear_ones, BitVec.xor_comm]
    exact BitVec.allOnes_xor.symm
  next hop =>
    obtain ⟨_, heq⟩ := Option.ite_none_right_eq_some.mp hm
    obtain ⟨hs, hmat, hadd⟩ := map_parts (Option.some.inj heq)
    simp only [vectorValue, hop, ← hq]
    refine congrArg some (unary_exact (· <<< (a.imm >>> 1).toNat) hs (fun x => ?_) fun k hk =>
      lane_bytes _ hk)
    rw [hmat, hadd, linear_leftRow]
    exact BitVec.xor_zero.symm
  next hop =>
    obtain ⟨_, heq⟩ := Option.ite_none_right_eq_some.mp hm
    obtain ⟨hs, hmat, hadd⟩ := map_parts (Option.some.inj heq)
    simp only [vectorValue, hop, ← hq]
    refine congrArg some (unary_exact (· >>> (a.imm >>> 1).toNat) hs (fun x => ?_) fun k hk =>
      lane_bytes _ hk)
    rw [hmat, hadd, linear_rightRow]
    exact BitVec.xor_zero.symm
  next hop =>
    obtain ⟨_, heq⟩ := Option.ite_none_right_eq_some.mp hm
    obtain ⟨hs, hmat, hadd⟩ := map_parts (Option.some.inj heq)
    simp only [vectorValue, hop, ← hq]
    refine congrArg some (unary_exact (·.sshiftRight (a.imm >>> 1).toNat) hs (fun x => ?_)
      fun k hk => lane_bytes _ hk)
    rw [hmat, hadd, linear_signedRow]
    exact BitVec.xor_zero.symm
  next hop =>
    obtain ⟨⟨_, hsame⟩, heq⟩ := Option.ite_none_right_eq_some.mp hm
    obtain ⟨hs, hmat, hadd⟩ := map_parts (Option.some.inj heq)
    simp only [vectorValue, hop, ← hq, ← hsame]
    refine congrArg some (unary_exact (fun c => c + c) hs (fun x => ?_) fun k hk =>
      lane_bytes _ hk)
    rw [hmat, hadd, linear_leftRow, add_self]
    exact BitVec.xor_zero.symm
  next hop =>
    obtain ⟨_, heq⟩ := Option.ite_none_right_eq_some.mp hm
    obtain ⟨⟨c, source⟩, hu, heq⟩ := Option.bind_eq_some_iff.mp heq
    obtain ⟨hpow, heq⟩ := Option.ite_none_right_eq_some.mp heq
    obtain ⟨hs, hmat, hadd⟩ := map_parts (Option.some.inj heq)
    simp only [vectorValue, hop, ← hq]
    refine congrArg some (h.operand_exact (· * ·) (hs ▸ hu) BitVec.mul_comm (fun x => ?_)
      fun k hk => lane_bytes _ hk)
    rw [hmat, hadd, linear_leftRow, mul_powerOfTwo hpow]
    exact BitVec.xor_zero.symm
  next hop =>
    obtain ⟨_, heq⟩ := Option.ite_none_right_eq_some.mp hm
    obtain ⟨c, hu, heq⟩ := Option.map_eq_some_iff.mp heq
    obtain ⟨hs, hmat, hadd⟩ := map_parts heq
    simp only [vectorValue, hop, ← hq]
    refine congrArg some (h.right_exact (variableShift false) hu hs (fun x => ?_) fun k hk =>
      lane_bytes _ hk)
    rw [hmat, hadd, hop, linear_shiftRow]
    exact BitVec.xor_zero.symm
  next hop =>
    obtain ⟨_, heq⟩ := Option.ite_none_right_eq_some.mp hm
    obtain ⟨c, hu, heq⟩ := Option.map_eq_some_iff.mp heq
    obtain ⟨hs, hmat, hadd⟩ := map_parts heq
    simp only [vectorValue, hop, ← hq]
    refine congrArg some (h.right_exact (variableShift true) hu hs (fun x => ?_) fun k hk =>
      lane_bytes _ hk)
    rw [hmat, hadd, hop, linear_shiftRow]
    exact BitVec.xor_zero.symm
  next hop =>
    obtain ⟨_, heq⟩ := Option.ite_none_right_eq_some.mp hm
    obtain ⟨⟨c, source⟩, hu, heq⟩ := Option.map_eq_some_iff.mp heq
    obtain ⟨hs, hmat, hadd⟩ := map_parts heq
    simp only [vectorValue, hop, ← hq]
    refine congrArg some (h.operand_exact (· &&& ·) (hs ▸ hu) BitVec.and_comm (fun x => ?_)
      fun k _ => lane_and _ _ k)
    rw [hmat, hadd]
    exact and_bitwise c x
  next hop =>
    obtain ⟨_, heq⟩ := Option.ite_none_right_eq_some.mp hm
    obtain ⟨⟨c, source⟩, hu, heq⟩ := Option.map_eq_some_iff.mp heq
    obtain ⟨hs, hmat, hadd⟩ := map_parts heq
    simp only [vectorValue, hop, ← hq]
    refine congrArg some (h.operand_exact (· ||| ·) (hs ▸ hu) BitVec.or_comm (fun x => ?_)
      fun k _ => lane_or _ _ k)
    rw [hmat, hadd]
    exact or_bitwise c x
  next hop =>
    obtain ⟨_, heq⟩ := Option.ite_none_right_eq_some.mp hm
    obtain ⟨⟨c, source⟩, hu, heq⟩ := Option.map_eq_some_iff.mp heq
    obtain ⟨hs, hmat, hadd⟩ := map_parts heq
    simp only [vectorValue, hop, ← hq]
    refine congrArg some (h.operand_exact (· ^^^ ·) (hs ▸ hu) BitVec.xor_comm (fun x => ?_)
      fun k _ => lane_xor _ _ k)
    rw [hmat, hadd, linear_ones]
  next hop =>
    obtain ⟨_, heq⟩ := Option.ite_none_right_eq_some.mp hm
    obtain ⟨c, hu, heq⟩ := Option.map_eq_some_iff.mp heq
    obtain ⟨hs, hmat, hadd⟩ := map_parts heq
    simp only [vectorValue, hop, ← hq]
    refine congrArg some (h.right_exact (fun x c => x &&& ~~~c) hu hs (fun x => ?_) fun k hk => ?_)
    · rw [hmat, hadd]
      exact and_bitwise (~~~c) x
    · rw [lane_and, lane_not _ k (by omega)]
  next hop =>
    obtain ⟨_, heq⟩ := Option.ite_none_right_eq_some.mp hm
    obtain ⟨c, hu, heq⟩ := Option.map_eq_some_iff.mp heq
    obtain ⟨hs, hmat, hadd⟩ := map_parts heq
    simp only [vectorValue, hop, ← hq]
    refine congrArg some (h.right_exact (fun x c => x ||| ~~~c) hu hs (fun x => ?_) fun k hk => ?_)
    · rw [hmat, hadd, or_bitwise (~~~c) x, BitVec.not_not]
    · rw [lane_or, lane_not _ k (by omega)]
  next => cases hm

/-- The source of a map is one of the first two operands. -/
theorem recognizeMap_source {source : ValueRef} {m : U64} {addend : U8}
    (hm : recognizeMap a b consts vectors = some (source, m, addend)) :
    source = a.args.get 0 ∨ source = a.args.get 1 := by
  have hoperand : ∀ {c : U8} {q : Bool}, uniformOperand a q vectors = some (c, source) →
      source = a.args.get 0 ∨ source = a.args.get 1 := fun hu =>
    (uniformOperand_cases hu).imp And.left And.left
  rw [recognizeMap] at hm
  split at hm
  case h_1 =>
    obtain ⟨_, hm⟩ := Option.ite_none_right_eq_some.mp hm
    obtain ⟨c, _, heq⟩ := Option.map_eq_some_iff.mp hm
    exact Or.inl (Prod.mk.inj heq).1.symm
  case h_2 | h_3 | h_4 | h_5 | h_6 =>
    obtain ⟨_, heq⟩ := Option.ite_none_right_eq_some.mp hm
    exact Or.inl (Prod.mk.inj (Option.some.inj heq)).1.symm
  case h_7 =>
    obtain ⟨_, hm⟩ := Option.ite_none_right_eq_some.mp hm
    obtain ⟨⟨c, source'⟩, hu, hm⟩ := Option.bind_eq_some_iff.mp hm
    obtain ⟨_, heq⟩ := Option.ite_none_right_eq_some.mp hm
    obtain rfl := (Prod.mk.inj (Option.some.inj heq)).1
    exact hoperand hu
  case h_10 | h_11 | h_12 =>
    obtain ⟨_, hm⟩ := Option.ite_none_right_eq_some.mp hm
    obtain ⟨⟨c, source'⟩, hu, heq⟩ := Option.map_eq_some_iff.mp hm
    obtain rfl := (Prod.mk.inj heq).1
    exact hoperand hu
  case h_8 | h_9 | h_13 | h_14 =>
    obtain ⟨_, hm⟩ := Option.ite_none_right_eq_some.mp hm
    obtain ⟨c, _, heq⟩ := Option.map_eq_some_iff.mp hm
    exact Or.inl (Prod.mk.inj heq).1.symm
  case h_15 => cases hm

theorem recognize_eq_some (hm : recognize a b consts vectors = some map) :
    recognizeMap a b consts vectors = some (map.source, map.matrix, map.addend) ∧
      map.q = (a.imm &&& 1 != 0) ∧ map.source.isSome ∧ map.source < b.code.size := by
  rw [recognize] at hm
  obtain ⟨_, hm⟩ := Option.ite_none_left_eq_some.mp hm
  obtain ⟨⟨source, m, addend⟩, hparts, hm⟩ := Option.bind_eq_some_iff.mp hm
  obtain ⟨hcond, hm⟩ := Option.ite_none_left_eq_some.mp hm
  obtain rfl := Option.some.inj hm
  refine ⟨hparts, rfl, ?_, ?_⟩
  · by_contra hnone
    exact hcond (Or.inl (by simpa using hnone))
  by_contra hge
  refine hcond (Or.inr ?_)
  rw [Array.getElem?_eq_none (Nat.le_of_not_lt hge)]
  intro h
  cases h

/-- **A recognized map is the node.** -/
theorem recognize_exact (h : Facts b consts vectors val)
    (hm : recognize a b consts vectors = some map) :
    vectorValue b val a = some (map.apply (val map.source)) :=
  recognizeMap_exact h (recognize_eq_some hm).1 (recognize_eq_some hm).2.1

/-! ## Composition -/

/-- **A composition is one map after the other.**  An inner map of 64 bits leaves zeros in the upper
half, which an outer map of 128 bits would add its addend to. -/
theorem compose_exact {outer inner : ByteMap} (hm : compose outer inner = some map) :
    map.source = inner.source ∧ ∀ x, map.apply x = outer.apply (inner.apply x) := by
  rw [compose] at hm
  obtain ⟨hwidth, hm⟩ := Option.ite_none_left_eq_some.mp hm
  obtain rfl := Option.some.inj hm
  refine ⟨rfl, fun x => ext_lane (by decide : 0 < 8) fun k hk => ?_⟩
  have hk' : k < 16 := by omega
  rw [lane_apply _ _ hk', lane_apply _ _ hk', lane_apply _ _ hk']
  simp only [gf2p8affineqb_eq]
  by_cases hout : k < 8 ∨ outer.q
  · by_cases hin : k < 8 ∨ inner.q
    · have hboth : k < 8 ∨ (outer.q && inner.q) := by
        rcases hout with hlow | houter
        · exact Or.inl hlow
        · exact hin.imp_right fun hinner => Bool.and_eq_true_iff.mpr ⟨houter, hinner⟩
      rw [if_pos hboth, if_pos hout, if_pos hin, linear_xor, ← BitVec.xor_assoc]
      exact congrArg (· ^^^ linear outer.matrix inner.addend ^^^ outer.addend)
        (linear_productRow outer.matrix inner.matrix (lane 8 x k))
    · have hneither : ¬ (k < 8 ∨ (outer.q && inner.q)) := by grind
      have hzero : outer.addend = 0 := by grind
      rw [if_neg hneither, if_pos hout, if_neg hin, linear_zero, hzero]
      rfl
  · have hneither : ¬ (k < 8 ∨ (outer.q && inner.q)) := by grind
    rw [if_neg hneither, if_neg hout]

/-! ## Constant vectors -/

theorem typedConst_eq_some {ok : Ty → Bool} {v : ValueRef} {c : U64}
    (hc : typedConst ok b consts v = some c) :
    ∃ node, b.code[v]? = some node ∧ ok node.ty ∧ consts v = some c := by
  rw [typedConst] at hc
  obtain ⟨hok, hc⟩ := Option.ite_none_right_eq_some.mp hc
  obtain ⟨node, hnode, hok⟩ := (Option.any_eq_true _ _).mp hok
  exact ⟨node, hnode, hok, hc⟩

/-- The vector of two halves, byte by byte. -/
theorem keepWidth_halves {q : Bool} {v : U128} {lo hi : U64}
    (hlo : ∀ k < 8, lane 8 v k = byteAt lo k)
    (hhi : ∀ k < 8, if q then lane 8 v (k + 8) = byteAt hi k else byteAt hi k = 0) :
    keepWidth q v = hi ++ lo := by
  refine ext_lane (by decide : 0 < 8) fun k hk => ?_
  have hk' : k < 16 := by omega
  rw [lane_keepWidth _ _ hk', lane_halves _ _ hk']
  by_cases hlow : k < 8
  · rw [if_pos (Or.inl hlow), if_pos hlow, hlo k hlow]
  · have hup := hhi (k - 8) (by omega)
    rw [(by omega : k - 8 + 8 = k)] at hup
    cases q
    · rw [if_neg (by simp [hlow]), if_neg hlow]
      exact hup.symm
    · rw [if_pos (Or.inr rfl), if_neg hlow]
      exact hup

theorem byteAt_zero (k : Nat) : byteAt 0 k = 0 := by
  rw [byteAt, BitVec.ofNat_eq_ofNat, BitVec.zero_ushiftRight]
  rfl

/-- The low byte of a scalar constant of either width. -/
theorem Facts.low_byte (h : Facts b consts vectors val) {v : ValueRef} {node : Armlet} {c : U64}
    (hnode : b.code[v]? = some node) (ht : (node.ty == .u32 || node.ty == .u64) = true)
    (hc : consts v = some c) : (val v).setWidth 8 = byteAt c 0 := by
  rw [byteAt, Nat.mul_zero, BitVec.ushiftRight_zero]
  rcases Bool.or_eq_true_iff.mp ht with ht | ht
  · rw [← BitVec.setWidth_setWidth_of_le (val v) (by decide : 8 ≤ 32),
      h.half _ _ _ hnode (eq_of_beq ht) hc, BitVec.setWidth_setWidth_of_le c (by decide : 8 ≤ 32)]
  · rw [← BitVec.setWidth_setWidth_of_le (val v) (by decide : 8 ≤ 64),
      h.word _ _ _ hnode (eq_of_beq ht) hc]

/-- **A constant vector is the value of its node.** -/
theorem vectorConstant_exact (h : Facts b consts vectors val) {lo hi : U64}
    (hv : vectorConstant a b consts vectors (recognize a b consts vectors) = some (lo, hi)) :
    vectorValue b val a = some (hi ++ lo) := by
  rw [vectorConstant] at hv
  obtain ⟨hty, hv⟩ := Option.ite_none_left_eq_some.mp hv
  rw [not_not] at hty
  split at hv
  next hop =>
    simp only [vectorValue, hop, if_pos hty]
    exact congrArg some (h.vector _ _ _ hv)
  next =>
  split at hv
  next hop =>
    obtain ⟨clo, hlo, hv⟩ := Option.bind_eq_some_iff.mp hv
    obtain ⟨chi, hhi, hv⟩ := Option.map_eq_some_iff.mp hv
    obtain ⟨rfl, rfl⟩ := Prod.mk.inj hv
    obtain ⟨node, hnode, ht, hlo⟩ := typedConst_eq_some hlo
    obtain ⟨node', hnode', ht', hhi⟩ := typedConst_eq_some hhi
    simp only [vectorValue, hop]
    rw [h.word _ _ _ hnode (eq_of_beq ht) hlo, h.word _ _ _ hnode' (eq_of_beq ht') hhi]
  next =>
  split at hv
  next hop =>
    obtain ⟨c, hc, hv⟩ := Option.map_eq_some_iff.mp hv
    obtain ⟨rfl, rfl⟩ := Prod.mk.inj hv
    obtain ⟨node, hnode, ht, hc⟩ := typedConst_eq_some hc
    have hbyte := h.low_byte hnode ht hc
    simp only [vectorValue, hop.1]
    refine congrArg some (keepWidth_halves (fun k hk => ?_) fun k hk => ?_)
    · rw [lane_bytes _ (by omega), byteAt_repeatByte _ hk, hbyte]
    · by_cases hq : a.imm &&& 1 = 0
      · rw [hq, if_neg (by decide), if_neg (by simp), byteAt_zero]
      · rw [if_pos (bne_iff_ne.mpr hq), if_pos hq, lane_bytes _ (by omega),
          byteAt_repeatByte _ hk, hbyte]
  next =>
    obtain ⟨map, hmap, hv⟩ := Option.bind_eq_some_iff.mp hv
    obtain ⟨⟨slo, shi⟩, hs, hv⟩ := Option.map_eq_some_iff.mp hv
    obtain ⟨rfl, rfl⟩ := Prod.mk.inj hv
    rw [recognize_exact h hmap, h.vector _ _ _ hs]
    refine congrArg some (ext_lane (by decide : 0 < 8) fun k hk => ?_)
    have hk' : k < 16 := by omega
    rw [lane_apply _ _ hk', lane_halves _ _ hk', lane_halves _ _ hk', gf2p8affineqb_eq]
    by_cases hlow : k < 8
    · rw [if_pos (Or.inl hlow), if_pos hlow, if_pos hlow, byteAt_mapBytes _ _ hlow]
    · rw [if_neg hlow, if_neg hlow]
      by_cases hq : map.q
      · rw [if_pos (Or.inr hq), if_pos hq, byteAt_mapBytes _ _ (by omega)]
      · rw [if_neg (by simp [hlow, hq]), if_neg hq, byteAt_zero]

/-! ## Replacing a node -/

/-- The facts of the walk are true of the values, and nothing is known of nodes to come. -/
structure AffineFacts (s : WalkState) (val : Values) : Prop extends
    Facts s.block s.consts s.vectors val where
  affine : ∀ v map, s.affines v = some map →
    map.source < s.block.code.size ∧ val v = map.apply (val map.source)
  fresh : ∀ v, s.block.code.size ≤ v →
    s.consts v = none ∧ s.vectors v = none ∧ s.affines v = none

variable {s : WalkState} {vr : ValueRef}

/-- The map put in place of a node has the node's value. -/
theorem AffineFacts.replacementMap_exact (h : AffineFacts s val) {composed : ByteMap}
    (hsource : map.source < s.block.code.size)
    (hm : replacementMap s a map = some composed) :
    composed.source < s.block.code.size ∧
      composed.apply (val composed.source) = map.apply (val map.source) := by
  rw [replacementMap] at hm
  split at hm
  next found hfound =>
    obtain rfl := Option.some.inj hm
    obtain ⟨inner, hinner, hfilter⟩ := Option.bind_eq_some_iff.mp hfound
    obtain ⟨hsrc, happly⟩ := compose_exact (Option.filter_eq_some_iff.mp hfilter).1
    obtain ⟨hlt, hval⟩ := h.affine _ _ hinner
    exact ⟨hsrc ▸ hlt, by rw [happly, hsrc, hval]⟩
  next =>
    obtain ⟨_, heq⟩ := Option.ite_none_right_eq_some.mp hm
    obtain rfl := Option.some.inj heq
    exact ⟨hsource, rfl⟩

/-- What `visitAffine` notes of the node's value is right. -/
theorem AffineFacts.note (h : AffineFacts s val) (hvr : vr < s.block.code.size)
    {vector : Option (U64 × U64)} (hv : ∀ lo hi, vector = some (lo, hi) → val vr = hi ++ lo) :
    AffineFacts { s with vectors := Function.update s.vectors vr vector } val where
  literal := h.literal
  word := h.word
  half := h.half
  vector v lo hi hv' := by
    by_cases heq : v = vr
    · subst heq
      exact hv lo hi (by simpa only [Function.update_self] using hv')
    · exact h.vector v lo hi (by simpa only [Function.update_of_ne heq] using hv')
  affine := h.affine
  fresh v hge := by
    obtain ⟨hc, hvec, ha⟩ := h.fresh v hge
    exact ⟨hc, (Function.update_of_ne (Nat.ne_of_gt (Nat.lt_of_lt_of_le hvr hge)) _ _).trans hvec, ha⟩

theorem AffineFacts.keep (h : AffineFacts s val) (hvr : vr < s.block.code.size)
    {m : Option ByteMap}
    (hm : ∀ map, m = some map →
      map.source < s.block.code.size ∧ val vr = map.apply (val map.source)) :
    AffineFacts { s with affines := Function.update s.affines vr m } val where
  literal := h.literal
  word := h.word
  half := h.half
  vector := h.vector
  affine v map hv := by
    by_cases heq : v = vr
    · subst heq
      exact hm map (by simpa only [Function.update_self] using hv)
    · exact h.affine v map (by simpa only [Function.update_of_ne heq] using hv)
  fresh v hge := by
    obtain ⟨hc, hvec, ha⟩ := h.fresh v hge
    exact ⟨hc, hvec, (Function.update_of_ne (Nat.ne_of_gt (Nat.lt_of_lt_of_le hvr hge)) _ _).trans ha⟩

/-- The immediate of the operation holds the addend and the width. -/
theorem affineImm : ∀ (addend : U8) (q : Bool),
    byteAt (addend.setWidth 64 <<< 8 ||| if q then 1 else 0) 1 = addend ∧
      ((addend.setWidth 64 <<< 8 ||| if q then 1 else 0 : U64) &&& 1 != 0) = q := by
  decide +kernel

theorem getElem?_eq_get {v : ValueRef} (hv : v < b.code.size) : b.code[v]? = some (b.get v) := by
  rw [Block.get, Array.getD_eq_getD_getElem?, Array.getElem?_eq_getElem hv]
  rfl

/-- A node of a block with the constant `c` put in front of another is the new one, or one of the
old ones up to its links. -/
theorem getElem?_insertBefore {v w : ValueRef} {c node : Armlet} {k : U64} (hv : v ≠ linkNone)
    (hw : (b.insertBefore v c).1.code[w]? = some node)
    (hk : Function.update consts b.code.size (some c.imm) w = some k) :
    (w = b.code.size ∧ node.bare = c.bare ∧ k = c.imm) ∨
      (w < b.code.size ∧ consts w = some k ∧ ∃ old, b.code[w]? = some old ∧
        node.bare = old.bare) := by
  have hlt : w < (b.insertBefore v c).1.code.size := (Array.getElem?_eq_some_iff.mp hw).1
  rw [getElem?_eq_get hlt] at hw
  obtain rfl := Option.some.inj hw
  rw [Block.size_insertBefore] at hlt
  rcases Nat.lt_succ_iff_lt_or_eq.mp hlt with hold | rfl
  · rw [Function.update_of_ne (Nat.ne_of_lt hold)] at hk
    exact Or.inr ⟨hold, hk, b.get w, getElem?_eq_get hold,
      Block.get_insertBefore_bare hv (Nat.ne_of_lt hold)⟩
  · rw [Function.update_self] at hk
    exact Or.inl ⟨rfl, Block.get_insertBefore_new hv, (Option.some.inj hk).symm⟩

/-- The values with a constant put in front of a node. -/
def Values.withConst (val : Values) (b : Block) (c : U64) : Values :=
  Function.update val b.code.size (c.setWidth 128)

theorem Values.withConst_of_lt {v : ValueRef} {c : U64} (hv : v < b.code.size) :
    val.withConst b c v = val v := Function.update_of_ne (Nat.ne_of_lt hv) _ _

/-- A constant put in front of a node keeps the facts. -/
theorem AffineFacts.insertConst (h : AffineFacts s val) (hvr : vr ≠ linkNone) {c : Armlet}
    (hty : c.ty = .u64) (uses : Uses) :
    AffineFacts { s with block := (s.block.insertBefore vr c).1,
                         consts := Function.update s.consts s.block.code.size (some c.imm), uses }
      (val.withConst s.block c.imm) where
  literal v node k hnode hop' hk := by
    rcases getElem?_insertBefore hvr hnode hk with ⟨-, hbare, rfl⟩ | ⟨-, hk, old, hold, hbare⟩
    · exact (congrArg Armlet.imm hbare : node.bare.imm = c.bare.imm)
    · exact (congrArg Armlet.imm hbare).trans
        (h.literal v old k hold ((congrArg Armlet.op hbare).symm.trans hop') hk)
  word v node k hnode hty' hk := by
    rcases getElem?_insertBefore hvr hnode hk with ⟨rfl, hbare, rfl⟩ | ⟨hlt, hk, old, hold, hbare⟩
    · rw [Values.withConst, Function.update_self, BitVec.setWidth_setWidth_of_le _ (by decide),
        BitVec.setWidth_eq]
    · rw [Values.withConst_of_lt hlt]
      exact h.word v old k hold ((congrArg Armlet.ty hbare).symm.trans hty') hk
  half v node k hnode hty' hk := by
    rcases getElem?_insertBefore hvr hnode hk with ⟨rfl, hbare, rfl⟩ | ⟨hlt, hk, old, hold, hbare⟩
    · have hclash : c.ty = .u32 := (congrArg Armlet.ty hbare).symm.trans hty'
      rw [hty] at hclash
      cases hclash
    · rw [Values.withConst_of_lt hlt]
      exact h.half v old k hold ((congrArg Armlet.ty hbare).symm.trans hty') hk
  vector v lo hi hv := by
    have hlt : v < s.block.code.size := by
      by_contra hge
      rw [(h.fresh v (Nat.le_of_not_lt hge)).2.1] at hv
      cases hv
    rw [Values.withConst_of_lt hlt]
    exact h.vector v lo hi hv
  affine v map hv := by
    have hlt : v < s.block.code.size := by
      by_contra hge
      rw [(h.fresh v (Nat.le_of_not_lt hge)).2.2] at hv
      cases hv
    obtain ⟨hsource, hval⟩ := h.affine v map hv
    refine ⟨?_, ?_⟩
    · rw [Block.size_insertBefore]
      exact Nat.lt_succ_of_lt hsource
    · rw [Values.withConst_of_lt hlt, Values.withConst_of_lt hsource, hval]
  fresh v hge := by
    rw [Block.size_insertBefore] at hge
    obtain ⟨hc, hvec, ha⟩ := h.fresh v (Nat.le_of_succ_le hge)
    exact ⟨(Function.update_of_ne (Nat.ne_of_gt hge) _ _).trans hc, hvec, ha⟩

/-- The literal `affineNode` puts in front. -/
def matrixNode (a : Armlet) (map : ByteMap) : Armlet :=
  { (Armlet.new .constU64 .u64).withImm map.matrix with pc := a.pc }

/-- **The operation put in place of a node has the node's value**, and the facts stay true with the
matrix as the value of the node in front. -/
theorem AffineFacts.affineNode_exact (h : AffineFacts s val) (hvr : vr ≠ linkNone)
    (hlt : vr < s.block.code.size) (hsource : map.source < s.block.code.size)
    (hval : val vr = map.apply (val map.source)) :
    AffineFacts (affineNode s vr a map).1 (val.withConst s.block map.matrix) ∧
      vectorValue (affineNode s vr a map).1.block (val.withConst s.block map.matrix)
        (affineNode s vr a map).2 = some (val vr) := by
  have hin := h.insertConst hvr (c := matrixNode a map) rfl
    (Uses.count (Function.update s.uses s.block.code.size 1) map.source)
  have hsize := @Block.size_insertBefore s.block vr (matrixNode a map)
  have hkeep : val.withConst s.block map.matrix map.source = val map.source :=
    Values.withConst_of_lt hsource
  have hkeep' : val.withConst s.block map.matrix vr = val vr := Values.withConst_of_lt hlt
  constructor
  · refine hin.keep (m := some map) (Nat.lt_of_lt_of_eq (Nat.lt_succ_of_lt hlt) hsize.symm)
      fun m hm => ?_
    obtain rfl := Option.some.inj hm
    refine ⟨Nat.lt_of_lt_of_eq (Nat.lt_succ_of_lt hsource) hsize.symm, ?_⟩
    exact hkeep'.trans (hval.trans (congrArg map.apply hkeep.symm))
  · have hbare := @Block.get_insertBefore_new s.block vr (matrixNode a map) hvr
    obtain ⟨hadd, hq⟩ := affineImm map.addend map.q
    have hliteral := getElem?_eq_get
      (Nat.lt_of_lt_of_eq (Nat.lt_succ_self s.block.code.size) hsize.symm)
    generalize (s.block.insertBefore vr (matrixNode a map)).1.get s.block.code.size = literal
      at hbare hliteral
    have hop : literal.op = .constU64 := (congrArg Armlet.op hbare : literal.bare.op = _)
    have himm : literal.imm = map.matrix := (congrArg Armlet.imm hbare : literal.bare.imm = _)
    rw [hval, ← hkeep]
    exact vectorValue_bitAffine rfl rfl hliteral hop himm.symm hadd.symm hq.symm

/-- What `visitAffine` does once the vector of the node is noted. -/
def settleAffine (s : WalkState) (vr : ValueRef) (a : Armlet) (recognized : Option ByteMap)
    (forwarded : Option ValueRef) : WalkState × Armlet :=
  let keep (m : Option ByteMap) : WalkState × Armlet :=
    ({ s with affines := Function.update s.affines vr m }, a)
  match recognized with
  | some map => match replacementMap s a map with
    | some composed =>
      if s.block.code.size < Block.maxNodes then affineNode s vr a composed else keep (some map)
    | none => keep (some map)
  | none =>
    if a.op = .identity ∧ a.ty = .u128 then keep (s.affines (a.args.get 0))
    else match forwarded with
      | some source => keep (s.affines source)
      | none => (s, a)

/-- The vector `visitAffine` notes for the node. -/
def notedVector (s : WalkState) (a : Armlet) : Option (U64 × U64) :=
  (forwardedV s a).elim
    (vectorConstant a s.block s.consts s.vectors (recognize a s.block s.consts s.vectors)) s.vectors

theorem visitAffine_eq (s : WalkState) (vr : ValueRef) (a : Armlet) :
    visitAffine s vr a =
      settleAffine { s with vectors := Function.update s.vectors vr (notedVector s a) } vr a
        (recognize a s.block s.consts s.vectors) (forwardedV s a) := by
  rw [visitAffine, settleAffine.eq_def, notedVector]
  cases forwardedV s a <;> rfl

/-- The three things the pass can know of a node. -/
theorem AffineFacts.settleAffine_exact (h : AffineFacts s val) (hvr : vr ≠ linkNone)
    (hlt : vr < s.block.code.size) {recognized : Option ByteMap} {forwarded : Option ValueRef}
    (hrec : ∀ map, recognized = some map →
      map.source < s.block.code.size ∧ val vr = map.apply (val map.source))
    (hid : a.op = .identity ∧ a.ty = .u128 → val vr = val (a.args.get 0))
    (hfwd : ∀ source, forwarded = some source → val vr = val source) :
    ∃ val' : Values, (∀ v < s.block.code.size, val' v = val v) ∧
      AffineFacts (settleAffine s vr a recognized forwarded).1 val' ∧
      ((settleAffine s vr a recognized forwarded).2 = a ∨
        vectorValue (settleAffine s vr a recognized forwarded).1.block val'
          (settleAffine s vr a recognized forwarded).2 = some (val vr)) := by
  rw [settleAffine.eq_def]
  dsimp only
  split
  next map =>
    obtain ⟨hsource, hval⟩ := hrec map rfl
    have hkeep := h.keep hlt hrec
    split
    next composed hcomposed =>
      obtain ⟨hsource', hval'⟩ := h.replacementMap_exact hsource hcomposed
      split
      · have hnode := h.affineNode_exact (a := a) hvr hlt hsource' (hval.trans hval'.symm)
        exact ⟨_, fun v hv => Values.withConst_of_lt hv, hnode.1, Or.inr hnode.2⟩
      · exact ⟨val, fun _ _ => rfl, hkeep, Or.inl rfl⟩
    next => exact ⟨val, fun _ _ => rfl, hkeep, Or.inl rfl⟩
  next =>
    split
    next hident =>
      refine ⟨val, fun _ _ => rfl, h.keep hlt fun m hm => ?_, Or.inl rfl⟩
      rw [hid hident]
      exact h.affine _ _ hm
    next =>
      split
      next source =>
        refine ⟨val, fun _ _ => rfl, h.keep hlt fun m hm => ?_, Or.inl rfl⟩
        rw [hfwd source rfl]
        exact h.affine _ _ hm
      next => exact ⟨val, fun _ _ => rfl, h, Or.inl rfl⟩

/-- **What the pass makes of a node has the value of the node.** -/
theorem AffineFacts.visitAffine_exact (h : AffineFacts s val) (hvr : vr ≠ linkNone)
    (hlt : vr < s.block.code.size) (hval : ∀ x, vectorValue s.block val a = some x → val vr = x)
    (hfwd : ∀ source, forwardedV s a = some source → val vr = val source) :
    ∃ val' : Values, (∀ v < s.block.code.size, val' v = val v) ∧
      AffineFacts (visitAffine s vr a).1 val' ∧
      ((visitAffine s vr a).2 = a ∨
        vectorValue (visitAffine s vr a).1.block val' (visitAffine s vr a).2 = some (val vr)) := by
  have hnote : ∀ lo hi, notedVector s a = some (lo, hi) → val vr = hi ++ lo := by
    intro lo hi hv
    rw [notedVector] at hv
    cases hf : forwardedV s a with
    | none =>
      rw [hf] at hv
      exact hval _ (vectorConstant_exact h.toFacts hv)
    | some source =>
      rw [hf] at hv
      rw [hfwd source hf, h.vector _ _ _ hv]
  rw [visitAffine_eq]
  refine (h.note hlt hnote).settleAffine_exact hvr hlt (fun map hmap => ?_) (fun hident => ?_) hfwd
  · obtain ⟨-, -, -, hsource⟩ := recognize_eq_some hmap
    exact ⟨hsource, hval _ (recognize_exact h.toFacts hmap)⟩
  · exact hval _ (by simp only [vectorValue, hident.1, if_pos hident.2])

/-! ## Exactness -/

/-- **Recognition, composition and constant vectors are exact**, and with them the rewriting. -/
theorem affine_exact (h : Facts b consts vectors val) :
    (∀ a map, recognize a b consts vectors = some map →
      vectorValue b val a = some (map.apply (val map.source))) ∧
    (∀ outer inner map, compose outer inner = some map →
      map.source = inner.source ∧ ∀ x, map.apply x = outer.apply (inner.apply x)) ∧
    (∀ a lo hi, vectorConstant a b consts vectors (recognize a b consts vectors) = some (lo, hi) →
      vectorValue b val a = some (hi ++ lo)) ∧
    ∀ (s : WalkState) (vr : ValueRef) (a : Armlet), AffineFacts s val → vr ≠ linkNone →
      vr < s.block.code.size → (∀ x, vectorValue s.block val a = some x → val vr = x) →
      (∀ source, forwardedV s a = some source → val vr = val source) →
      ∃ val' : Values, (∀ v < s.block.code.size, val' v = val v) ∧
        AffineFacts (visitAffine s vr a).1 val' ∧
        ((visitAffine s vr a).2 = a ∨
          vectorValue (visitAffine s vr a).1.block val' (visitAffine s vr a).2 = some (val vr)) :=
  ⟨fun _ _ => recognize_exact h, fun _ _ _ => compose_exact, fun _ _ _ => vectorConstant_exact h,
    fun _ _ _ hs hvr hlt hval hfwd => hs.visitAffine_exact hvr hlt hval hfwd⟩

/-- A shift of a vector register by three, the count repeated in all lanes. -/
def shiftBlock : Block :=
  { Block.new 0 with code := #[Armlet.new .void .void, (Armlet.new .getV .u128).withImm 0,
      (Armlet.new .constU64 .u64).withImm 3,
      ((Armlet.new .vecDupGpr8 .u128).withArgs [2]).withImm 1,
      ((Armlet.new .vecUshl8 .u128).withArgs [1, 3]).withImm 1] }

def shiftConsts : Consts := fun v => if v = 2 then some 3 else none

def shiftVectors : Vectors := fun v =>
  if v = 3 then some (0x0303030303030303, 0x0303030303030303) else none

def shiftValues (x : U128) : Values := fun v =>
  if v = 2 then 3 else if v = 3 then 0x03030303030303030303030303030303 else x

theorem shift_facts (x : U128) : Facts shiftBlock shiftConsts shiftVectors (shiftValues x) := by
  have hconst : ∀ v c, shiftConsts v = some c → v = 2 ∧ c = 3 := by
    intro v c hc
    rw [shiftConsts, Option.ite_none_right_eq_some] at hc
    exact ⟨hc.1, (Option.some.inj hc.2).symm⟩
  constructor
  · intro v node c hnode _ hc
    obtain ⟨rfl, rfl⟩ := hconst v c hc
    obtain rfl := Option.some.inj hnode
    rfl
  · intro v node c _ _ hc
    obtain ⟨rfl, rfl⟩ := hconst v c hc
    rfl
  · intro v node c _ _ hc
    obtain ⟨rfl, rfl⟩ := hconst v c hc
    rfl
  · intro v lo hi hv
    rw [shiftVectors, Option.ite_none_right_eq_some] at hv
    obtain ⟨rfl, heq⟩ := hv
    obtain ⟨rfl, rfl⟩ := Prod.mk.inj (Option.some.inj heq)
    rfl

theorem affine_exact_shiftByThree :
    vectorValue shiftBlock (shiftValues 0x81) (shiftBlock.get 4) =
      some ((ByteMap.mk 1 (matrix (leftRow 3)) 0 true).apply 0x81) :=
  (affine_exact (shift_facts 0x81)).1 (shiftBlock.get 4) ⟨1, matrix (leftRow 3), 0, true⟩
    (by decide)

end Optimizer

end Rustarmic
