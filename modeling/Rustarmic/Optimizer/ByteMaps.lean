import Rustarmic.Lib.Lanes
import Rustarmic.Optimizer.Affine

/-!
# Matrices of bits on bytes

What the matrices of `Affine` do to a byte, bit by bit.

* `gf2p8affineqb` is the specification: bit `i` of the result is the parity of row `i` and the byte,
  plus bit `i` of the addend.
* The matrices `recognize` builds are shifts and masks: `linear_leftRow`, `linear_rightRow`,
  `linear_signedRow`, `linear_diagonal`.
* `linear` is linear in the byte (`linear_xor`), and `linear_productRow` is the product of two
  matrices.

A matrix is a 64-bit word with a byte for each row.  The instruction wants the rows in the opposite
order, so that bit `i` belongs to byte `7 - i`, and the source has both conventions; `linear` counts
from the low end and `gf2p8affineqb_eq` is the one place where they meet.

Two matrices are combined without running them: a row of the product is the sum of the rows of the
inner matrix which the outer row selects.  Linearity is what makes that right, and it is proved from
parity being additive.
-/

set_option autoImplicit false

namespace Rustarmic

namespace Optimizer

open Lanes

variable {m : U64} {rows : Nat → U8}

/-! ## Bytes of words -/

theorem byteAt_eq_lane (x : U64) (k : Nat) : byteAt x k = lane 8 x k := by
  refine BitVec.eq_of_getLsbD_eq fun i hi => ?_
  simp only [byteAt, BitVec.getLsbD_setWidth, BitVec.getLsbD_ushiftRight, getLsbD_lane]

/-- A byte moved to byte `k` of a word. -/
theorem getLsbD_moved (c : U8) (k i : Nat) :
    (c.setWidth 64 <<< (8 * k)).getLsbD i =
      (decide (i < 64) && (decide (i / 8 = k) && c.getLsbD (i % 8))) := by
  rw [BitVec.getLsbD_shiftLeft, BitVec.getLsbD_setWidth]
  by_cases hk : i / 8 = k
  · have hmod : i - 8 * k = i % 8 := by omega
    rw [hmod, decide_eq_true hk, decide_eq_false (by omega : ¬ i < 8 * k)]
    grind
  · by_cases hlt : i < 8 * k
    · rw [decide_eq_true hlt, decide_eq_false hk]
      grind
    · rw [BitVec.getLsbD_of_ge c (i - 8 * k) (by omega), decide_eq_false hk]
      grind

theorem byteAt_mapBytes (f : U8 → U8) (x : U64) {k : Nat} (hk : k < 8) :
    byteAt (mapBytes f x) k = f (byteAt x k) := by
  rw [byteAt_eq_lane]
  refine BitVec.eq_of_getLsbD_eq fun i hi => ?_
  rw [getLsbD_lane, decide_eq_true hi, Bool.true_and, mapBytes, getLsbD_foldl_or_of_alone hk]
  · rw [getLsbD_moved, decide_eq_true (by omega : 8 * k + i < 64),
      decide_eq_true (by omega : (8 * k + i) / 8 = k), (by omega : (8 * k + i) % 8 = i),
      Bool.true_and, Bool.true_and]
  · intro a _ hne
    rw [getLsbD_moved, decide_eq_false (by omega : ¬ (8 * k + i) / 8 = a), Bool.false_and,
      Bool.and_false]

theorem byteAt_repeatByte (c : U8) {k : Nat} (hk : k < 8) : byteAt (repeatByte c) k = c := by
  rw [repeatByte, byteAt_mapBytes _ _ hk]

/-- Byte `k` of a vector of two halves. -/
theorem lane_halves (lo hi : U64) {k : Nat} (hk : k < 16) :
    lane 8 (hi ++ lo : U128) k = if k < 8 then byteAt lo k else byteAt hi (k - 8) := by
  refine BitVec.eq_of_getLsbD_eq fun i hi' => ?_
  rw [byteAt_eq_lane, byteAt_eq_lane, getLsbD_lane, decide_eq_true hi', Bool.true_and,
    BitVec.getLsbD_append]
  by_cases hlow : k < 8
  · rw [if_pos hlow, if_pos (by omega : 8 * k + i < 64), getLsbD_lane, decide_eq_true hi',
      Bool.true_and]
  · rw [if_neg hlow, if_neg (by omega : ¬ 8 * k + i < 64), getLsbD_lane, decide_eq_true hi',
      Bool.true_and, (by omega : 8 * (k - 8) + i = 8 * k + i - 64)]

/-! ## Rows -/

theorem rowOf_matrix {i : Nat} (hi : i < 8) : rowOf (matrix rows) i = rows i := by
  rw [rowOf, byteAt_eq_lane]
  refine BitVec.eq_of_getLsbD_eq fun t ht => ?_
  rw [getLsbD_lane, decide_eq_true ht, Bool.true_and, matrix, getLsbD_foldl_or_of_alone hi]
  · rw [Nat.mul_comm, getLsbD_moved, decide_eq_true (by omega : 8 * (7 - i) + t < 64),
      decide_eq_true (by omega : (8 * (7 - i) + t) / 8 = 7 - i),
      (by omega : (8 * (7 - i) + t) % 8 = t), Bool.true_and, Bool.true_and]
  · intro a ha hne
    rw [Nat.mul_comm, getLsbD_moved,
      decide_eq_false (by omega : ¬ (8 * (7 - i) + t) / 8 = 7 - a), Bool.false_and, Bool.and_false]

theorem parity_eq (c : U8) : parity c = xorBits 8 c.getLsbD := rfl

theorem parity_and_zero (c : U8) : parity (0#8 &&& c) = false := by
  rw [BitVec.zero_and]
  rfl

/-- The parity of one bit is the bit. -/
theorem parity_bit (c : U8) {k : Nat} (hk : k < 8) : parity (1#8 <<< k &&& c) = c.getLsbD k := by
  have hbit : ∀ i < 8, (1#8 <<< k &&& c).getLsbD i = (decide (i = k) && c.getLsbD i) := by
    intro i hi
    rw [BitVec.getLsbD_and, BitVec.getLsbD_shiftLeft, BitVec.getLsbD_one]
    grind
  rw [parity_eq, xorBits_congr hbit, xorBits_single hk]
  · rw [decide_eq_true rfl, Bool.true_and]
  · intro i _ hne
    rw [decide_eq_false hne, Bool.false_and]

theorem isPowerOfTwo_iff (c : U8) : isPowerOfTwo c ↔ ∃ k < 8, c = 1#8 <<< k := by
  simp only [isPowerOfTwo, List.any_eq_true, List.mem_range, beq_iff_eq]

theorem trailingZeros_bit : ∀ k < 8, trailingZeros (1#8 <<< k) = k := by decide

/-! ## The linear part -/

theorem getLsbD_linear (m : U64) (x : U8) {i : Nat} (hi : i < 8) :
    (linear m x).getLsbD i = parity (rowOf m i &&& x) := by
  have heq : linear m x = ofBits 8 fun i => parity (rowOf m i &&& x) := rfl
  rw [heq, getLsbD_ofBits, decide_eq_true hi, Bool.true_and]

theorem linear_xor (m : U64) (x y : U8) : linear m (x ^^^ y) = linear m x ^^^ linear m y := by
  refine BitVec.eq_of_getLsbD_eq fun i hi => ?_
  rw [BitVec.getLsbD_xor, getLsbD_linear m _ hi, getLsbD_linear m _ hi, getLsbD_linear m _ hi,
    parity_eq, parity_eq, parity_eq, ← xorBits_xor]
  refine xorBits_congr fun k _ => ?_
  rw [BitVec.getLsbD_and, BitVec.getLsbD_xor, BitVec.getLsbD_and, BitVec.getLsbD_and,
    Bool.and_xor_distrib_left]

theorem linear_zero (m : U64) : linear m 0 = 0 := by
  have h := linear_xor m 0 0
  rwa [BitVec.xor_self, BitVec.xor_self] at h

theorem linear_matrix {x y : U8} (h : ∀ i < 8, parity (rows i &&& x) = y.getLsbD i) :
    linear (matrix rows) x = y := by
  refine BitVec.eq_of_getLsbD_eq fun i hi => ?_
  rw [getLsbD_linear _ _ hi, rowOf_matrix hi, h i hi]

theorem linear_leftRow (shift : Nat) (x : U8) : linear (matrix (leftRow shift)) x = x <<< shift := by
  refine linear_matrix fun i hi => ?_
  rw [leftRow, BitVec.getLsbD_shiftLeft, decide_eq_true hi, Bool.true_and]
  by_cases hle : shift ≤ i
  · rw [if_pos hle, parity_bit x (by omega), decide_eq_false (by omega : ¬ i < shift),
      Bool.not_false, Bool.true_and]
  · rw [if_neg hle, decide_eq_true (by omega : i < shift), Bool.not_true, Bool.false_and]
    exact parity_and_zero x

theorem linear_rightRow (shift : Nat) (x : U8) :
    linear (matrix (rightRow shift)) x = x >>> shift := by
  refine linear_matrix fun i hi => ?_
  rw [rightRow, BitVec.getLsbD_ushiftRight, Nat.add_comm]
  by_cases hlt : shift + i < 8
  · rw [if_pos hlt, parity_bit x hlt]
  · rw [if_neg hlt, BitVec.getLsbD_of_ge x _ (by omega)]
    exact parity_and_zero x

theorem linear_signedRow (shift : Nat) (x : U8) :
    linear (matrix (signedRow shift)) x = x.sshiftRight shift := by
  refine linear_matrix fun i hi => ?_
  rw [signedRow, parity_bit x (by omega), BitVec.getLsbD_sshiftRight, BitVec.msb_eq_getLsbD_last]
  by_cases hlt : i + shift < 8
  · rw [Nat.min_eq_left (by omega), decide_eq_false (by omega : ¬ 8 ≤ i), if_pos (by omega),
      Nat.add_comm, Bool.not_false, Bool.true_and]
  · rw [Nat.min_eq_right (by omega), decide_eq_false (by omega : ¬ 8 ≤ i), if_neg (by omega),
      Bool.not_false, Bool.true_and]

theorem linear_diagonal (mask x : U8) : linear (diagonal mask) x = mask &&& x := by
  refine linear_matrix fun i hi => ?_
  have hrow : mask &&& 1#8 <<< i = if mask.getLsbD i then 1#8 <<< i else 0 := by
    refine BitVec.eq_of_getLsbD_eq fun t ht => ?_
    rw [BitVec.getLsbD_and, getLsbD_bit, BitVec.getLsbD_shiftLeft, BitVec.getLsbD_one]
    grind
  rw [hrow, BitVec.getLsbD_and]
  cases mask.getLsbD i
  · exact parity_and_zero x
  · exact parity_bit x hi

/-! ## Products -/

/-- Row `output` of the product of two matrices: the sum of the rows of `inner` that the row of
`outer` names. -/
def productRow (outer inner : U64) (output : Nat) : U8 := (List.range 8).foldl
  (fun row input =>
    if (rowOf outer output).getLsbD input then row ^^^ rowOf inner input else row) 0

theorem getLsbD_productRow (outer inner : U64) (output k : Nat) :
    (productRow outer inner output).getLsbD k =
      xorBits 8 fun input =>
        (rowOf outer output).getLsbD input && (rowOf inner input).getLsbD k := by
  have hsum : ∀ n, ((List.range n).foldl (fun row input =>
      if (rowOf outer output).getLsbD input then row ^^^ rowOf inner input else row)
      (0 : U8)).getLsbD k = xorBits n fun input =>
        (rowOf outer output).getLsbD input && (rowOf inner input).getLsbD k := by
    intro n
    induction n with
    | zero => simp
    | succ n ih =>
      rw [xorBits_succ, List.range_succ, List.foldl_append, List.foldl_cons, List.foldl_nil, ← ih]
      cases (rowOf outer output).getLsbD n <;> simp
  exact hsum 8

/-- **The product of two matrices applies one after the other.** -/
theorem linear_productRow (outer inner : U64) (x : U8) :
    linear (matrix (productRow outer inner)) x = linear outer (linear inner x) := by
  refine linear_matrix fun i hi => ?_
  rw [getLsbD_linear _ _ hi, parity_eq, parity_eq]
  calc xorBits 8 (productRow outer inner i &&& x).getLsbD
      = xorBits 8 fun k => xorBits 8 fun input =>
          (rowOf outer i).getLsbD input && ((rowOf inner input).getLsbD k && x.getLsbD k) :=
        xorBits_congr fun k _ => by
          rw [BitVec.getLsbD_and, getLsbD_productRow, Bool.and_comm, and_xorBits]
          exact xorBits_congr fun _ _ => by
            rw [Bool.and_comm, Bool.and_assoc]
    _ = xorBits 8 fun input => xorBits 8 fun k =>
          (rowOf outer i).getLsbD input && ((rowOf inner input).getLsbD k && x.getLsbD k) :=
        xorBits_comm 8 8 _
    _ = xorBits 8 (rowOf outer i &&& linear inner x).getLsbD :=
        xorBits_congr fun input hinput => by
          rw [BitVec.getLsbD_and, getLsbD_linear _ _ hinput, parity_eq, ← and_xorBits]
          exact congrArg _ (xorBits_congr fun _ _ => BitVec.getLsbD_and.symm)

/-! ## The specification -/

/-- `GF2P8AFFINEQB` on one byte: bit `i` is the parity of byte `7 - i` of the matrix and the
operand, plus bit `i` of the addend. -/
def gf2p8affineqb (m : U64) (addend x : U8) : U8 :=
  ofBits 8 fun i => parity (byteAt m (7 - i) &&& x) ^^ addend.getLsbD i

theorem gf2p8affineqb_eq (m : U64) (addend x : U8) :
    gf2p8affineqb m addend x = linear m x ^^^ addend := by
  refine BitVec.eq_of_getLsbD_eq fun i hi => ?_
  rw [gf2p8affineqb, getLsbD_ofBits, BitVec.getLsbD_xor, getLsbD_linear _ _ hi, decide_eq_true hi,
    Bool.true_and]
  rfl

example : gf2p8affineqb reverseMatrix 0 0b11010000 = 0b00001011 := by decide

end Optimizer

end Rustarmic
