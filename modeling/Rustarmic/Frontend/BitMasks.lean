import Rustarmic.Frontend.Bitfield
import Rustarmic.Guest.DataProcessing
import Rustarmic.Lib.WhileLoop

/-!
# The masks of logical immediates

An immediate of AND, ORR, EOR and ANDS is thirteen bits that stand for a mask: a run of ones in an
element of 2, 4, 8, 16, 32 or 64 bits, rotated in the element, and the element repeated over the
register.  The source has a function for this, `decode_bit_masks`, with a loop over the elements;
the manual defines it by `Replicate` and `ROR`.

* `decodeBitMasks` — the function of the source: a run of ones, rotated in its element, and the
  element repeated over the register.
* `decodeBitMasks_eq` — the mask of the architecture.

Three things have to be compared.  The element's size comes from the highest set bit of
`N:NOT(imms)` on both sides.  The rotation is two shifts and a mask in the source, which is a
rotation in the element since the run is shorter than the element (`welemRotated_eq`); for a
rotation by zero the source shifts nothing, as it would have to shift by the whole width.  The loop
ors in one element after another, and the elements do not overlap (`fillMask_eq`).

A run that fills its element is reserved on both sides, and `decodeBitMasks_eq` includes that, both
results being `none` there.  An element of 64 bits in a 32-bit register is reserved by the
instructions and not by the function, so that the theorem leaves it out.
-/

set_option autoImplicit false

namespace Rustarmic

/-- The loop that repeats an element over `width` bits. -/
def fillMask (elem : U64) (esize width : Nat) : Option (U64 × Nat) :=
  WhileLoop.run (fun s => decide (s.2 < width)) (fun s => (s.1 ||| elem <<< s.2, s.2 + esize))
    (width + 1) (0, 0)

/-- All bits of an element. -/
def elementMask (esize : Nat) : U64 := if esize = 64 then BitVec.allOnes 64 else (1#64 <<< esize) - 1

def decodeBitMasks (n imms immr width : Nat) : Option U64 :=
  let combined := (n <<< 6) ||| (63 - imms)
  if combined = 0 then none
  else
    let len := combined.log2
    if len < 1 then none
    else if width < 1 <<< len then none
    else
      let levels := (1 <<< len) - 1
      let s := imms &&& levels
      let r := immr &&& levels
      if s = levels then none
      else
        let esize := 1 <<< len
        let welem : U64 := (1#64 <<< (s + 1)) - 1
        let welemRotated : U64 :=
          if r = 0 then welem else ((welem >>> r) ||| (welem <<< (esize - r))) &&& elementMask esize
        (fillMask (welemRotated &&& elementMask esize) esize width).map fun out =>
          if width = 32 then out.1 &&& 0xFFFFFFFF else out.1

/-! ## The element -/

open Guest

/-- The run of ones in its element, rotated. -/
def rotatedRun (esize s r : Nat) : BitVec esize := (lowOnes esize (s + 1)).rotateRight r

theorem elementMask_eq {esize : Nat} (h : esize ≤ 64) : elementMask esize = lowOnes 64 esize := by
  rw [elementMask]
  split
  · next heq =>
    rw [heq]
    exact (BitVec.setWidth_eq _).symm
  · exact BitfieldInsn.mask_eq (by omega)

/-- The two shifts rotate in the element. -/
theorem welemRotated_eq {esize s r : Nat} (hesize : esize ≤ 64) (hs : s + 1 < esize) (hr : r < esize) :
    ((if r = 0 then (1#64 <<< (s + 1)) - 1
      else (((1#64 <<< (s + 1)) - 1) >>> r ||| ((1#64 <<< (s + 1)) - 1) <<< (esize - r)) &&&
        elementMask esize) &&& elementMask esize : U64) = (rotatedRun esize s r).setWidth 64 := by
  have hrun : ((1#64 <<< (s + 1)) - 1 : U64) = lowOnes 64 (s + 1) := BitfieldInsn.mask_eq (by omega)
  have hones (j : Nat) : (lowOnes 64 (s + 1)).getLsbD j = decide (j < s + 1) := by
    by_cases hj : j < 64
    · exact getLsbD_lowOnes hj _
    · rw [BitVec.getLsbD_of_ge _ _ (by omega), decide_eq_false (by omega)]
  rw [hrun, elementMask_eq hesize, rotatedRun]
  refine BitVec.eq_of_getLsbD_eq fun j hj => ?_
  rw [BitVec.getLsbD_and, getLsbD_lowOnes hj, BitVec.getLsbD_setWidth, decide_eq_true hj, Bool.true_and]
  by_cases hin : j < esize
  · rw [decide_eq_true hin, Bool.and_true, getLsbD_rotateRight_eq hr hin]
    by_cases hzero : r = 0
    · rw [if_pos hzero, hones, if_pos (by omega), getLsbD_lowOnes (by omega), hzero, Nat.zero_add]
    · rw [if_neg hzero, BitVec.getLsbD_and, getLsbD_lowOnes hj, decide_eq_true hin, Bool.and_true,
        BitVec.getLsbD_or, BitVec.getLsbD_ushiftRight, BitVec.getLsbD_shiftLeft, hones, hones,
        decide_eq_true hj, Bool.true_and]
      by_cases hlow : j < esize - r
      · rw [if_pos hlow, decide_eq_true hlow, getLsbD_lowOnes (by omega), Bool.not_true, Bool.false_and,
          Bool.or_false]
      · rw [if_neg hlow, decide_eq_false hlow, getLsbD_lowOnes (by omega),
          decide_eq_false (by omega : ¬ r + j < s + 1), Bool.not_false, Bool.true_and, Bool.false_or]
  · rw [decide_eq_false hin, Bool.and_false, BitVec.getLsbD_of_ge _ j (by omega)]

/-! ## The loop -/

/-- After `m` rounds the first `m` elements are there. -/
theorem fillMask_iterate {esize : Nat} (hpos : 0 < esize) (elem : BitVec esize) (m : Nat) :
    (fun s : U64 × Nat => (s.1 ||| elem.setWidth 64 <<< s.2, s.2 + esize))^[m] (0, 0) =
      (Lanes.ofLanes 64 esize (Lanes.upTo m fun _ => elem), m * esize) := by
  induction m with
  | zero => rw [Function.iterate_zero_apply, Lanes.ofLanes_upTo_zero, Nat.zero_mul]
  | succ m ih => rw [Function.iterate_succ_apply', ih, Lanes.ofLanes_upTo_succ _ hpos, Nat.succ_mul]

/-- **The element is repeated.** -/
theorem fillMask_eq {esize : Nat} (hpos : 0 < esize) (elem : BitVec esize) (k : Nat) :
    fillMask (elem.setWidth 64) esize (k * esize) =
      some (Lanes.ofLanes 64 esize (Lanes.upTo k fun _ => elem), k * esize) := by
  have hfuel : k * esize + 1 = k * esize - k + k + 1 := by
    have := Nat.le_mul_of_pos_right k hpos
    omega
  have hiter := fillMask_iterate hpos elem
  rw [fillMask, hfuel, @WhileLoop.run_eq_some _ _ _ _ k, hiter]
  · rw [hiter]
    exact decide_eq_false (Nat.lt_irrefl _)
  · intro j hj
    rw [hiter]
    exact decide_eq_true (Nat.mul_lt_mul_of_pos_right hj hpos)

/-! ## The mask -/

/-- **The mask of the architecture**, and the same immediates rejected. -/
theorem decodeBitMasks_eq (size : Nat) (hsize : size = 32 ∨ size = 64) {n imms immr : Nat} (hn : n < 2)
    (himms : imms < 64) (hreserved : size = 32 → n = 0) :
    decodeBitMasks n imms immr size = (Guest.decodeBitMasks size n imms immr).map (BitVec.setWidth 64) := by
  have hcombined : (n <<< 6) ||| (63 - imms) = 64 * n + (63 - imms) := by
    rw [← Nat.shiftLeft_add_eq_or_of_lt (by omega : 63 - imms < 2 ^ 6), Nat.shiftLeft_eq, Nat.mul_comm]
  rw [decodeBitMasks, Guest.decodeBitMasks, hcombined]
  generalize hc : 64 * n + (63 - imms) = combined
  by_cases hzero : combined = 0
  · rw [if_pos hzero, hzero]
    rfl
  rw [if_neg hzero]
  dsimp only
  have hdvd : 2 ^ combined.log2 ∣ size := by
    rcases hsize with hsize | hsize
    · have hlen := (Nat.log2_lt (k := 6) hzero).mpr (by have := hreserved hsize; omega)
      rw [hsize]
      exact Nat.pow_dvd_pow 2 (n := 5) (by omega)
    · have hlen := (Nat.log2_lt (k := 7) hzero).mpr (by omega)
      rw [hsize]
      exact Nat.pow_dvd_pow 2 (n := 6) (by omega)
  generalize combined.log2 = len at hdvd
  by_cases hlen : len < 1
  · rw [if_pos hlen, if_pos (Or.inl hlen)]
    rfl
  have hle : 2 ^ len ≤ size := Nat.le_of_dvd (by omega) hdvd
  rw [if_neg hlen, Nat.one_shiftLeft, if_neg (Nat.not_lt.mpr hle)]
  by_cases hs : imms &&& (2 ^ len - 1) = 2 ^ len - 1
  · rw [if_pos hs, if_pos (Or.inr hs)]
    rfl
  rw [if_neg hs, if_neg (not_or.mpr ⟨hlen, hs⟩)]
  have hpos : 0 < 2 ^ len := Nat.two_pow_pos len
  have hrun : (imms &&& (2 ^ len - 1)) + 1 < 2 ^ len := by
    have := Nat.and_le_right (n := imms) (m := 2 ^ len - 1)
    omega
  have hrot : immr &&& (2 ^ len - 1) < 2 ^ len := by
    have := Nat.and_le_right (n := immr) (m := 2 ^ len - 1)
    omega
  generalize imms &&& (2 ^ len - 1) = s at hrun
  generalize immr &&& (2 ^ len - 1) = r at hrot
  obtain ⟨k, hk⟩ := hdvd
  have hfill := fillMask_eq hpos (rotatedRun (2 ^ len) s r) k
  rw [Nat.mul_comm, ← hk] at hfill
  rw [welemRotated_eq (by omega) hrun hrot, hfill, Option.map_some, Option.map_some]
  refine congrArg some (BitVec.eq_of_getLsbD_eq fun i hi => ?_)
  have hout : (Lanes.ofLanes 64 (2 ^ len) (Lanes.upTo k fun _ => rotatedRun (2 ^ len) s r)).getLsbD i =
      (decide (i < size) && (rotatedRun (2 ^ len) s r).getLsbD (i % 2 ^ len)) := by
    rw [Lanes.getLsbD_ofLanes, decide_eq_true hi, Bool.true_and, Lanes.upTo]
    have hcount : i / 2 ^ len < k ↔ i < size := by rw [Nat.div_lt_iff_lt_mul hpos, hk, Nat.mul_comm]
    by_cases hin : i < size
    · rw [if_pos (hcount.mpr hin), decide_eq_true hin, Bool.true_and]
    · rw [if_neg (mt hcount.mp hin), decide_eq_false hin, Bool.false_and]
      exact BitVec.getLsbD_zero
  rw [BitVec.getLsbD_setWidth, decide_eq_true hi, Bool.true_and, Lanes.getLsbD_ofBits]
  refine Eq.trans ?_ hout
  split
  · next h32 =>
    have hcut : (0xFFFFFFFF : U64).getLsbD i = decide (i < 32) :=
      (by decide : ∀ j < 64, (0xFFFFFFFF : U64).getLsbD j = decide (j < 32)) i hi
    rw [BitVec.getLsbD_and, hcut, hout, h32]
    by_cases hin : i < 32 <;> simp [hin]
  · rfl

end Rustarmic
