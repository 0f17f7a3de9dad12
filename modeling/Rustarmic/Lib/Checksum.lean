import Mathlib.Data.BitVec
import Mathlib.Logic.Function.Iterate

/-!
# Cyclic checksums

The remainder of a word by a polynomial over the two-element field, in the two orders it is computed
in: from the highest bit down, the polynomial moving with the bit, and from the lowest bit up, the
word moving instead, a byte at a time.

* `reduce` — from the highest bit down.
* `step` — one bit from the lowest up; `bytes` — a byte at a time.
* `bytes_eq` — bytes one after another are one long word.
* `getLsbD_reduce` — the two orders give reversed remainders.
-/

set_option autoImplicit false

namespace Checksum

variable {r w n : Nat}

/-! ## The two orders -/

/-- Reduce bits `r + k - 1` down to `r`. -/
def reduce (poly : BitVec r) : Nat → BitVec n → BitVec n
  | 0, data => data
  | k + 1, data =>
    reduce poly k (if data.getLsbD (r + k) then data ^^^ (poly.setWidth n <<< k) else data)

/-- One bit, in a register that may be wider than the polynomial. -/
def step (poly : BitVec r) (x : BitVec w) : BitVec w :=
  (x >>> 1) ^^^ if x.getLsbD 0 then poly.setWidth w else 0

/-- The lowest `k` bytes of `data`. -/
def bytes (poly : BitVec r) : Nat → BitVec r → BitVec n → BitVec r
  | 0, acc, _ => acc
  | k + 1, acc, data =>
    bytes poly k ((step poly)^[8] (acc ^^^ (data.setWidth 8).setWidth r)) (data >>> 8)

/-! ## Linearity -/

variable {poly : BitVec r}

theorem getLsbD_step (x : BitVec w) {i : Nat} (hi : i < w) : (step poly x).getLsbD i =
    (x.getLsbD (i + 1) ^^ (x.getLsbD 0 && poly.getLsbD i)) := by
  rw [step, BitVec.getLsbD_xor, BitVec.getLsbD_ushiftRight, Nat.add_comm]
  cases x.getLsbD 0 <;> simp [hi]

theorem step_xor (x y : BitVec w) : step poly (x ^^^ y) = step poly x ^^^ step poly y := by
  refine BitVec.eq_of_getLsbD_eq fun i hi => ?_
  rw [BitVec.getLsbD_xor, getLsbD_step _ hi, getLsbD_step _ hi, getLsbD_step _ hi, BitVec.getLsbD_xor,
    BitVec.getLsbD_xor]
  cases x.getLsbD 0 <;> cases y.getLsbD 0 <;> cases poly.getLsbD i <;> simp

theorem steps_xor (k : Nat) (x y : BitVec w) :
    (step poly)^[k] (x ^^^ y) = (step poly)^[k] x ^^^ (step poly)^[k] y := by
  induction k generalizing x y with
  | zero => rfl
  | succ k ih => rw [Function.iterate_succ_apply, step_xor, ih]; rfl

/-- Clear bits only move. -/
theorem steps_of_clear {k : Nat} {x : BitVec w} (h : ∀ i < k, x.getLsbD i = false) :
    (step poly)^[k] x = x >>> k := by
  induction k generalizing x with
  | zero => exact (BitVec.ushiftRight_zero x).symm
  | succ k ih =>
    have hstep : step poly x = x >>> 1 := by
      rw [step, h 0 (Nat.succ_pos k), if_neg Bool.false_ne_true, BitVec.ofNat_eq_ofNat, BitVec.xor_zero]
    rw [Function.iterate_succ_apply, hstep, ih, ← BitVec.shiftRight_add, Nat.add_comm]
    intro i hi
    rw [BitVec.getLsbD_ushiftRight]
    exact h _ (by omega)

/-- A narrow register in a wide one. -/
theorem steps_setWidth (h : r ≤ w) (k : Nat) (x : BitVec r) :
    (step poly)^[k] (x.setWidth w) = ((step poly)^[k] x).setWidth w := by
  induction k generalizing x with
  | zero => rfl
  | succ k ih =>
    have hstep : step poly (x.setWidth w) = (step poly x).setWidth w := by
      refine BitVec.eq_of_getLsbD_eq fun i hi => ?_
      rw [getLsbD_step _ hi, BitVec.getLsbD_setWidth, BitVec.getLsbD_setWidth, BitVec.getLsbD_setWidth,
        decide_eq_true hi, Bool.true_and, decide_eq_true (by omega : 0 < w), Bool.true_and]
      by_cases hr : i < r
      · rw [getLsbD_step _ hr]
        by_cases hlast : i + 1 < w
        · simp [hlast]
        · simp [BitVec.getLsbD_of_ge x (i + 1) (by omega)]
      · simp [BitVec.getLsbD_of_ge, Nat.not_lt.mp hr, Nat.le_succ_of_le (Nat.not_lt.mp hr)]
    rw [Function.iterate_succ_apply, hstep, ih, Function.iterate_succ_apply]

/-! ## Bytes -/

/-- **Bytes one after another are one long word.** -/
theorem bytes_eq (hr : 8 ≤ r) (k : Nat) (hk : 8 * k + r ≤ w) (acc : BitVec r) (data : BitVec n) :
    (bytes poly k acc data).setWidth w =
      (step poly)^[8 * k] (acc.setWidth w ^^^ (data.setWidth (8 * k)).setWidth w) := by
  induction k generalizing acc data with
  | zero =>
    have h0 : (data.setWidth (8 * 0)).setWidth w = 0#w := by
      rw [BitVec.eq_nil (data.setWidth (8 * 0))]
      exact BitVec.setWidth_zero w 0
    rw [h0, BitVec.xor_zero, bytes, Function.iterate_zero, id_eq]
  | succ k ih =>
    rw [bytes, ih (by omega), ← steps_setWidth (by omega), show 8 * (k + 1) = 8 * k + 8 by omega,
      Function.iterate_add_apply]
    have hrest : (step poly)^[8] (((data >>> 8).setWidth (8 * k)).setWidth w <<< 8) =
        ((data >>> 8).setWidth (8 * k)).setWidth w := by
      rw [steps_of_clear fun i hi => by simp [hi]]
      refine BitVec.eq_of_getLsbD_eq fun i hi => ?_
      simp only [BitVec.getLsbD_ushiftRight, BitVec.getLsbD_shiftLeft, BitVec.getLsbD_setWidth]
      by_cases h : i < 8 * k
      · simp [h, hi]
        omega
      · simp [h]
    have hsplit : acc.setWidth w ^^^ (data.setWidth (8 * k + 8)).setWidth w =
        (acc ^^^ (data.setWidth 8).setWidth r).setWidth w ^^^
          ((data >>> 8).setWidth (8 * k)).setWidth w <<< 8 := by
      refine BitVec.eq_of_getLsbD_eq fun i hi => ?_
      simp only [BitVec.getLsbD_xor, BitVec.getLsbD_shiftLeft, BitVec.getLsbD_setWidth,
        BitVec.getLsbD_ushiftRight]
      by_cases h : i < 8
      · simp [h, hi, Nat.lt_of_lt_of_le h hr, (by omega : i < 8 * k + 8)]
      · have h1 : 8 + (i - 8) = i := by omega
        have h2 : i < 8 * k + 8 ↔ i - 8 < 8 * k := by omega
        simp [h, hi, h1, h2, (by omega : i - 8 < w)]
    rw [hsplit, steps_xor 8, hrest]

/-! ## Reversal -/

/-- The remainders are each other's reversal. -/
theorem getLsbD_reduce {k : Nat} (hw : r + k ≤ w) {data : BitVec n} (hn : r + k ≤ n) {x : BitVec w}
    (h : ∀ i < r + k, x.getLsbD i = data.getLsbD (r + k - 1 - i)) {i : Nat} (hi : i < r) :
    ((step poly.reverse)^[k] x).getLsbD i = (reduce poly k data).getLsbD (r - 1 - i) := by
  induction k generalizing x data with
  | zero => exact h i hi
  | succ k ih =>
    rw [Function.iterate_succ_apply, reduce]
    refine ih (by omega) (by omega) fun j hj => ?_
    have hlow : x.getLsbD 0 = data.getLsbD (r + k) := by
      rw [h 0 (by omega)]
      congr 1
    have hpoly : poly.reverse.getLsbD j = (poly.setWidth n <<< k).getLsbD (r + k - 1 - j) := by
      rw [BitVec.getLsbD_reverse, BitVec.getMsbD_eq_getLsbD, BitVec.getLsbD_shiftLeft,
        BitVec.getLsbD_setWidth, decide_eq_true (by omega : r + k - 1 - j < n)]
      by_cases hjr : j < r
      · rw [decide_eq_true hjr, decide_eq_false (by omega : ¬ r + k - 1 - j < k),
          decide_eq_true (by omega : r + k - 1 - j - k < n), show r + k - 1 - j - k = r - 1 - j by omega]
        rfl
      · rw [decide_eq_false hjr, decide_eq_true (by omega : r + k - 1 - j < k)]
        rfl
    rw [getLsbD_step _ (by omega), h (j + 1) (by omega), hlow, hpoly,
      show r + (k + 1) - 1 - (j + 1) = r + k - 1 - j by omega]
    cases data.getLsbD (r + k) <;> simp [BitVec.getLsbD_xor]

end Checksum
