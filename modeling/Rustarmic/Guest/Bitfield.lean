import Rustarmic.Lib.Lanes

/-!
# Bitfield moves as the architecture defines them

`bitfieldMove` is the common definition of BFM, UBFM and SBFM on registers of `N` bits: rotate the
source, choose with `wmask` what of it is taken, and with `tmask` where the destination or the sign
bit stands above it.

* `getLsbD_bitfieldMove` — the result bit by bit: a field, and what surrounds it.
* `extracted`, `inserted` — the field by shifts and masks.

The manual's definition is compact because it has no case for the direction.  If `R ≤ S`, bits `R`
to `S` of the source move down to bit 0; otherwise bits 0 to `S` move up to bit `N - R`.  A
translator has to choose, and emits shifts and masks for each direction, without a rotation.

Both are compared bit by bit and not by identities of masks.  `getLsbD_bitfieldMove` gives a bit of
the manual's result, and the lemmas of the second part give a bit of each shift or mask, with the
same conditions on the index; what is left are comparisons of numbers.
-/

set_option autoImplicit false

namespace Rustarmic
namespace Guest

variable {N : Nat}

/-- `Ones(k)`, extended to `N` bits. -/
def lowOnes (N k : Nat) : BitVec N := (BitVec.allOnes k).setWidth N

/-- The two masks of `DecodeBitMasks` for elements as wide as the register. -/
def wmask (N S R : Nat) : BitVec N := (lowOnes N (S + 1)).rotateRight R

def tmask (N S R : Nat) : BitVec N := lowOnes N ((S + N - R) % N + 1)

/-- A bitfield move; `inzero` for the forms that do not keep the destination, `extend` for the one
that repeats bit `S` of the source. -/
def bitfieldMove (inzero extend : Bool) (R S : Nat) (src dst : BitVec N) : BitVec N :=
  let dst := if inzero then 0 else dst
  let bot := (dst &&& ~~~wmask N S R) ||| (src.rotateRight R &&& wmask N S R)
  let top := if extend then if src.getLsbD S then BitVec.allOnes N else 0 else dst
  (top &&& ~~~tmask N S R) ||| (bot &&& tmask N S R)

theorem getLsbD_lowOnes {i : Nat} (hi : i < N) (k : Nat) : (lowOnes N k).getLsbD i = decide (i < k) := by
  rw [lowOnes, BitVec.getLsbD_setWidth, BitVec.getLsbD_allOnes, decide_eq_true hi, Bool.true_and]

/-- A bit of a rotated word. -/
theorem getLsbD_rotateRight_eq {i R : Nat} (hR : R < N) (hi : i < N) (x : BitVec N) :
    (x.rotateRight R).getLsbD i = x.getLsbD (if i < N - R then R + i else i - (N - R)) := by
  rw [BitVec.getLsbD_rotateRight_of_lt hR]
  by_cases h : i < N - R
  · rw [if_pos h, decide_eq_true h, cond_true]
  · rw [if_neg h, decide_eq_false h, cond_false, decide_eq_true hi, Bool.true_and]

variable {R S i : Nat} (inzero extend : Bool) (src dst : BitVec N)

/-- What stands below and between: the destination or zero. -/
def around (inzero : Bool) (dst : BitVec N) (i : Nat) : Bool := !inzero && dst.getLsbD i

/-- What stands above the field. -/
def above (inzero extend : Bool) (S : Nat) (src dst : BitVec N) (i : Nat) : Bool :=
  if extend then src.getLsbD S else around inzero dst i

/-- **The result bit by bit.**  Either bits `R` to `S` move down to bit 0, or the low `S + 1` bits
move up by `N - R`. -/
theorem getLsbD_bitfieldMove (hR : R < N) (hS : S < N) (hi : i < N) :
    (bitfieldMove inzero extend R S src dst).getLsbD i =
      if R ≤ S then
        if i ≤ S - R then src.getLsbD (R + i) else above inzero extend S src dst i
      else if i < N - R then around inzero dst i
      else if i - (N - R) ≤ S then src.getLsbD (i - (N - R)) else above inzero extend S src dst i := by
  have htop : (if extend then if src.getLsbD S then BitVec.allOnes N else 0
      else if inzero then 0 else dst).getLsbD i = above inzero extend S src dst i := by
    cases extend <;> cases inzero <;> cases h : src.getLsbD S <;> simp [above, around, h, hi]
  have hdst : (if inzero then 0 else dst).getLsbD i = around inzero dst i := by
    cases inzero <;> simp [around]
  have hdiff : (S + N - R) % N = if R ≤ S then S - R else S + N - R := by
    split
    · rw [Nat.sub_add_comm (by omega), Nat.add_mod_right, Nat.mod_eq_of_lt (by omega)]
    · rw [Nat.mod_eq_of_lt (by omega)]
  rw [bitfieldMove]
  simp only [BitVec.getLsbD_or, BitVec.getLsbD_and, BitVec.getLsbD_not, htop, hdst, wmask, tmask,
    getLsbD_rotateRight_eq hR hi, getLsbD_lowOnes hi, hdiff, decide_eq_true hi, Bool.true_and]
  by_cases hle : R ≤ S
  · rw [if_pos hle, if_pos hle]
    by_cases hin : i ≤ S - R
    · have hlow : i < N - R := by omega
      have hsel : R + i < S + 1 := by omega
      rw [if_pos hlow, if_pos hin, getLsbD_lowOnes (by omega : R + i < N), decide_eq_true hsel,
        decide_eq_true (by omega : i < S - R + 1)]
      simp
    · rw [if_neg hin, decide_eq_false (by omega : ¬ i < S - R + 1)]
      simp
  · rw [if_neg hle, if_neg hle]
    by_cases hlow : i < N - R
    · rw [if_pos hlow, if_pos hlow, getLsbD_lowOnes (by omega : R + i < N),
        decide_eq_false (by omega : ¬ R + i < S + 1), decide_eq_true (by omega : i < S + N - R + 1)]
      simp
    · rw [if_neg hlow, if_neg hlow, getLsbD_lowOnes (by omega : i - (N - R) < N)]
      by_cases hin : i - (N - R) ≤ S
      · rw [if_pos hin, decide_eq_true (by omega : i - (N - R) < S + 1),
          decide_eq_true (by omega : i < S + N - R + 1)]
        simp
      · rw [if_neg hin, decide_eq_false (by omega : ¬ i < S + N - R + 1)]
        simp

/-! ## The field by shifts and masks -/

/-- The field of an extraction. -/
def extracted (R S : Nat) (src : BitVec N) : BitVec N := (src >>> R) &&& lowOnes N (S - R + 1)

/-- The field of an insertion. -/
def inserted (R S : Nat) (src : BitVec N) : BitVec N := (src &&& lowOnes N (S + 1)) <<< (N - R)

/-- The field, wherever it goes. -/
def field (R S : Nat) (src : BitVec N) : BitVec N :=
  if R ≤ S then extracted R S src else inserted R S src

/-- The highest bit of the field. -/
def fieldTop (N R S : Nat) : Nat := if R ≤ S then S - R else S + N - R

/-- The bits the field takes. -/
def fieldMask (N R S : Nat) : BitVec N :=
  if R ≤ S then lowOnes N (S - R + 1) else lowOnes N (S + 1) <<< (N - R)

theorem getLsbD_field (hi : i < N) : (field R S src).getLsbD i =
    if R ≤ S then decide (i ≤ S - R) && src.getLsbD (R + i)
    else decide (N - R ≤ i) && decide (i - (N - R) ≤ S) && src.getLsbD (i - (N - R)) := by
  rw [field]
  by_cases hle : R ≤ S
  · rw [if_pos hle, if_pos hle, extracted, BitVec.getLsbD_and, BitVec.getLsbD_ushiftRight,
      getLsbD_lowOnes hi, Bool.and_comm]
    simp only [Nat.lt_succ_iff]
  · rw [if_neg hle, if_neg hle, inserted, BitVec.getLsbD_shiftLeft, BitVec.getLsbD_and,
      getLsbD_lowOnes (by omega), decide_eq_true hi]
    by_cases hlow : i < N - R
    · simp [hlow, Nat.not_le.mpr hlow]
    · simp only [hlow, decide_false, Bool.not_false, Bool.and_self, Nat.lt_succ_iff, Bool.true_and,
        Nat.not_lt.mp hlow, decide_true, Bool.and_comm]

theorem getLsbD_fieldMask (hi : i < N) : (fieldMask N R S).getLsbD i =
    if R ≤ S then decide (i ≤ S - R)
    else decide (N - R ≤ i) && decide (i - (N - R) ≤ S) := by
  rw [fieldMask]
  by_cases hle : R ≤ S
  · rw [if_pos hle, if_pos hle, getLsbD_lowOnes hi]
    simp only [Nat.lt_succ_iff]
  · rw [if_neg hle, if_neg hle, BitVec.getLsbD_shiftLeft, getLsbD_lowOnes (by omega),
      decide_eq_true hi]
    by_cases hlow : i < N - R
    · simp [hlow, Nat.not_le.mpr hlow]
    · simp only [hlow, decide_false, Bool.not_false, Bool.and_self, Nat.lt_succ_iff, Bool.true_and,
        Nat.not_lt.mp hlow, decide_true]

/-- UBFM is the field. -/
theorem bitfieldMove_unsigned (hR : R < N) (hS : S < N) :
    bitfieldMove true false R S src dst = field R S src := by
  refine BitVec.eq_of_getLsbD_eq fun i hi => ?_
  rw [getLsbD_bitfieldMove _ _ _ _ hR hS hi, getLsbD_field _ hi]
  simp only [above, around, Bool.not_true, Bool.false_and, Bool.false_eq_true, if_false]
  grind

/-- BFM puts the field into what is left of the destination. -/
theorem bitfieldMove_insert (hR : R < N) (hS : S < N) :
    bitfieldMove false false R S src dst = (dst &&& ~~~fieldMask N R S) ||| field R S src := by
  refine BitVec.eq_of_getLsbD_eq fun i hi => ?_
  rw [getLsbD_bitfieldMove _ _ _ _ hR hS hi, BitVec.getLsbD_or, BitVec.getLsbD_and,
    BitVec.getLsbD_not, getLsbD_field _ hi, getLsbD_fieldMask hi, decide_eq_true hi]
  simp only [above, around, Bool.not_false, Bool.true_and, Bool.false_eq_true, if_false]
  grind

/-- Two shifts repeat a bit upwards. -/
theorem getLsbD_shifts {t : Nat} (ht : t < N) (hi : i < N) (x : BitVec N) :
    ((x <<< (N - 1 - t)).sshiftRight (N - 1 - t)).getLsbD i =
      if i ≤ t then x.getLsbD i else x.getLsbD t := by
  have hamount : N - 1 - t = N - (t + 1) := by omega
  rw [hamount, Lanes.shiftLeft_sshiftRight (by omega), BitVec.getLsbD_signExtend,
    BitVec.msb_eq_getLsbD_last, BitVec.getLsbD_setWidth, BitVec.getLsbD_setWidth, decide_eq_true hi]
  by_cases hle : i ≤ t
  · simp only [Nat.lt_succ_iff, hle, if_true, decide_true, Bool.true_and]
  · simp only [Nat.lt_succ_iff, hle, if_false, Nat.add_one_sub_one, le_refl, decide_true, Bool.true_and]

/-- SBFM repeats the highest bit of the field, which two shifts do. -/
theorem bitfieldMove_signed (hR : R < N) (hS : S < N) :
    bitfieldMove true true R S src dst =
      (field R S src <<< (N - 1 - fieldTop N R S)).sshiftRight (N - 1 - fieldTop N R S) := by
  refine BitVec.eq_of_getLsbD_eq fun i hi => ?_
  have htop : fieldTop N R S < N := by
    rw [fieldTop]
    split <;> omega
  have hsign : (field R S src).getLsbD (fieldTop N R S) = src.getLsbD S := by
    rw [getLsbD_field _ htop, fieldTop]
    split
    · rw [decide_eq_true (Nat.le_refl _), Bool.true_and, Nat.add_sub_cancel' (by omega)]
    · rw [(by omega : S + N - R - (N - R) = S)]
      simp
      omega
  rw [getLsbD_bitfieldMove _ _ _ _ hR hS hi, getLsbD_shifts htop hi, hsign, getLsbD_field _ hi]
  simp only [above, around, Bool.not_true, Bool.false_and, if_true, fieldTop]
  grind

end Guest
end Rustarmic
