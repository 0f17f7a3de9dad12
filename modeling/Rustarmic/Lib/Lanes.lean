import Mathlib.Data.BitVec

/-!
# Lanes of a machine word

A word of `n` bits read as a row of lanes of `w` bits, lane `0` at the low end.

* `lane` — one lane; `ofLanes` — the word with given lanes; `ofBits` — the word with given bits.
* `upTo` — the first lanes of a row, which `ofLanes_upTo_succ` builds up one by one.
* `and_lowMask`, `shiftLeft_sshiftRight` — masking and sign extension as changes of width.
* `xorBits` — whether an odd number of the first bits of a sequence is set: sums over the
  two-element field.

A word is determined by its lanes (`ext_lane`), and a fold of `|||` over words that have no bit in
common can be read off bit by bit (`getLsbD_foldl_or_of_alone`).
-/

set_option autoImplicit false

namespace Lanes

variable {n w : Nat}

/-! ## Folds -/

theorem getLsbD_foldl_or (g : Nat → BitVec n) (k : Nat) (v : BitVec n) (i : Nat) :
    ((List.range k).foldl (fun v j => v ||| g j) v).getLsbD i =
      (v.getLsbD i || (List.range k).any fun j => (g j).getLsbD i) := by
  induction k with
  | zero => simp
  | succ k ih =>
    rw [List.range_succ, List.foldl_append, List.any_append, List.foldl_cons, List.foldl_nil,
      BitVec.getLsbD_or, ih, Bool.or_assoc]
    simp

/-- Where only one summand has a bit, the fold has it. -/
theorem getLsbD_foldl_or_of_alone {g : Nat → BitVec n} {k j i : Nat} (hj : j < k)
    (h : ∀ a < k, a ≠ j → (g a).getLsbD i = false) :
    ((List.range k).foldl (fun v j => v ||| g j) 0).getLsbD i = (g j).getLsbD i := by
  rw [getLsbD_foldl_or, BitVec.ofNat_eq_ofNat, BitVec.getLsbD_zero, Bool.false_or, Bool.eq_iff_iff,
    List.any_eq_true]
  constructor
  · rintro ⟨a, ha, hbit⟩
    by_cases heq : a = j
    · rwa [heq] at hbit
    · rw [h a (List.mem_range.mp ha) heq] at hbit
      cases hbit
  · exact fun hbit => ⟨j, List.mem_range.mpr hj, hbit⟩

/-- The word with the given bits. -/
def ofBits (n : Nat) (f : Nat → Bool) : BitVec n :=
  (List.range n).foldl (fun v i => v ||| if f i then 1#n <<< i else 0) 0

theorem getLsbD_bit (p : Bool) (k i : Nat) :
    (if p then 1#n <<< k else 0).getLsbD i = (decide (i < n) && (decide (i = k) && p)) := by
  cases p
  · simp
  · rw [if_pos rfl, BitVec.getLsbD_shiftLeft, BitVec.getLsbD_one]
    grind

@[simp] theorem getLsbD_ofBits (f : Nat → Bool) (i : Nat) :
    (ofBits n f).getLsbD i = (decide (i < n) && f i) := by
  by_cases hi : i < n
  · rw [ofBits, getLsbD_foldl_or_of_alone hi]
    · simp only [getLsbD_bit, decide_true, Bool.true_and]
    · intro a _ hne
      rw [getLsbD_bit, decide_eq_false (Ne.symm hne), Bool.false_and, Bool.and_false]
  · rw [BitVec.getLsbD_of_ge _ _ (Nat.le_of_not_lt hi), decide_eq_false hi, Bool.false_and]

/-! ## Lanes -/

/-- Lane `k` of a word, of `w` bits. -/
def lane (w : Nat) (x : BitVec n) (k : Nat) : BitVec w := x.extractLsb' (w * k) w

/-- The word of `n` bits whose lanes of `w` bits are given. -/
def ofLanes (n w : Nat) (f : Nat → BitVec w) : BitVec n :=
  ofBits n fun i => (f (i / w)).getLsbD (i % w)

@[simp] theorem getLsbD_lane (x : BitVec n) (k i : Nat) :
    (lane w x k).getLsbD i = (decide (i < w) && x.getLsbD (w * k + i)) := by
  rw [lane, BitVec.getLsbD_extractLsb']

@[simp] theorem getLsbD_ofLanes (f : Nat → BitVec w) (i : Nat) :
    (ofLanes n w f).getLsbD i = (decide (i < n) && (f (i / w)).getLsbD (i % w)) := by
  rw [ofLanes, getLsbD_ofBits]

theorem lane_ofLanes (f : Nat → BitVec w) {k : Nat} (h : w * k + w ≤ n) :
    lane w (ofLanes n w f) k = f k := by
  refine BitVec.eq_of_getLsbD_eq fun i hi => ?_
  have hdiv : (w * k + i) / w = k := by
    rw [Nat.mul_add_div (by omega), Nat.div_eq_of_lt hi, Nat.add_zero]
  rw [getLsbD_lane, getLsbD_ofLanes, hdiv, Nat.mul_add_mod, Nat.mod_eq_of_lt hi,
    decide_eq_true hi, decide_eq_true (by omega : w * k + i < n), Bool.true_and, Bool.true_and]

/-- A bit of a word is a bit of the lane it is in. -/
theorem getLsbD_eq_lane (x : BitVec n) (hw : 0 < w) (i : Nat) :
    x.getLsbD i = (lane w x (i / w)).getLsbD (i % w) := by
  rw [getLsbD_lane, decide_eq_true (Nat.mod_lt i hw), Bool.true_and, Nat.div_add_mod]

theorem ext_lane {x y : BitVec n} (hw : 0 < w) (h : ∀ k, w * k < n → lane w x k = lane w y k) :
    x = y := by
  refine BitVec.eq_of_getLsbD_eq fun i hi => ?_
  have hk : w * (i / w) < n := Nat.lt_of_le_of_lt (Nat.mul_div_le i w) hi
  rw [getLsbD_eq_lane x hw, getLsbD_eq_lane y hw, h _ hk]

section bitwise

variable (x y : BitVec n) (k : Nat)

theorem lane_and : lane w (x &&& y) k = lane w x k &&& lane w y k := by
  rw [lane, lane, lane, BitVec.extractLsb'_and]

theorem lane_or : lane w (x ||| y) k = lane w x k ||| lane w y k := by
  rw [lane, lane, lane, BitVec.extractLsb'_or]

theorem lane_xor : lane w (x ^^^ y) k = lane w x k ^^^ lane w y k := by
  rw [lane, lane, lane, BitVec.extractLsb'_xor]

theorem lane_not (h : w * k + w ≤ n) : lane w (~~~x) k = ~~~lane w x k := by
  refine BitVec.eq_of_getLsbD_eq fun i hi => ?_
  simp only [getLsbD_lane, BitVec.getLsbD_not, decide_eq_true hi, Bool.true_and,
    decide_eq_true (by omega : w * k + i < n)]

end bitwise

/-! ## Rows built up lane by lane -/

/-- The first `k` lanes of a row, and zeros. -/
def upTo (k : Nat) (f : Nat → BitVec w) : Nat → BitVec w := fun j => if j < k then f j else 0

theorem upTo_congr {k : Nat} {f g : Nat → BitVec w} (h : ∀ j < k, f j = g j) : upTo k f = upTo k g := by
  refine funext fun j => ?_
  rw [upTo, upTo]
  split_ifs with hj
  · exact h j hj
  · rfl

/-- All lanes. -/
theorem ofLanes_upTo_of_le {k : Nat} (hw : 0 < w) (h : n ≤ w * k) (f : Nat → BitVec w) :
    ofLanes n w (upTo k f) = ofLanes n w f := by
  refine BitVec.eq_of_getLsbD_eq fun i hi => ?_
  rw [getLsbD_ofLanes, getLsbD_ofLanes, upTo, if_pos ((Nat.div_lt_iff_lt_mul hw).mpr ?_)]
  rw [Nat.mul_comm]
  omega

theorem ofLanes_upTo_zero (f : Nat → BitVec w) : ofLanes n w (upTo 0 f) = 0 := by
  refine BitVec.eq_of_getLsbD_eq fun i hi => ?_
  simp [upTo]

/-- One more lane, put in with a shift. -/
theorem ofLanes_upTo_succ (f : Nat → BitVec w) {k : Nat} (hw : 0 < w) :
    ofLanes n w (upTo (k + 1) f) =
      ofLanes n w (upTo k f) ||| ((f k).setWidth n <<< (k * w)) := by
  refine BitVec.eq_of_getLsbD_eq fun i hi => ?_
  rw [BitVec.getLsbD_or, getLsbD_ofLanes, getLsbD_ofLanes, BitVec.getLsbD_shiftLeft,
    BitVec.getLsbD_setWidth, upTo, upTo]
  simp only [decide_eq_true hi, Bool.true_and]
  rcases Nat.lt_trichotomy (i / w) k with hlt | heq | hgt
  · have hi' : i < k * w := (Nat.div_lt_iff_lt_mul hw).mp hlt
    rw [if_pos (by omega), if_pos hlt, decide_eq_true hi', Bool.not_true, Bool.false_and,
      Bool.or_false]
  · have hmod : i - k * w = i % w := by
      have := Nat.div_add_mod i w
      rw [heq, Nat.mul_comm] at this
      omega
    have hi' : ¬ i < k * w := by
      rw [← heq]
      exact Nat.not_lt.mpr (Nat.div_mul_le_self i w)
    rw [if_pos (by omega), if_neg (by omega), decide_eq_false hi', hmod, heq,
      decide_eq_true (by have := Nat.mod_le i w; omega : i % w < n)]
    simp
  · have hi' : k * w + w ≤ i := by
      have := (Nat.le_div_iff_mul_le hw).mp hgt
      rwa [Nat.succ_mul] at this
    rw [if_neg (by omega), if_neg (by omega),
      BitVec.getLsbD_of_ge (f k) (i - k * w) (by omega)]
    simp

/-! ## The low bits -/

theorem and_lowMask (h : w < n) (x : BitVec n) :
    x &&& ((1#n <<< w) - 1#n) = (x.setWidth w).setWidth n := by
  refine BitVec.eq_of_toNat_eq ?_
  have hpow : 2 ^ w < 2 ^ n := Nat.pow_lt_pow_right (by decide) h
  have hpos := Nat.two_pow_pos w
  have hmask : ((1#n <<< w) - 1#n).toNat = 2 ^ w - 1 := by
    rw [BitVec.toNat_sub, BitVec.toNat_shiftLeft, BitVec.toNat_one (by omega), Nat.shiftLeft_eq,
      Nat.one_mul, Nat.mod_eq_of_lt hpow,
      (by omega : 2 ^ n - 1 + 2 ^ w = 2 ^ n + (2 ^ w - 1)), Nat.add_mod_left,
      Nat.mod_eq_of_lt (by omega)]
  have hlt := Nat.mod_lt x.toNat hpos
  rw [BitVec.toNat_and, hmask, Nat.and_two_pow_sub_one_eq_mod, BitVec.toNat_setWidth,
    BitVec.toNat_setWidth, Nat.mod_eq_of_lt (by omega : x.toNat % 2 ^ w < 2 ^ n)]

theorem setWidth_ofInt (h : w ≤ n) (v : Int) : (BitVec.ofInt n v).setWidth w = BitVec.ofInt w v := by
  refine BitVec.eq_of_toNat_eq ?_
  have hpos : (0 : Int) < (2 ^ n : Nat) := by exact_mod_cast Nat.two_pow_pos n
  have hdvd : ((2 ^ w : Nat) : Int) ∣ (2 ^ n : Nat) := by exact_mod_cast Nat.pow_dvd_pow 2 h
  have hmod : (((v % (2 ^ n : Nat)).toNat % 2 ^ w : Nat) : Int) = v % (2 ^ w : Nat) := by
    rw [Int.natCast_emod, Int.toNat_of_nonneg (Int.emod_nonneg _ hpos.ne'),
      Int.emod_emod_of_dvd _ hdvd]
  rw [BitVec.toNat_setWidth, BitVec.toNat_ofInt, BitVec.toNat_ofInt]
  omega

/-- Sign extension by two shifts. -/
theorem shiftLeft_sshiftRight (h : w ≤ n) (x : BitVec n) :
    (x <<< (n - w)).sshiftRight (n - w) = (x.setWidth w).signExtend n := by
  refine BitVec.eq_of_getLsbD_eq fun i hi => ?_
  by_cases hlow : i < w
  · rw [BitVec.getLsbD_sshiftRight, BitVec.getLsbD_signExtend, BitVec.getLsbD_setWidth,
      BitVec.getLsbD_shiftLeft]
    have h1 : n - w + i < n := by omega
    have h2 : ¬ n ≤ i := by omega
    have h3 : ¬ n - w + i < n - w := by omega
    simp [h1, h2, h3, hlow, hi]
  · have hmsb : (x <<< (n - w)).msb = (x.setWidth w).msb := by
      rw [BitVec.msb_eq_getLsbD_last, BitVec.msb_eq_getLsbD_last, BitVec.getLsbD_shiftLeft,
        BitVec.getLsbD_setWidth]
      rcases Nat.eq_zero_or_pos w with rfl | hpos
      · simp
      · have h1 : ¬ n - 1 < n - w := by omega
        have h2 : n - 1 - (n - w) = w - 1 := by omega
        have h3 : n - 1 < n := by omega
        have h4 : w - 1 < w := by omega
        simp [h1, h2, h3, h4]
    have h1 : ¬ n - w + i < n := by omega
    have h2 : ¬ n ≤ i := by omega
    rw [BitVec.getLsbD_sshiftRight, BitVec.getLsbD_signExtend]
    simp [h1, h2, hlow, hi, hmsb]
/-! ## Sums over the two-element field -/

/-- Whether an odd number of the first `n` members of a sequence is set. -/
def xorBits (n : Nat) (f : Nat → Bool) : Bool := (List.range n).foldl (fun p k => p ^^ f k) false

@[simp] theorem xorBits_zero (f : Nat → Bool) : xorBits 0 f = false := rfl

theorem xorBits_succ (n : Nat) (f : Nat → Bool) : xorBits (n + 1) f = (xorBits n f ^^ f n) := by
  rw [xorBits, List.range_succ, List.foldl_append]
  rfl

theorem xorBits_congr {f g : Nat → Bool} (h : ∀ k < n, f k = g k) : xorBits n f = xorBits n g := by
  induction n with
  | zero => rfl
  | succ n ih =>
    rw [xorBits_succ, xorBits_succ, ih fun k hk => h k (Nat.lt_succ_of_lt hk),
      h n (Nat.lt_succ_self n)]

theorem xorBits_false (n : Nat) : xorBits n (fun _ => false) = false := by
  induction n with
  | zero => rfl
  | succ n ih => rw [xorBits_succ, ih, Bool.xor_false]

theorem xorBits_xor (n : Nat) (f g : Nat → Bool) :
    xorBits n (fun k => f k ^^ g k) = (xorBits n f ^^ xorBits n g) := by
  induction n with
  | zero => rfl
  | succ n ih =>
    rw [xorBits_succ, xorBits_succ, xorBits_succ, ih, Bool.xor_assoc, Bool.xor_assoc,
      Bool.xor_left_comm (xorBits n g)]

theorem and_xorBits (n : Nat) (p : Bool) (f : Nat → Bool) :
    (p && xorBits n f) = xorBits n fun k => p && f k := by
  cases p
  · simp only [Bool.false_and, xorBits_false]
  · simp only [Bool.true_and]

/-- Only the summand at `j` counts. -/
theorem xorBits_single {f : Nat → Bool} {j : Nat} (hj : j < n) (h : ∀ k < n, k ≠ j → f k = false) :
    xorBits n f = f j := by
  induction n with
  | zero => omega
  | succ n ih =>
    rw [xorBits_succ]
    by_cases heq : j = n
    · rw [heq, xorBits_congr (fun k hk => h k (Nat.lt_succ_of_lt hk) (by omega)), xorBits_false,
        Bool.false_xor]
    · rw [ih (by omega) fun k hk => h k (Nat.lt_succ_of_lt hk),
        h n (Nat.lt_succ_self n) (Ne.symm heq), Bool.xor_false]

/-- The order of two sums does not matter. -/
theorem xorBits_comm (n m : Nat) (f : Nat → Nat → Bool) :
    xorBits n (fun i => xorBits m fun j => f i j) =
      xorBits m (fun j => xorBits n fun i => f i j) := by
  induction n with
  | zero => simp only [xorBits_zero, xorBits_false]
  | succ n ih => simp only [xorBits_succ, ih, xorBits_xor]

end Lanes
