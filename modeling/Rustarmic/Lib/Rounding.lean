import Mathlib.Algebra.Order.Ring.Abs
import Mathlib.Data.Int.Log
import Mathlib.Data.Rat.Cast.Order
import Mathlib.Tactic.FieldSimp
import Mathlib.Tactic.Linarith
import Mathlib.Tactic.Positivity
import Mathlib.Tactic.Ring

/-!
# Rounding to integers

The six roundings of a rational number as relations between the number and an integer, and what
hardware keeps of the part that is discarded: the digit behind the integer part, and whether
anything else follows.

* `NearestEven`, `NearestAway`, `Upward`, `Downward`, `TowardZero`, `ToOdd` — the roundings; each
  determines the integer (`NearestEven.unique`, …).
* `Guarded` — a number by its integer part, the next digit and whether anything follows.

The roundings are relations and not functions, since a relation says what is wanted and nothing of
how it is found.  A program is right if its result is related to the exact number, and two programs
that are both right agree, because the relation determines the integer.

Programs keep two bits of what they cut off.  They suffice for every rounding: `Guarded` is the
statement that a number has a given integer part and these two bits, and there is one lemma for each
rounding which says what to do with them.  The bits usually come from a quotient by a power of two
(`guarded_div`), so that shifting a significand gives a guarded number.
-/

set_option autoImplicit false

namespace Rounding

/-! ## The roundings -/

/-- The nearest integer, the even one of two. -/
def NearestEven (x : ℚ) (n : ℤ) : Prop := |x - n| ≤ 1 / 2 ∧ (|x - n| = 1 / 2 → Even n)

/-- The nearest integer, of two the one further from zero. -/
def NearestAway (x : ℚ) (n : ℤ) : Prop := |x - n| ≤ 1 / 2 ∧ (|x - n| = 1 / 2 → |x| < |(n : ℚ)|)

def Upward (x : ℚ) (n : ℤ) : Prop := x ≤ n ∧ (n : ℚ) < x + 1

def Downward (x : ℚ) (n : ℤ) : Prop := (n : ℚ) ≤ x ∧ x < n + 1

def TowardZero (x : ℚ) (n : ℤ) : Prop := (0 ≤ x → Downward x n) ∧ (x ≤ 0 → Upward x n)

/-- An integer itself, else the odd one of its neighbours. -/
def ToOdd (x : ℚ) (n : ℤ) : Prop := |x - n| < 1 ∧ (x ≠ n → Odd n)

variable {x : ℚ} {n m : ℤ}

/-! ### Uniqueness -/

/-- Two integers half a unit away are neighbours around a tie. -/
theorem eq_or_tie (hn : |x - n| ≤ 1 / 2) (hm : |x - m| ≤ 1 / 2) (hle : n ≤ m) :
    n = m ∨ m = n + 1 ∧ x = n + 1 / 2 := by
  rw [abs_le] at hn hm
  have hclose : (m : ℚ) ≤ n + 1 := by linarith
  have hclose' : m ≤ n + 1 := by exact_mod_cast hclose
  obtain h | h : n = m ∨ m = n + 1 := by omega
  · exact Or.inl h
  · have hcast : (m : ℚ) = n + 1 := by exact_mod_cast h
    exact Or.inr ⟨h, by linarith⟩

theorem tie_abs (n : ℤ) : |(n : ℚ) + 1 / 2 - n| = 1 / 2 ∧ |(n : ℚ) + 1 / 2 - (n + 1 : ℤ)| = 1 / 2 := by
  have hneg : (n : ℚ) + 1 / 2 - (n + 1) = -(1 / 2) := by ring
  push_cast
  rw [add_sub_cancel_left, hneg, abs_neg, abs_of_pos (by norm_num)]
  exact ⟨rfl, rfl⟩

theorem NearestEven.unique (hn : NearestEven x n) (hm : NearestEven x m) : n = m := by
  wlog hle : n ≤ m generalizing n m
  · exact (this hm hn (by omega)).symm
  rcases eq_or_tie hn.1 hm.1 hle with h | ⟨rfl, rfl⟩
  · exact h
  · -- Both sides of a tie cannot be even.
    obtain ⟨h1, h2⟩ := tie_abs n
    obtain ⟨a, ha⟩ := hn.2 h1
    obtain ⟨b, hb⟩ := hm.2 h2
    omega

theorem NearestAway.unique (hn : NearestAway x n) (hm : NearestAway x m) : n = m := by
  wlog hle : n ≤ m generalizing n m
  · exact (this hm hn (by omega)).symm
  rcases eq_or_tie hn.1 hm.1 hle with h | ⟨rfl, rfl⟩
  · exact h
  · -- Both sides of a tie cannot be further from zero.
    obtain ⟨h1, h2⟩ := tie_abs n
    have hlo := sq_lt_sq.mpr (hn.2 h1)
    have hhi := sq_lt_sq.mpr (hm.2 h2)
    push_cast at hhi
    have hneg : (n : ℚ) < 0 := by nlinarith
    have hpos : (-1 : ℚ) < n := by nlinarith
    have hneg' : n < 0 := by exact_mod_cast hneg
    have hpos' : -1 < n := by exact_mod_cast hpos
    omega

theorem Upward.unique (hn : Upward x n) (hm : Upward x m) : n = m := by
  have h1 : (n : ℚ) < m + 1 := by linarith [hn.2, hm.1]
  have h2 : (m : ℚ) < n + 1 := by linarith [hm.2, hn.1]
  have h1' : n < m + 1 := by exact_mod_cast h1
  have h2' : m < n + 1 := by exact_mod_cast h2
  omega

theorem Downward.unique (hn : Downward x n) (hm : Downward x m) : n = m := by
  have h1 : (n : ℚ) < m + 1 := by linarith [hn.1, hm.2]
  have h2 : (m : ℚ) < n + 1 := by linarith [hm.1, hn.2]
  have h1' : n < m + 1 := by exact_mod_cast h1
  have h2' : m < n + 1 := by exact_mod_cast h2
  omega

theorem TowardZero.unique (hn : TowardZero x n) (hm : TowardZero x m) : n = m := by
  rcases le_total 0 x with h | h
  · exact (hn.1 h).unique (hm.1 h)
  · exact (hn.2 h).unique (hm.2 h)

theorem ToOdd.unique (hn : ToOdd x n) (hm : ToOdd x m) : n = m := by
  wlog hle : n ≤ m generalizing n m
  · exact (this hm hn (by omega)).symm
  have h1 := abs_lt.mp hn.1
  have h2 := abs_lt.mp hm.1
  have hclose : (m : ℚ) < n + 2 := by linarith
  have hclose' : m < n + 2 := by exact_mod_cast hclose
  by_contra hne
  obtain rfl : m = n + 1 := by omega
  push_cast at h2
  -- The even neighbour would have to be the number itself.
  rcases Int.even_or_odd n with ⟨a, ha⟩ | ⟨a, ha⟩
  · have hx : x = n := by
      by_contra hx
      obtain ⟨b, hb⟩ := hn.2 hx
      omega
    linarith
  · have hx : x = (n + 1 : ℤ) := by
      by_contra hx
      obtain ⟨b, hb⟩ := hm.2 hx
      omega
    push_cast at hx
    linarith

/-! ## Guard and sticky bits -/

/-- The nonnegative `x` is `k`, then the binary digit `half`, then something exactly if `sticky`. -/
def Guarded (x : ℚ) (k : ℕ) (half sticky : Bool) : Prop :=
  match half, sticky with
  | false, false => x = k
  | false, true => (k : ℚ) < x ∧ x < k + 1 / 2
  | true, false => x = k + 1 / 2
  | true, true => (k : ℚ) + 1 / 2 < x ∧ x < k + 1

/-- The digits of a quotient by a power of two. -/
theorem guarded_div (a : ℕ) {s : ℕ} (hs : 0 < s) :
    Guarded (a / 2 ^ s) (a / 2 ^ s : ℕ) (decide (a / 2 ^ (s - 1) % 2 = 1))
      (decide (a % 2 ^ (s - 1) ≠ 0)) := by
  obtain ⟨t, rfl⟩ : ∃ t, s = t + 1 := ⟨s - 1, by omega⟩
  rw [Nat.add_sub_cancel]
  have hp : (0 : ℚ) < 2 ^ t := by positivity
  have hdm := Nat.div_add_mod a (2 ^ t)
  have hr := Nat.mod_lt a (Nat.two_pow_pos t)
  have hdd : a / 2 ^ (t + 1) = a / 2 ^ t / 2 := by rw [Nat.pow_succ, Nat.div_div_eq_div_mul]
  rw [hdd]
  generalize a / 2 ^ t = q at hdm ⊢
  generalize a % 2 ^ t = r at hdm hr ⊢
  have ha : (a : ℚ) = 2 ^ t * q + r := by exact_mod_cast hdm.symm
  have hr' : (r : ℚ) < 2 ^ t := by exact_mod_cast hr
  have hq : (q : ℚ) = 2 * (q / 2 : ℕ) + (q % 2 : ℕ) := by exact_mod_cast (Nat.div_add_mod q 2).symm
  have hx : (a : ℚ) / 2 ^ (t + 1) = (q / 2 : ℕ) + (q % 2 : ℕ) / 2 + r / 2 ^ (t + 1) := by
    rw [ha, hq, pow_succ]
    field_simp
  have hrpos : r ≠ 0 → (0 : ℚ) < r / 2 ^ (t + 1) := fun h => by
    have : (0 : ℚ) < r := by exact_mod_cast Nat.pos_of_ne_zero h
    positivity
  have hrlt : (r : ℚ) / 2 ^ (t + 1) < 1 / 2 := by
    rw [div_lt_iff₀ (by positivity), pow_succ]
    linarith
  rcases Nat.mod_two_eq_zero_or_one q with hb | hb <;> by_cases h0 : r = 0 <;>
    rw [hb] at hx ⊢ <;> push_cast at hx
  · simp only [Guarded, h0, ne_eq, not_true_eq_false, decide_false, zero_ne_one]
    rw [hx, h0]
    simp
  · have := hrpos h0
    simp only [Guarded, h0, ne_eq, not_false_eq_true, decide_true, decide_false, zero_ne_one]
    constructor <;> linarith
  · simp only [Guarded, h0, ne_eq, not_true_eq_false, decide_false, decide_true]
    rw [hx, h0]
    simp
  · have := hrpos h0
    simp only [Guarded, h0, ne_eq, not_false_eq_true, decide_true]
    constructor <;> linarith

section Guarded

variable {k : ℕ} {half sticky : Bool}

theorem Guarded.bounds (h : Guarded x k half sticky) : (k : ℚ) ≤ x ∧ x < k + 1 := by
  cases half <;> cases sticky <;> simp only [Guarded] at h <;> constructor <;> linarith

theorem Guarded.eq_iff (h : Guarded x k half sticky) :
    x = k ↔ (half || sticky) = false := by
  cases half <;> cases sticky <;> simp only [Guarded] at h <;> simp [h]
  · exact h.1.ne'
  · linarith [h.1]

theorem Guarded.downward (h : Guarded x k half sticky) : Downward x k := by
  have hb := h.bounds
  exact ⟨by exact_mod_cast hb.1, by exact_mod_cast hb.2⟩

theorem Guarded.towardZero (h : Guarded x k half sticky) : TowardZero x k := by
  refine ⟨fun _ => h.downward, fun hx => ?_⟩
  have hb := h.bounds
  have hk : (0 : ℚ) ≤ k := Nat.cast_nonneg k
  exact ⟨by push_cast; linarith, by push_cast; linarith⟩

theorem Guarded.upward (h : Guarded x k half sticky) :
    Upward x (k + (half || sticky).toNat : ℕ) := by
  cases half <;> cases sticky <;> simp only [Guarded] at h <;> refine ⟨?_, ?_⟩ <;> push_cast <;>
    simp only [Bool.or_false, Bool.or_true, Bool.toNat_false, Bool.toNat_true, Nat.cast_zero,
      Nat.cast_one] <;> linarith

theorem Guarded.nearestEven (h : Guarded x k half sticky) :
    NearestEven x (k + (half && (sticky || decide (k % 2 = 1))).toNat : ℕ) := by
  cases half
  · have hlt : (k : ℚ) ≤ x ∧ x < k + 1 / 2 := by
      cases sticky <;> simp only [Guarded] at h <;> constructor <;> linarith
    simp only [Bool.false_and, Bool.toNat_false, Nat.add_zero]
    constructor
    · push_cast
      rw [abs_le]
      constructor <;> linarith
    · push_cast
      rw [abs_of_nonneg (by linarith)]
      intro heq
      linarith
  · cases sticky
    · simp only [Guarded] at h
      rcases Nat.mod_two_eq_zero_or_one k with hk | hk
      · simp only [hk, zero_ne_one, decide_false, Bool.or_self, Bool.and_false, Bool.toNat_false,
          Nat.add_zero]
        refine ⟨?_, fun _ => ⟨(k / 2 : ℕ), by omega⟩⟩
        rw [h]
        push_cast
        rw [add_sub_cancel_left, abs_of_pos (by norm_num)]
      · simp only [hk, decide_true, Bool.or_true, Bool.and_true, Bool.toNat_true]
        refine ⟨?_, fun _ => ⟨(k / 2 + 1 : ℕ), by omega⟩⟩
        rw [h]
        exact (tie_abs k).2.le
    · simp only [Guarded] at h
      simp only [Bool.true_or, Bool.and_true, Bool.toNat_true]
      constructor
      · push_cast
        rw [abs_le]
        constructor <;> linarith
      · push_cast
        rw [abs_of_nonpos (by linarith)]
        intro heq
        linarith

theorem Guarded.nearestAway (h : Guarded x k half sticky) : NearestAway x (k + half.toNat : ℕ) := by
  have hk : (0 : ℚ) ≤ k := Nat.cast_nonneg k
  cases half
  · have hlt : (k : ℚ) ≤ x ∧ x < k + 1 / 2 := by
      cases sticky <;> simp only [Guarded] at h <;> constructor <;> linarith
    simp only [Bool.toNat_false, Nat.add_zero]
    constructor
    · push_cast
      rw [abs_le]
      constructor <;> linarith
    · push_cast
      rw [abs_of_nonneg (by linarith)]
      intro heq
      linarith
  · have hge : (k : ℚ) + 1 / 2 ≤ x ∧ x < k + 1 := by
      cases sticky <;> simp only [Guarded] at h <;> constructor <;> linarith
    simp only [Bool.toNat_true]
    constructor
    · push_cast
      rw [abs_le]
      constructor <;> linarith
    · intro _
      push_cast
      rw [abs_of_nonneg (by linarith), abs_of_nonneg (by linarith)]
      linarith

/-- Setting the last bit. -/
theorem or_one (i : ℕ) : i ||| 1 = 2 * (i / 2) + 1 := by
  have hsplit : 2 * (i / 2) ||| i % 2 = i := by
    have h := @Nat.two_pow_add_eq_or_of_lt 1 _ (Nat.mod_lt i (by decide)) (i / 2)
    rw [pow_one, Nat.div_add_mod] at h
    exact h.symm
  have hone := @Nat.two_pow_add_eq_or_of_lt 1 1 (by decide) (i / 2)
  rw [pow_one] at hone
  have hmod : i % 2 ||| 1 = 1 := by
    rcases Nat.mod_two_eq_zero_or_one i with h | h <;> rw [h] <;> rfl
  calc i ||| 1 = (2 * (i / 2) ||| i % 2) ||| 1 := by rw [hsplit]
    _ = 2 * (i / 2) + 1 := by rw [Nat.or_assoc, hmod, hone]

theorem Guarded.toOdd (h : Guarded x k half sticky) :
    ToOdd x (if half || sticky then k ||| 1 else k : ℕ) := by
  have hb := h.bounds
  have heq := h.eq_iff
  cases hin : half || sticky
  · rw [hin] at heq
    have hx := heq.mpr rfl
    rw [if_neg Bool.false_ne_true, hx]
    refine ⟨by simp, fun hne => absurd ?_ hne⟩
    push_cast
    rfl
  · rw [hin] at heq
    have hne : x ≠ k := fun hx => absurd (heq.mp hx) (by decide)
    have hlt : (k : ℚ) < x := lt_of_le_of_ne hb.1 (Ne.symm hne)
    have hmod := Nat.div_add_mod k 2
    have hparity := Nat.mod_two_eq_zero_or_one k
    rw [if_pos rfl, or_one]
    generalize k / 2 = q at hmod ⊢
    have hk : (k : ℚ) = 2 * q + (k % 2 : ℕ) := by exact_mod_cast hmod.symm
    refine ⟨?_, fun _ => ⟨q, by push_cast; ring⟩⟩
    rw [abs_lt]
    rcases hparity with h0 | h0 <;> rw [h0] at hk <;> push_cast at hk ⊢ <;> constructor <;> linarith

end Guarded

end Rounding
