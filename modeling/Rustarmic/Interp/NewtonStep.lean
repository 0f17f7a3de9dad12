import Mathlib.Tactic.LinearCombination
import Rustarmic.Interp.MulAdd

/-!
# Newton steps of the instruction helpers

The exact values of the steps: they are zero or normal, so that no result is flushed, and halving a
factor is exact whichever one it is.

* `value_neg`, `value_sub_exponent`, `value_two`, `value_onePointFive` — exact values.
* `exactStep_normal` — a step is zero or normal.
* `IsStep` — the step of operands that are no NaNs; `newtonStep_numbers` says that the helpers
  compute it.

`IsStep` is what a step should be: the exact number `2 + n * m` or `(3 + n * m) / 2`, rounded once,
with `n` negated already, and the constant for infinity times zero.  There is one such result
(`IsStep.unique`), so that an implementation is right if it has this property, and two that have it
are equal.  Neither implementation computes the exact number, and each of their ways gets a lemma:

* **A product plus two** is what the host's fused operation gives.
* **A halved factor** gives the square root step, since halving is exact where the exponent field is
  at least two; which factor is halved does not matter.
* **Tiny factors.**  If neither can be halved, their product is so small that 1.5 is the rounded
  sum.

A result that is subnormal would be flushed under FPCR.FZ by one side and not by the other.  There
is none: the product has about twice the digits of a factor, and a difference of 2 or 3 and such a
number is zero or not that small (`gap_product`).
-/

set_option autoImplicit false

namespace Rustarmic
namespace Interp

open BinaryFormat

section values

variable {f : Fmt} {x y : U64}

/-! ## Negation -/

theorem toNat_neg (f : Fmt) (x : U64) :
    (f.neg x).toNat = (x.toNat ^^^ 2 ^ (f.bits - 1)) % 2 ^ f.bits := by
  have hbits : f.bits ≤ 64 := by cases f <;> decide
  have hsign : f.signBit.toNat = 2 ^ (f.bits - 1) := by cases f <;> rfl
  rw [Fmt.neg, toNat_and_mask hbits, BitVec.toNat_xor, hsign]

theorem encodes_neg (f : Fmt) (x : U64) : f.Encodes (f.neg x) := by
  rw [Fmt.Encodes, toNat_neg]
  exact Nat.mod_lt _ (Nat.two_pow_pos _)

@[simp] theorem low_neg (f : Fmt) (x : U64) : f.low (f.neg x) = f.low x := by
  have hdvd : 2 ^ (f.bits - 1) ∣ 2 ^ f.bits := Nat.pow_dvd_pow 2 (Nat.sub_le _ _)
  rw [Fmt.low, toNat_neg, Nat.mod_mod_of_dvd _ hdvd, Nat.xor_mod_two_pow, Nat.mod_self, Nat.xor_zero,
    Fmt.low]

@[simp] theorem sign_neg (f : Fmt) (x : U64) : f.sign (f.neg x) = !f.sign x := by
  have hsplit : 2 ^ f.bits = 2 ^ (f.bits - 1) * 2 := by cases f <;> rfl
  have hparity := Nat.mod_two_eq_zero_or_one (x.toNat / 2 ^ (f.bits - 1))
  have hone : (x.toNat / 2 ^ (f.bits - 1) ^^^ 1) % 2 = 1 ↔ x.toNat / 2 ^ (f.bits - 1) % 2 = 0 := by
    have h := @Nat.xor_mod_two_pow (x.toNat / 2 ^ (f.bits - 1)) 1 1
    rw [pow_one] at h
    rw [h]
    rcases hparity with h0 | h0 <;> rw [h0] <;> decide
  rw [Bool.eq_iff_iff, Fmt.sign_iff, toNat_neg, hsplit, Nat.mod_mul_right_div_self,
    Nat.xor_div_two_pow, Nat.div_self (Nat.two_pow_pos _), Nat.mod_mod, hone, Bool.not_eq_true',
    ← Bool.not_eq_true, Fmt.sign_iff]
  omega

@[simp] theorem isNan_neg (f : Fmt) (x : U64) : f.isNan (f.neg x) = f.isNan x := by
  rw [Bool.eq_iff_iff, Fmt.isNan_iff, Fmt.isNan_iff, low_neg]

@[simp] theorem isInf_neg (f : Fmt) (x : U64) : f.isInf (f.neg x) = f.isInf x := by
  rw [Bool.eq_iff_iff, Fmt.isInf_iff, Fmt.isInf_iff, low_neg]

@[simp] theorem isDenormal_neg (f : Fmt) (x : U64) : f.isDenormal (f.neg x) = f.isDenormal x := by
  rw [Bool.eq_iff_iff, Fmt.isDenormal_iff, Fmt.isDenormal_iff, low_neg]

theorem value_neg (f : Fmt) (x : U64) : f.value (f.neg x) = -f.value x := by
  rw [Fmt.value, Fmt.value, ← neg_mul]
  congr 1
  rw [Fmt.units, Fmt.units, low_neg, sign_neg]
  cases f.sign x <;> simp

/-- A flushed operand is negated like any other. -/
theorem flushIn_neg (hx : f.Encodes x) (st : St) :
    flushIn f (f.neg x) st = (f.neg (flushIn f x st).1, (flushIn f x st).2) := by
  have hzero (s : Bool) : f.neg (f.zero s) = f.zero !s := by cases f <;> cases s <;> decide
  rw [flushIn, flushIn, isDenormal_neg, sign_neg]
  split_ifs
  · rw [hzero]
  · rfl

/-! ## Halving -/

theorem isZero_iff_low : f.isZero x = true ↔ f.low x = 0 := by
  have hc : (~~~f.signBit &&& mask f.bits).toNat = 2 ^ (f.bits - 1) - 1 := by cases f <;> rfl
  rw [Fmt.isZero, beq_iff_eq, BitVec.and_assoc, ← BitVec.toNat_inj, BitVec.toNat_and, hc,
    Nat.and_two_pow_sub_one_eq_mod, Fmt.low, BitVec.toNat_zero]

/-- Operands with an exponent of at least 2 can be halved exactly. -/
theorem halvable_iff : 2#64 ≤ f.expField x ↔ 2 * 2 ^ f.fbits ≤ f.low x := by
  rw [BitVec.le_def, Fmt.toNat_expField, Nat.le_div_iff_mul_le (Nat.two_pow_pos _)]
  rfl

variable (h2 : 2 * 2 ^ f.fbits ≤ f.low x)
include h2

theorem toNat_sub_exponent : (x - (1#64 <<< f.fbits)).toNat = x.toNat - 2 ^ f.fbits := by
  have hone : (1#64 <<< f.fbits).toNat = 2 ^ f.fbits := by cases f <;> rfl
  have hle : f.low x ≤ x.toNat := Nat.mod_le _ _
  rw [BitVec.toNat_sub_of_le, hone]
  rw [BitVec.le_def, hone]
  omega

/-- Nothing borrows into the sign. -/
theorem sub_exponent : f.low (x - (1#64 <<< f.fbits)) = f.low x - 2 ^ f.fbits ∧
    f.sign (x - (1#64 <<< f.fbits)) = f.sign x := by
  have hpos := Nat.two_pow_pos (f.bits - 1)
  have hdm := Nat.div_add_mod x.toNat (2 ^ (f.bits - 1))
  have hlt : f.low x < 2 ^ (f.bits - 1) := Nat.mod_lt _ hpos
  have hsplit : x.toNat - 2 ^ f.fbits =
      2 ^ (f.bits - 1) * (x.toNat / 2 ^ (f.bits - 1)) + (f.low x - 2 ^ f.fbits) := by
    rw [Fmt.low] at h2 ⊢
    omega
  constructor
  · rw [Fmt.low, toNat_sub_exponent h2, hsplit, Nat.mul_add_mod, Nat.mod_eq_of_lt (by omega)]
  · rw [Bool.eq_iff_iff, Fmt.sign_iff, Fmt.sign_iff, toNat_sub_exponent h2, hsplit,
      Nat.mul_add_div hpos, Nat.div_eq_of_lt (by omega : f.low x - 2 ^ f.fbits < 2 ^ (f.bits - 1)),
      Nat.add_zero]

omit h2 in
theorem encodes_sub_exponent (hx : f.Encodes x) (h2 : 2 * 2 ^ f.fbits ≤ f.low x) :
    f.Encodes (x - (1#64 <<< f.fbits)) := by
  have hlt : x.toNat < 2 ^ f.bits := hx
  rw [Fmt.Encodes, toNat_sub_exponent h2]
  omega

/-- **Halving is exact.** -/
theorem value_sub_exponent : f.value (x - (1#64 <<< f.fbits)) = f.value x / 2 := by
  have hpos := Nat.two_pow_pos f.fbits
  obtain ⟨hlow, hsign⟩ := sub_exponent h2
  have hmag : (mag f.fbits (f.low x) : ℚ) = 2 * mag f.fbits (f.low x - 2 ^ f.fbits) := by
    have hq : 2 ≤ f.low x / 2 ^ f.fbits := (Nat.le_div_iff_mul_le hpos).mpr h2
    have hdiv : (f.low x - 2 ^ f.fbits) / 2 ^ f.fbits = f.low x / 2 ^ f.fbits - 1 := by
      rw [Nat.div_eq_sub_div hpos (by omega : 2 ^ f.fbits ≤ f.low x), Nat.add_sub_cancel]
    have hmod : (f.low x - 2 ^ f.fbits) % 2 ^ f.fbits = f.low x % 2 ^ f.fbits :=
      (Nat.mod_eq_sub_mod (by omega)).symm
    obtain ⟨d, hd⟩ := Nat.exists_eq_add_of_le hq
    have hnat : mag f.fbits (f.low x) = 2 * mag f.fbits (f.low x - 2 ^ f.fbits) := by
      rw [mag, mag, hdiv, hmod, if_neg (by omega), if_neg (by omega), hd,
        (by omega : 2 + d - 1 - 1 = d), (by omega : 2 + d - 1 = d + 1), pow_succ]
      ring
    exact_mod_cast hnat
  rw [Fmt.value, Fmt.value, Fmt.units, Fmt.units, hlow, hsign]
  split_ifs
  · push_cast
    rw [hmag]
    ring
  · push_cast
    rw [hmag]
    ring

omit h2

/-! ## The constants -/

/-- The value of a positive normal encoding. -/
theorem value_normal {sig e : Nat} (hs : f.sign x = false) (hlo : 2 ^ f.fbits ≤ sig)
    (hhi : sig < 2 * 2 ^ f.fbits) (hl : f.low x = (e + 1) * 2 ^ f.fbits + (sig - 2 ^ f.fbits)) :
    f.value x = sig * 2 ^ (e + 1 - f.bias - f.fbits) := by
  rw [Fmt.value, Fmt.units, hs, if_neg Bool.false_ne_true, hl, mag_normal hlo hhi, Fmt.unit]
  push_cast
  rw [mul_assoc, ← zpow_natCast, ← zpow_add₀ (by norm_num)]
  congr 2
  ring

theorem two_fields (f : Fmt) : f.sign (two f false) = false ∧ ∃ e : Nat, (e : ℤ) = f.bias ∧
    f.low (two f false) = (e + 1) * 2 ^ f.fbits + (2 ^ f.fbits - 2 ^ f.fbits) := by
  cases f
  · exact ⟨rfl, 15, rfl, rfl⟩
  · exact ⟨rfl, 127, rfl, rfl⟩
  · exact ⟨rfl, 1023, rfl, rfl⟩

theorem value_two (f : Fmt) : f.value (two f false) = 2 := by
  have hpos := Nat.two_pow_pos f.fbits
  obtain ⟨hs, e, he, hl⟩ := two_fields f
  rw [value_normal hs le_rfl (by omega) hl, he]
  push_cast
  rw [← zpow_natCast, ← zpow_add₀ (by norm_num)]
  norm_num

theorem onePointFive_fields (hf : f ≠ .h) : f.sign (onePointFive f) = false ∧
    ∃ e : Nat, (e + 1 : ℤ) = f.bias ∧ f.low (onePointFive f) =
      (e + 1) * 2 ^ f.fbits + (3 * 2 ^ (f.fbits - 1) - 2 ^ f.fbits) := by
  cases f
  · exact absurd rfl hf
  · exact ⟨rfl, 126, rfl, rfl⟩
  · exact ⟨rfl, 1022, rfl, rfl⟩

theorem value_onePointFive (hf : f ≠ .h) : f.value (onePointFive f) = 3 / 2 := by
  have hp : 2 ^ f.fbits = 2 * 2 ^ (f.fbits - 1) := by cases f <;> rfl
  have hpos := Nat.two_pow_pos (f.fbits - 1)
  have hfb : ((f.fbits - 1 : ℕ) : ℤ) = f.fbits - 1 := by cases f <;> rfl
  obtain ⟨hs, e, he, hl⟩ := onePointFive_fields hf
  rw [value_normal hs (by omega) (by omega) hl, he]
  push_cast
  rw [mul_assoc, ← zpow_natCast, ← zpow_add₀ (by norm_num), hfb,
    show (f.fbits : ℤ) - 1 + (f.bias - f.bias - f.fbits) = -1 by ring, zpow_neg_one]
  norm_num

theorem isInf_two (f : Fmt) : f.isInf (two f false) = false ∧ f.isNan (two f false) = false ∧
    f.Encodes (two f false) := by
  cases f <;> decide

theorem low_onePointFive_lt (hf : f ≠ .h) : f.low (onePointFive f) < f.infLow := by
  cases f
  · exact absurd rfl hf
  · decide
  · decide

theorem isInf_onePointFive (hf : f ≠ .h) : f.isInf (onePointFive f) = false ∧
    f.isNan (onePointFive f) = false ∧ f.Encodes (onePointFive f) := by
  cases f
  · exact absurd rfl hf
  · decide
  · decide

/-! ## No step is subnormal -/

/-- A product of two values, as a number of `2 * p + 2` digits and an exponent. -/
theorem abs_mul_value (f : Fmt) (x y : U64) :
    ∃ (s : ℕ) (t : ℤ), s < 2 ^ (2 * f.fbits + 2) ∧ |f.value x * f.value y| = s * 2 ^ t := by
  obtain ⟨s, e, hs, hx⟩ := exists_significand f.fbits (f.low x)
  obtain ⟨s', e', hs', hy⟩ := exists_significand f.fbits (f.low y)
  refine ⟨s * s', e + e' + 2 * (1 - f.bias - f.fbits), ?_, ?_⟩
  · calc s * s' < 2 ^ (f.fbits + 1) * 2 ^ (f.fbits + 1) := Nat.mul_lt_mul'' hs hs'
      _ = 2 ^ (2 * f.fbits + 2) := by ring
  · have hu := f.unit_pos
    rw [abs_mul, Fmt.value, Fmt.value, abs_mul, abs_mul, Fmt.abs_units, Fmt.abs_units, hx, hy,
      abs_of_pos hu, Fmt.unit]
    push_cast
    rw [two_mul, zpow_add₀ (by norm_num), zpow_add₀ (by norm_num), zpow_add₀ (by norm_num),
      zpow_natCast, zpow_natCast]
    ring

/-- **The difference of 2 or 3 and a product** is zero or far from the subnormal range. -/
theorem gap_product {c : ℕ} (hc : 2 ≤ c) (f : Fmt) (x y : U64)
    (hne : (c : ℚ) + f.value x * f.value y ≠ 0) :
    (2 : ℚ) ^ (-((2 * f.fbits + 2 : ℕ) : ℤ)) ≤ |(c : ℚ) + f.value x * f.value y| := by
  obtain ⟨s, t, hs, hprod⟩ := abs_mul_value f x y
  have hc' : (2 : ℚ) ≤ c := by exact_mod_cast hc
  rcases le_total 0 (f.value x * f.value y) with h | h
  · have hone : (2 : ℚ) ^ (-((2 * f.fbits + 2 : ℕ) : ℤ)) ≤ 1 :=
      zpow_le_one_of_nonpos₀ (by norm_num) (by omega)
    rw [abs_of_nonneg (by linarith)]
    linarith
  · rw [abs_of_nonpos h] at hprod
    have hsub : (c : ℚ) + f.value x * f.value y = c - s * 2 ^ t := by rw [← hprod]; ring
    rw [hsub] at hne ⊢
    exact gap_le_abs_sub hc hs (sub_ne_zero.mp hne)

/-- A rounded number is zero or no denormal, when the number is. -/
theorem Fmt.Rounded.not_isDenormal {neg : Bool} {q : ℚ} {r : U64} (h : f.Rounded .tieEven neg |q| r)
    (hq : q = 0 ∨ 2 ^ f.fbits * f.unit ≤ |q|) : f.isDenormal r = false := by
  obtain ⟨l, hl, rfl⟩ := h
  have hinf := Fmt.fbits_pow_le_infLow f
  have hclose := close_rounds .tieEven neg
  rw [← Bool.not_eq_true, Fmt.isDenormal_iff, low_encode_tieEven]
  rcases hq with rfl | hle
  · have hzero : (mag f.fbits 0 : ℚ) = 0 := by rw [mag_zero, Nat.cast_zero]
    rw [abs_zero, zero_div, ← hzero] at hl
    rw [hl.eq_of_mag hclose]
    omega
  · have hmag : mag f.fbits (2 ^ f.fbits) = 2 ^ f.fbits := by
      rw [mag, Nat.div_self (Nat.two_pow_pos _), Nat.mod_self]
      simp
    have hll := hl.le_of_mag_le hclose (k := 2 ^ f.fbits)
    rw [hmag, le_div_iff₀ f.unit_pos] at hll
    push_cast at hll
    have := hll hle
    omega

end values

/-! ## Steps -/

section steps

variable {f : Fmt} {squareRoot : Bool} {a b n m r r' : U64} {st : St}

/-- Infinity times zero. -/
def invalidProduct (f : Fmt) (n m : U64) : Bool :=
  (f.isInf n && f.isZero m) || (f.isZero n && f.isInf m)

def stepConstant (f : Fmt) (squareRoot : Bool) : U64 :=
  if squareRoot then onePointFive f else two f false

/-- The exact step, of a factor that is negated already. -/
def exactStep (f : Fmt) (squareRoot : Bool) (n m : U64) : ℚ :=
  if squareRoot then (3 + f.value n * f.value m) / 2 else 2 + f.value n * f.value m

/-- `r` is the step with one rounding. -/
def IsStep (f : Fmt) (squareRoot : Bool) (n m r : U64) : Prop :=
  if invalidProduct f n m then r = stepConstant f squareRoot
  else if f.isInf n || f.isInf m then r = f.inf (f.sign n ^^ f.sign m)
  else f.Rounded .tieEven (decide (exactStep f squareRoot n m < 0)) |exactStep f squareRoot n m| r

theorem IsStep.unique (h : IsStep f squareRoot n m r) (h' : IsStep f squareRoot n m r') : r = r' := by
  rw [IsStep] at h h'
  split_ifs at h h' with hv hi
  · rw [h, h']
  · rw [h, h']
  · exact h.unique h'

theorem exactStep_normal (hf : f ≠ .h) (n m : U64) : exactStep f squareRoot n m = 0 ∨
    2 ^ f.fbits * f.unit ≤ |exactStep f squareRoot n m| := by
  have hbias : f.fbits + (1 - f.bias - f.fbits) ≤ -((2 * f.fbits + 2 : ℕ) : ℤ) - 1 := by
    cases f
    · exact absurd rfl hf
    · decide
    · decide
  have hunit : (2 : ℚ) ^ f.fbits * f.unit ≤ 2 ^ (-((2 * f.fbits + 2 : ℕ) : ℤ)) / 2 := by
    rw [Fmt.unit, ← zpow_natCast, ← zpow_add₀ (by norm_num), div_eq_mul_inv,
      ← zpow_sub_one₀ (by norm_num : (2 : ℚ) ≠ 0)]
    exact zpow_le_zpow_right₀ (by norm_num) hbias
  have hthree := @gap_product 3 (by decide) f n m
  have htwo := @gap_product 2 (by decide) f n m
  generalize (2 : ℚ) ^ (-((2 * f.fbits + 2 : ℕ) : ℤ)) = gap at hunit hthree htwo
  have hunit0 : (0 : ℚ) < 2 ^ f.fbits * f.unit := mul_pos (by positivity) f.unit_pos
  rw [or_iff_not_imp_left, exactStep]
  intro hne
  split_ifs at hne ⊢
  · rw [div_eq_zero_iff, or_iff_left (by norm_num)] at hne
    rw [abs_div, abs_two]
    have := hthree hne
    push_cast at this
    linarith
  · have := htwo hne
    push_cast at this
    linarith

/-- **No step is a NaN or a denormal**, so that it needs no finishing. -/
theorem IsStep.finish (hf : f ≠ .h) (h : IsStep f squareRoot n m r) : finish f r st = (r, st) := by
  have hr : f.isNan r = false ∧ f.isDenormal r = false := by
    rw [IsStep] at h
    split_ifs at h
    · rw [h, stepConstant]
      cases f <;> cases squareRoot <;> first | exact absurd rfl hf | decide
    · rw [h]
      exact ⟨Fmt.not_isNan_inf _, Fmt.not_isDenormal_inf _⟩
    · exact ⟨h.isNan, h.not_isDenormal (exactStep_normal hf n m)⟩
  rw [Interp.finish, hr.1, hr.2]
  simp

/-! ## Multiply-add -/

variable {fma : HostMulAdd}

/-- A multiply-add of an exact product and a positive number that stand for the step. -/
theorem isStep_mulAdd (hfma : IsMulAdd fma) (hf : f ≠ .h) {x y c : U64} (h : Numbers f x y c)
    (hc : f.isInf c = false) (hcs : f.sign c = false) (hv : invalidProduct f n m = false)
    (hv' : invalidProduct f x y = false) (hinf : (f.isInf x || f.isInf y) = (f.isInf n || f.isInf m))
    (hsign : (f.sign x ^^ f.sign y) = (f.sign n ^^ f.sign m))
    (hval : (f.isInf n || f.isInf m) = false → exactMulAdd f x y c = exactStep f squareRoot n m) :
    IsStep f squareRoot n m (mulAdd fma f x y c) := by
  rw [IsStep, hv, if_neg Bool.false_ne_true]
  split_ifs with hi
  · have hvalid : invalidMulAdd f x y c = false := by
      rw [invalidMulAdd, hc, Bool.false_and, Bool.false_and, Bool.or_false]
      exact hv'
    rw [← hsign]
    exact hfma.infinite f x y c hf h hvalid (hinf.trans hi)
  · rw [Bool.not_eq_true] at hi
    have hr := hfma.rounded f x y c hf h (hinf.trans hi) hc
    have hs : mulAddSign f x y c = decide (exactMulAdd f x y c < 0) := by
      rw [mulAddSign]
      split_ifs with h0
      · rw [h0, hcs, Bool.and_false]
        rfl
      · rfl
    rwa [hs, hval hi] at hr

theorem isStep_two (hfma : IsMulAdd fma) (hf : f ≠ .h) (hn : f.Encodes n) (hm : f.Encodes m)
    (hnn : f.isNan n = false) (hnm : f.isNan m = false) (hv : invalidProduct f n m = false) :
    IsStep f false n m (mulAdd fma f n m (two f false)) := by
  obtain ⟨hinf, hnan, henc⟩ := isInf_two f
  refine isStep_mulAdd hfma hf ⟨⟨hn, hm, henc⟩, hnn, hnm, hnan⟩ hinf (two_fields f).1 hv hv rfl rfl
    fun _ => ?_
  rw [exactMulAdd, exactStep, if_neg Bool.false_ne_true, value_two, add_comm]

/-- `x` is `n` halved, where an infinity stays. -/
structure Halves (f : Fmt) (n x : U64) : Prop where
  encodes : f.Encodes x
  isNan : f.isNan x = false
  isInf : f.isInf x = f.isInf n
  isZero : f.isZero x = f.isZero n
  sign : f.sign x = f.sign n
  value : f.isInf n = false → f.value x = f.value n / 2

theorem expField_inf_le : 2 * 2 ^ f.fbits ≤ f.infLow := by cases f <;> decide

/-- **Halving never loses bits** where the exponent is at least 2. -/
theorem halves_half (hn : f.Encodes n) (hnn : f.isNan n = false) (h2 : 2 * 2 ^ f.fbits ≤ f.low n) :
    Halves f n (half f n) := by
  rw [half]
  split_ifs with hi
  · exact ⟨hn, hnn, rfl, rfl, rfl, fun h => absurd (hi.symm.trans h) (by decide)⟩
  · have hpos := Nat.two_pow_pos f.fbits
    obtain ⟨hlow, hsign⟩ := sub_exponent h2
    rw [← Bool.not_eq_true, Fmt.isNan_iff] at hnn
    have hni := hi
    rw [Fmt.isInf_iff] at hni
    have hinf : f.isInf (n - (1#64 <<< f.fbits)) = false := by
      rw [← Bool.not_eq_true, Fmt.isInf_iff, hlow]
      omega
    have hz : f.isZero (n - (1#64 <<< f.fbits)) = f.isZero n := by
      rw [Bool.eq_iff_iff, isZero_iff_low, isZero_iff_low, hlow]
      omega
    refine ⟨encodes_sub_exponent hn h2, ?_, ?_, hz, hsign, fun _ => value_sub_exponent h2⟩
    · rw [← Bool.not_eq_true, Fmt.isNan_iff, hlow]
      omega
    · rw [Bool.not_eq_true] at hi
      rw [hinf, hi]

theorem invalidProduct_congr {x y : U64} (hx : f.isInf x = f.isInf n) (hxz : f.isZero x = f.isZero n)
    (hy : f.isInf y = f.isInf m) (hyz : f.isZero y = f.isZero m) :
    invalidProduct f x y = invalidProduct f n m := by
  rw [invalidProduct, invalidProduct, hx, hxz, hy, hyz]

theorem isStep_half_left {x : U64} (hfma : IsMulAdd fma) (hf : f ≠ .h) (hm : f.Encodes m)
    (hnm : f.isNan m = false) (hv : invalidProduct f n m = false) (hx : Halves f n x) :
    IsStep f true n m (mulAdd fma f x m (onePointFive f)) := by
  obtain ⟨hinf, hnan, henc⟩ := isInf_onePointFive hf
  refine isStep_mulAdd hfma hf ⟨⟨hx.encodes, hm, henc⟩, hx.isNan, hnm, hnan⟩ hinf
    (onePointFive_fields hf).1 hv ((invalidProduct_congr hx.isInf hx.isZero rfl rfl).trans hv)
    (by rw [hx.isInf]) (by rw [hx.sign]) fun hi => ?_
  rw [Bool.or_eq_false_iff] at hi
  rw [exactMulAdd, exactStep, if_pos rfl, value_onePointFive hf, hx.value hi.1]
  ring

theorem isStep_half_right {y : U64} (hfma : IsMulAdd fma) (hf : f ≠ .h) (hn : f.Encodes n)
    (hnn : f.isNan n = false) (hv : invalidProduct f n m = false) (hy : Halves f m y) :
    IsStep f true n m (mulAdd fma f n y (onePointFive f)) := by
  obtain ⟨hinf, hnan, henc⟩ := isInf_onePointFive hf
  refine isStep_mulAdd hfma hf ⟨⟨hn, hy.encodes, henc⟩, hnn, hy.isNan, hnan⟩ hinf
    (onePointFive_fields hf).1 hv ((invalidProduct_congr rfl rfl hy.isInf hy.isZero).trans hv)
    (by rw [hy.isInf]) (by rw [hy.sign]) fun hi => ?_
  rw [Bool.or_eq_false_iff] at hi
  rw [exactMulAdd, exactStep, if_pos rfl, value_onePointFive hf, hy.value hi.2]
  ring

/-- What is between 1 and 2 and close to 1.5 rounds to it. -/
theorem rounded_onePointFive (hf : f ≠ .h) {d : ℚ} (hd : |d| * 2 ^ (f.fbits + 1) < 1) :
    f.Rounded .tieEven false (3 / 2 + d) (onePointFive f) := by
  obtain ⟨-, e, he, hl⟩ := onePointFive_fields hf
  obtain ⟨k, hk⟩ : ∃ k, f.fbits = k + 2 := by
    cases f
    · exact ⟨8, rfl⟩
    · exact ⟨21, rfl⟩
    · exact ⟨50, rfl⟩
  have hp : (2 : ℚ) ^ f.fbits = 2 * 2 ^ (k + 1) := by rw [hk, pow_succ']
  have hu := f.unit_pos
  -- The unit in the last place of 1.5.
  have hulp : (2 : ℚ) ^ f.fbits * 2 ^ e * f.unit = 1 := by
    rw [Fmt.unit, ← zpow_natCast, ← zpow_natCast, ← zpow_add₀ (by norm_num),
      ← zpow_add₀ (by norm_num), show (f.fbits : ℤ) + e + (1 - f.bias - f.fbits) = 0 by omega, zpow_zero]
  rw [pow_succ'] at hd
  have hfour : (4 : ℚ) ≤ 2 ^ f.fbits := by
    rw [hk, pow_add]
    have : (1 : ℚ) ≤ 2 ^ k := one_le_pow₀ (by norm_num)
    linarith
  have hsmall : |d| < 1 / 8 := by nlinarith [abs_nonneg d]
  obtain ⟨hlo, hhi⟩ := abs_lt.mp hsmall
  have hq : (3 / 2 + d) / f.unit / 2 ^ e = 3 * 2 ^ (k + 1) + d * 2 ^ f.fbits := by
    have h2 : (2 : ℚ) ^ e ≠ 0 := by positivity
    rw [div_div, div_eq_iff (mul_ne_zero hu.ne' h2)]
    linear_combination (-(3 / 2 + d)) * hulp + 3 / 2 * (f.unit * 2 ^ e) * hp
  have hpnat : 2 ^ f.fbits = 2 * 2 ^ (k + 1) := by exact_mod_cast hp
  have hmag : mag f.fbits (f.low (onePointFive f)) = 3 * 2 ^ (k + 1) * 2 ^ e := by
    have hpos := Nat.two_pow_pos (k + 1)
    have hlo' : 2 ^ f.fbits ≤ 3 * 2 ^ (k + 1) := by rw [hpnat]; omega
    have hhi' : 3 * 2 ^ (k + 1) < 2 * 2 ^ f.fbits := by rw [hpnat]; omega
    rw [hl, show f.fbits - 1 = k + 1 by omega]
    exact mag_normal hlo' hhi'
  refine ⟨f.low (onePointFive f), ⟨e, 3 * 2 ^ (k + 1), ⟨?_, fun _ => ?_⟩, ?_, hmag⟩, ?_⟩
  · rw [div_lt_iff₀ hu]
    linarith
  · rw [le_div_iff₀ hu]
    linarith
  · have hdist : |(3 * 2 ^ (k + 1) + d * 2 ^ f.fbits : ℚ) - ((3 * 2 ^ (k + 1) : ℕ) : ℤ)| < 1 / 2 := by
      push_cast
      rw [add_sub_cancel_left, abs_mul, abs_of_pos (by positivity : (0 : ℚ) < 2 ^ f.fbits)]
      linarith
    rw [hq]
    exact ⟨hdist.le, fun h => absurd h hdist.ne⟩
  · rw [encode_of_lt (low_onePointFive_lt hf)]
    cases f
    · exact absurd rfl hf
    · rfl
    · rfl

/-- The product of tiny factors does not show. -/
theorem isStep_tiny (hf : f ≠ .h) (hn : f.low n < 2 * 2 ^ f.fbits) (hm : f.low m < 2 * 2 ^ f.fbits) :
    IsStep f true n m (onePointFive f) := by
  have hinf := @expField_inf_le f
  have hi : (f.isInf n || f.isInf m) = false := by
    rw [Bool.or_eq_false_iff, ← Bool.not_eq_true, ← Bool.not_eq_true, Fmt.isInf_iff, Fmt.isInf_iff]
    omega
  have hsmall {x : U64} (hx : f.low x < 2 * 2 ^ f.fbits) : |f.value x| < 2 * 2 ^ f.fbits * f.unit := by
    have hmag : (mag f.fbits (f.low x) : ℚ) < 2 * 2 ^ f.fbits := by
      have h := mag_strictMono f.fbits hx
      rw [show 2 * 2 ^ f.fbits = (1 + 1) * 2 ^ f.fbits + (2 ^ f.fbits - 2 ^ f.fbits) by omega,
        mag_normal le_rfl (by omega), pow_one, mul_comm] at h
      exact_mod_cast h
    rwa [← f.abs_value, div_lt_iff₀ f.unit_pos] at hmag
  have hbound : 2 * 2 ^ f.fbits * f.unit * 2 ^ f.fbits ≤ 1 := by
    rw [← pow_succ', Fmt.unit, ← zpow_natCast, ← zpow_natCast, ← zpow_add₀ (by norm_num),
      ← zpow_add₀ (by norm_num)]
    refine zpow_le_one_of_nonpos₀ (by norm_num) ?_
    cases f
    · exact absurd rfl hf
    · decide
    · decide
  have hp : (1 : ℚ) ≤ 2 ^ f.fbits := one_le_pow₀ (by norm_num)
  have hhalf : |f.value n * f.value m / 2| * (2 * 2 ^ f.fbits) < 1 := by
    have hu := f.unit_pos
    have hm1 : |f.value m| < 1 := (hsmall hm).trans_le (by nlinarith)
    calc |f.value n * f.value m / 2| * (2 * 2 ^ f.fbits)
        = |f.value n| * 2 ^ f.fbits * |f.value m| := by rw [abs_div, abs_mul, abs_two]; ring
      _ ≤ |f.value n| * 2 ^ f.fbits := mul_le_of_le_one_right (by positivity) hm1.le
      _ < 1 := (mul_lt_mul_of_pos_right (hsmall hn) (by linarith)).trans_le hbound
  have hprod : |f.value n * f.value m / 2| * 2 ^ (f.fbits + 1) < 1 := by rwa [pow_succ']
  have hstep : exactStep f true n m = 3 / 2 + f.value n * f.value m / 2 := by
    rw [exactStep, if_pos rfl]
    ring
  have hr := rounded_onePointFive hf hprod
  have hpos : 0 < 3 / 2 + f.value n * f.value m / 2 := by
    have hlt : |f.value n * f.value m / 2| < 1 := by nlinarith [abs_nonneg (f.value n * f.value m / 2)]
    linarith [(abs_lt.mp hlt).1]
  rw [IsStep, hi, if_neg Bool.false_ne_true, hstep, decide_eq_false hpos.not_gt, abs_of_pos hpos]
  split_ifs
  · rfl
  · exact hr

theorem invalidProduct_comm : invalidProduct f n m = invalidProduct f m n := by
  rw [invalidProduct, invalidProduct, Bool.or_comm, Bool.and_comm, Bool.and_comm (f.isInf n)]

/-- The product is the same with its factors swapped. -/
theorem isStep_comm : IsStep f squareRoot n m r ↔ IsStep f squareRoot m n r := by
  have hx : exactStep f squareRoot n m = exactStep f squareRoot m n := by
    rw [exactStep, exactStep, mul_comm]
  rw [IsStep, IsStep, @invalidProduct_comm f n m, hx, Bool.or_comm, Bool.xor_comm]

/-! ## The helpers -/

@[simp] theorem isZero_neg (f : Fmt) (x : U64) : f.isZero (f.neg x) = f.isZero x := by
  rw [Bool.eq_iff_iff, isZero_iff_low, isZero_iff_low, low_neg]

theorem Halves.neg {x : U64} (h : Halves f n x) : Halves f (f.neg n) (f.neg x) where
  encodes := encodes_neg f x
  isNan := by rw [isNan_neg, h.isNan]
  isInf := by rw [isInf_neg, isInf_neg, h.isInf]
  isZero := by rw [isZero_neg, isZero_neg, h.isZero]
  sign := by rw [sign_neg, sign_neg, h.sign]
  value hi := by
    rw [isInf_neg] at hi
    rw [value_neg, value_neg, h.value hi]
    ring

/-- The helper of a step. -/
def newtonStep (fma : HostMulAdd) (f : Fmt) (squareRoot : Bool) (a b : U64) (st : St) : U64 × St :=
  if squareRoot then frsqrts fma f a b st else frecps fma f a b st

theorem newtonStep_nan {res : U64 × St} (h : processNans f [f.neg a, b] st = some res) :
    newtonStep fma f squareRoot a b st = res := by
  rw [newtonStep, frsqrts, frecps, h]
  exact ite_self _

theorem frecps_numbers (hfma : IsMulAdd fma) (hf : f ≠ .h) (hb : f.Encodes b)
    (hna : f.isNan a = false) (hnb : f.isNan b = false) (hnone : processNans f [f.neg a, b] st = none) :
    (frecps fma f a b st).2 = (flushIn f b (flushIn f a st).2).2 ∧
      IsStep f false (f.neg (flushIn f a st).1) (flushIn f b (flushIn f a st).2).1
        (frecps fma f a b st).1 := by
  rw [frecps, hnone]
  dsimp only
  have hna' := (@isNan_flushIn f a st).trans hna
  have hnb' := (@isNan_flushIn f b (flushIn f a st).2).trans hnb
  have hb' := @encodes_flushIn f b (flushIn f a st).2 hb
  generalize (flushIn f b (flushIn f a st).2).1 = y at *
  generalize (flushIn f a st).1 = x at *
  split_ifs with hv
  · refine ⟨rfl, ?_⟩
    rw [IsStep, invalidProduct, isInf_neg, isZero_neg, if_pos hv]
    rfl
  · have hv' : invalidProduct f (f.neg x) y = false := by
      rw [invalidProduct, isInf_neg, isZero_neg]
      exact Bool.eq_false_iff.mpr hv
    have hstep := isStep_two hfma hf (encodes_neg f x) hb' ((isNan_neg f x).trans hna') hnb' hv'
    rw [hstep.finish hf]
    exact ⟨rfl, hstep⟩

theorem frsqrts_numbers (hfma : IsMulAdd fma) (hf : f ≠ .h) (ha : f.Encodes a) (hb : f.Encodes b)
    (hna : f.isNan a = false) (hnb : f.isNan b = false) (hnone : processNans f [f.neg a, b] st = none) :
    (frsqrts fma f a b st).2 = (flushIn f b (flushIn f a st).2).2 ∧
      IsStep f true (f.neg (flushIn f a st).1) (flushIn f b (flushIn f a st).2).1
        (frsqrts fma f a b st).1 := by
  rw [frsqrts, hnone]
  dsimp only
  have hna' := (@isNan_flushIn f a st).trans hna
  have hnb' := (@isNan_flushIn f b (flushIn f a st).2).trans hnb
  have ha' := @encodes_flushIn f a st ha
  have hb' := @encodes_flushIn f b (flushIn f a st).2 hb
  generalize (flushIn f b (flushIn f a st).2).1 = y at *
  generalize (flushIn f a st).1 = x at *
  split_ifs with hv
  · refine ⟨rfl, ?_⟩
    rw [IsStep, invalidProduct, isInf_neg, isZero_neg, if_pos hv]
    rfl
  have hv' : invalidProduct f (f.neg x) y = false := by
    rw [invalidProduct, isInf_neg, isZero_neg]
    exact Bool.eq_false_iff.mpr hv
  rw [halved]
  simp only [decide_eq_true_eq, halvable_iff]
  split_ifs with hx hy
  · have hstep := isStep_half_left hfma hf hb' hnb' hv' (halves_half ha' hna' hx).neg
    dsimp only
    rw [hstep.finish hf]
    exact ⟨rfl, hstep⟩
  · have hstep := isStep_half_right hfma hf (encodes_neg f x) ((isNan_neg f x).trans hna') hv'
      (halves_half hb' hnb' hy)
    dsimp only
    rw [hstep.finish hf]
    exact ⟨rfl, hstep⟩
  · refine ⟨rfl, isStep_tiny hf ?_ (Nat.not_le.mp hy)⟩
    rw [low_neg]
    exact Nat.not_le.mp hx

theorem not_isNan_of_none (h : processNans f [n, m] st = none) :
    f.isNan n = false ∧ f.isNan m = false := by
  rw [processNans] at h
  split at h
  · cases h
  · rw [Option.map_eq_none_iff, List.find?_eq_none] at h
    simpa using h

/-- **The helpers return the step with one rounding**, and report what they flush. -/
theorem newtonStep_numbers (hfma : IsMulAdd fma) (hf : f ≠ .h) (ha : f.Encodes a) (hb : f.Encodes b)
    (hnone : processNans f [f.neg a, b] st = none) :
    (newtonStep fma f squareRoot a b st).2 = (flushIn f b (flushIn f a st).2).2 ∧
      IsStep f squareRoot (f.neg (flushIn f a st).1) (flushIn f b (flushIn f a st).2).1
        (newtonStep fma f squareRoot a b st).1 := by
  have hnan := not_isNan_of_none hnone
  rw [isNan_neg] at hnan
  rw [newtonStep]
  cases squareRoot with
  | true => exact frsqrts_numbers hfma hf ha hb hnan.1 hnan.2 hnone
  | false => exact frecps_numbers hfma hf hb hnan.1 hnan.2 hnone

end steps

end Interp
end Rustarmic
