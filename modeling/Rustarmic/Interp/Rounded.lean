import Rustarmic.Interp.Compare
import Rustarmic.Lib.FormatRounding

/-!
# Values and their rounding

What an encoding stands for as a rational number, and what it means that a rational number is
rounded to an encoding.

* `Fmt.value` — the value of an encoding.
* `Round.Rounds` — the rounding of a mode, of a magnitude with a sign.
* `Fmt.Rounded` — the rounding of a number to the format, with overflow.
* `Fmt.Rounded.unique` — there is one result.

The source rounds with integers, and in several places in several ways.  For saying that any of them
is right one needs a definition that computes nothing: a number is rounded to the *nearest* value,
or to the next one in a direction.  Magnitudes are counted in units of the least subnormal, so that
every finite value is an integer there and `Lib.BinaryFormat`, which knows about digits and binades,
can be used for all three formats.

* **Signs.**  A directed mode goes up or down, and for a magnitude that depends on the sign; hence
  `Rounds` has it as an argument.
* **Overflow** is decided after rounding, as the architecture does: the result is rounded as if the
  exponent had no bound, and what comes out too large is an infinity or the largest number, by the
  mode.
* **Uniqueness** is what turns the definition into a tool, since two ways of rounding that both
  satisfy it are equal.
-/

set_option autoImplicit false

namespace Rustarmic
namespace Interp

open BinaryFormat Rounding

/-! ## Values -/

namespace Fmt

variable (f : Fmt) (x : U64)

/-- The least subnormal. -/
def unit : ℚ := 2 ^ (1 - f.bias - f.fbits)

def value : ℚ := f.units x * f.unit

theorem unit_pos : 0 < f.unit := zpow_pos (by norm_num) _

theorem abs_units : |(f.units x : ℚ)| = mag f.fbits (f.low x) := by
  rw [units]
  split_ifs
  · push_cast
    rw [abs_neg, Nat.abs_cast]
  · push_cast
    rw [Nat.abs_cast]

theorem abs_value : |f.value x| / f.unit = mag f.fbits (f.low x) := by
  have hu := f.unit_pos
  rw [value, abs_mul, abs_units, abs_of_pos hu, mul_div_cancel_right₀ _ hu.ne']

theorem value_eq_zero : f.value x = 0 ↔ f.low x = 0 := by
  have hmag := mag_pos_iff f.fbits (f.low x)
  have hdiv : |f.value x| / f.unit = 0 ↔ |f.value x| = 0 := by
    rw [div_eq_zero_iff, or_iff_left f.unit_pos.ne']
  rw [← abs_eq_zero, ← hdiv, abs_value, Nat.cast_eq_zero]
  omega

end Fmt

/-! ## Rounding -/

/-- The rounding of the magnitude `q` of a number with this sign. -/
def Round.Rounds (mode : Round) (neg : Bool) (q : ℚ) (n : ℤ) : Prop :=
  match mode with
  | .tieEven => NearestEven q n
  | .tieAway => NearestAway q n
  | .posInf => if neg then Downward q n else Upward q n
  | .negInf => if neg then Upward q n else Downward q n
  | .zero => TowardZero q n
  | .odd => ToOdd q n

/-- Whether a mode overflows to infinity. -/
def Round.toInf (mode : Round) (neg : Bool) : Bool :=
  match mode with
  | .tieEven | .tieAway => true
  | .posInf => !neg
  | .negInf => neg
  | .zero | .odd => false

/-- An encoding of a number that is not infinite. -/
structure Fmt.Finite (f : Fmt) (x : U64) : Prop where
  encodes : f.Encodes x
  isNan : f.isNan x = false
  isInf : f.isInf x = false

namespace Fmt

variable (f : Fmt)

/-- The encoding with a sign and a magnitude, which overflows from infinity on. -/
def encode (mode : Round) (neg : Bool) (l : Nat) : U64 :=
  if f.infLow ≤ l then if mode.toInf neg then f.inf neg else f.maxNormal neg
  else f.zero neg ||| BitVec.ofNat 64 l

/-- `r` is the number with the magnitude `x` and this sign, rounded to the format. -/
def Rounded (mode : Round) (neg : Bool) (x : ℚ) (r : U64) : Prop :=
  ∃ l, BinaryFormat.Rounds f.fbits (mode.Rounds neg) (x / f.unit) l ∧ r = f.encode mode neg l

end Fmt

variable {f : Fmt} {mode : Round} {neg : Bool} {x : ℚ} {r r' : U64} {l : Nat}

theorem Round.Rounds.unique {q : ℚ} {n m : ℤ} (h : mode.Rounds neg q n) (h' : mode.Rounds neg q m) :
    n = m := by
  cases mode with
  | tieEven => exact NearestEven.unique h h'
  | tieAway => exact NearestAway.unique h h'
  | zero => exact TowardZero.unique h h'
  | odd => exact ToOdd.unique h h'
  | posInf =>
    cases neg
    · exact Upward.unique h h'
    · exact Downward.unique h h'
  | negInf =>
    cases neg
    · exact Downward.unique h h'
    · exact Upward.unique h h'

theorem close_downward : Close Downward := fun q n h =>
  abs_lt.mpr ⟨by linarith [h.1], by linarith [h.2]⟩

theorem close_upward : Close Upward := fun q n h =>
  abs_lt.mpr ⟨by linarith [h.2], by linarith [h.1]⟩

theorem close_rounds (mode : Round) (neg : Bool) : Close (mode.Rounds neg) := by
  intro q n h
  cases mode with
  | tieEven => exact close_nearestEven q n h
  | tieAway => exact h.1.trans_lt (by norm_num)
  | zero =>
    rcases le_total 0 q with hq | hq
    · exact close_downward q n (h.1 hq)
    · exact close_upward q n (h.2 hq)
  | odd => exact h.1
  | posInf =>
    cases neg
    · exact close_upward q n h
    · exact close_downward q n h
  | negInf =>
    cases neg
    · exact close_downward q n h
    · exact close_upward q n h

theorem Fmt.Rounded.unique (h : f.Rounded mode neg x r) (h' : f.Rounded mode neg x r') : r = r' := by
  obtain ⟨l, hl, hr⟩ := h
  obtain ⟨l', hl', hr'⟩ := h'
  have heq := @Rounds.unique f.fbits (x / f.unit) l l' (mode.Rounds neg)
    (fun _ _ _ h h' => Round.Rounds.unique h h') hl hl'
  rw [hr, hr', heq]

/-! ## Encodings -/

theorem infLow_lt (f : Fmt) : f.infLow < 2 ^ (f.bits - 1) := by
  have hpos := Nat.two_pow_pos f.fbits
  have he := Nat.two_pow_pos f.ebits
  rw [Fmt.bits_split, Fmt.infLow, Nat.mul_comm (2 ^ f.fbits)]
  exact Nat.mul_lt_mul_of_pos_right (by omega) hpos

theorem toNat_or_zero (hl : l < 2 ^ (f.bits - 1)) :
    (f.zero neg ||| BitVec.ofNat 64 l).toNat = (if neg then 2 ^ (f.bits - 1) else 0) + l := by
  have hbits : 2 ^ (f.bits - 1) ≤ 2 ^ 63 := Nat.pow_le_pow_right (by decide) (by cases f <;> decide)
  rw [BitVec.toNat_or, Fmt.toNat_zero, BitVec.toNat_ofNat, Nat.mod_eq_of_lt (by omega)]
  cases neg with
  | false => rw [if_neg Bool.false_ne_true, Nat.zero_or, Nat.zero_add]
  | true =>
    have h := Nat.two_pow_add_eq_or_of_lt hl 1
    rw [Nat.mul_one] at h
    rw [if_pos rfl, h]

theorem low_or_zero (hl : l < 2 ^ (f.bits - 1)) : f.low (f.zero neg ||| BitVec.ofNat 64 l) = l := by
  rw [Fmt.low, toNat_or_zero hl]
  cases neg with
  | false => rw [if_neg Bool.false_ne_true, Nat.zero_add, Nat.mod_eq_of_lt hl]
  | true => rw [if_pos rfl, Nat.add_mod_left, Nat.mod_eq_of_lt hl]

theorem encodes_or_zero (hl : l < 2 ^ (f.bits - 1)) : f.Encodes (f.zero neg ||| BitVec.ofNat 64 l) := by
  have hsplit : 2 ^ f.bits = 2 * 2 ^ (f.bits - 1) := by cases f <;> rfl
  rw [Fmt.Encodes, toNat_or_zero hl]
  split_ifs <;> omega

theorem sign_or_zero (hl : l < 2 ^ (f.bits - 1)) :
    f.sign (f.zero neg ||| BitVec.ofNat 64 l) = neg := by
  have hpos := Nat.two_pow_pos (f.bits - 1)
  rw [Bool.eq_iff_iff, Fmt.sign_iff, toNat_or_zero hl]
  cases neg with
  | false =>
    rw [if_neg Bool.false_ne_true, Nat.zero_add, Nat.div_eq_of_lt hl]
    decide
  | true =>
    rw [if_pos rfl, Nat.add_div_left _ hpos, Nat.div_eq_of_lt hl]
    decide

/-- What is below infinity is a number. -/
theorem encode_of_lt (h : l < f.infLow) : f.encode mode neg l = f.zero neg ||| BitVec.ofNat 64 l :=
  if_neg (Nat.not_le.mpr h)

theorem low_maxNormal (f : Fmt) (neg : Bool) : f.low (f.maxNormal neg) = f.infLow - 1 := by
  cases f <;> cases neg <;> rfl

theorem sign_maxNormal (f : Fmt) (neg : Bool) : f.sign (f.maxNormal neg) = neg := by
  cases f <;> cases neg <;> rfl

theorem encodes_maxNormal (f : Fmt) (neg : Bool) : f.Encodes (f.maxNormal neg) := by
  cases f <;> cases neg <;> decide

variable (f mode neg l)

theorem sign_encode : f.sign (f.encode mode neg l) = neg := by
  rw [Fmt.encode]
  split_ifs with h
  · exact Fmt.sign_inf neg
  · exact sign_maxNormal f neg
  · exact sign_or_zero ((Nat.not_le.mp h).trans (infLow_lt f))

theorem encodes_encode : f.Encodes (f.encode mode neg l) := by
  rw [Fmt.encode]
  split_ifs with h
  · exact Fmt.encodes_inf neg
  · exact encodes_maxNormal f neg
  · exact encodes_or_zero ((Nat.not_le.mp h).trans (infLow_lt f))

theorem low_encode_le : f.low (f.encode mode neg l) ≤ f.infLow := by
  rw [Fmt.encode]
  split_ifs with h
  · exact (Fmt.low_inf neg).le
  · rw [low_maxNormal]
    omega
  · rw [low_or_zero ((Nat.not_le.mp h).trans (infLow_lt f))]
    exact (Nat.not_le.mp h).le

theorem low_encode_tieEven : f.low (f.encode .tieEven neg l) = min l f.infLow := by
  rw [Fmt.encode]
  split_ifs with h hinf
  · rw [Fmt.low_inf, Nat.min_eq_right h]
  · exact absurd rfl hinf
  · rw [low_or_zero ((Nat.not_le.mp h).trans (infLow_lt f)), Nat.min_eq_left (Nat.not_le.mp h).le]

variable {f mode neg l}

theorem Fmt.Rounded.sign (h : f.Rounded mode neg x r) : f.sign r = neg := by
  obtain ⟨l, -, rfl⟩ := h
  exact sign_encode f mode neg l

theorem Fmt.Rounded.encodes (h : f.Rounded mode neg x r) : f.Encodes r := by
  obtain ⟨l, -, rfl⟩ := h
  exact encodes_encode f mode neg l

theorem Fmt.Rounded.isNan (h : f.Rounded mode neg x r) : f.isNan r = false := by
  obtain ⟨l, -, rfl⟩ := h
  rw [← Bool.not_eq_true, Fmt.isNan_iff]
  exact Nat.not_lt.mpr (low_encode_le f mode neg l)

/-! ## Exact results -/

/-- **A value of the format is rounded to itself.** -/
theorem Fmt.Rounded.exact (h : f.Rounded mode neg x r) (hl : l < f.infLow)
    (hx : (mag f.fbits l : ℚ) * f.unit = x) : f.low r = l ∧ f.Finite r ∧ |f.value r| = x := by
  have hnan := h.isNan
  have hr := h.encodes
  obtain ⟨l', hl', rfl⟩ := h
  rw [← hx, mul_div_cancel_right₀ _ f.unit_pos.ne'] at hl'
  obtain rfl := hl'.eq_of_mag (close_rounds mode neg)
  have hlow : f.low (f.encode mode neg l') = l' := by
    rw [encode_of_lt hl, low_or_zero (hl.trans (infLow_lt f))]
  have habs := f.abs_value (f.encode mode neg l')
  rw [hlow, div_eq_iff f.unit_pos.ne'] at habs
  refine ⟨hlow, ⟨hr, hnan, ?_⟩, habs.trans hx⟩
  rw [← Bool.not_eq_true, Fmt.isInf_iff, hlow]
  exact hl.ne

theorem mag_infLow (f : Fmt) : (mag f.fbits f.infLow : ℚ) * f.unit = 2 ^ (f.bias + 1) := by
  have hpos := Nat.two_pow_pos f.fbits
  have he : ((2 ^ f.ebits - 1 - 1 : ℕ) : ℤ) = 2 * f.bias := by cases f <;> rfl
  have hne : 2 ^ f.ebits - 1 ≠ 0 := by cases f <;> decide
  rw [mag, Fmt.infLow, Nat.mul_div_cancel _ hpos, Nat.mul_mod_left, if_neg hne, Fmt.unit]
  push_cast
  rw [add_zero, ← zpow_natCast, ← zpow_natCast, he, ← zpow_add₀ (by norm_num), ← zpow_add₀ (by norm_num)]
  congr 1
  ring

/-- A sign and a magnitude determine the encoding. -/
theorem eq_of_abs_value (hr : f.Encodes r) (hr' : f.Encodes r') (hs : f.sign r = f.sign r')
    (h : |f.value r| = |f.value r'|) : r = r' := by
  have hmag : (mag f.fbits (f.low r) : ℚ) = mag f.fbits (f.low r') := by
    rw [← f.abs_value, ← f.abs_value, h]
  exact Fmt.encoding_ext hr hr' hs ((mag_strictMono f.fbits).injective (by exact_mod_cast hmag))

theorem value_of_sign (hs : f.sign r = false) : f.value r = |f.value r| := by
  have hu := f.unit_pos
  rw [eq_comm, abs_eq_self, Fmt.value, Fmt.units, hs, if_neg Bool.false_ne_true]
  positivity

/-- Short multiples of the unit, and of its multiples by a power of two, are values. -/
theorem exists_low_of_lt {x : ℚ} {k e : ℕ} (hk : k ≤ 2 * 2 ^ f.fbits)
    (hx : (k : ℚ) * 2 ^ e * f.unit = x) (hlt : x < 2 ^ (f.bias + 1)) :
    ∃ l < f.infLow, (mag f.fbits l : ℚ) * f.unit = x := by
  obtain ⟨l, hl⟩ := exists_mag hk e
  have hval : (mag f.fbits l : ℚ) * f.unit = x := by
    rw [hl, ← hx]
    push_cast
    rfl
  refine ⟨l, ?_, hval⟩
  have hmag : (mag f.fbits l : ℚ) < mag f.fbits f.infLow := by
    rw [← mul_lt_mul_iff_left₀ f.unit_pos, hval, mag_infLow]
    exact hlt
  exact (mag_strictMono f.fbits).lt_iff_lt.mp (by exact_mod_cast hmag)

/-- Integers of up to `f.fbits + 1` bits are values. -/
theorem exists_low_natCast (f : Fmt) {n : ℕ} (hn : n ≤ 2 * 2 ^ f.fbits) :
    ∃ l < f.infLow, (mag f.fbits l : ℚ) * f.unit = n := by
  obtain ⟨e, he⟩ : ∃ e : ℕ, (e : ℤ) = f.bias + f.fbits - 1 := by
    cases f
    · exact ⟨24, rfl⟩
    · exact ⟨149, rfl⟩
    · exact ⟨1074, rfl⟩
  have hlt : (2 : ℚ) * 2 ^ f.fbits < 2 ^ (f.bias + 1) := by
    rw [← pow_succ', ← zpow_natCast]
    refine zpow_lt_zpow_right₀ (by norm_num) ?_
    cases f <;> decide
  have hn' : (n : ℚ) ≤ 2 * 2 ^ f.fbits := by exact_mod_cast hn
  refine exists_low_of_lt hn (e := e) ?_ (hn'.trans_lt hlt)
  rw [Fmt.unit, mul_assoc, ← zpow_natCast, he, ← zpow_add₀ (by norm_num),
    show f.bias + f.fbits - 1 + (1 - f.bias - f.fbits) = 0 by ring, zpow_zero, mul_one]

end Interp
end Rustarmic
