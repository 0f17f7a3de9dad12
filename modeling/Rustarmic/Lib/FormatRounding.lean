import Mathlib.Algebra.Order.Archimedean.Basic
import Mathlib.Data.Rat.Floor
import Rustarmic.Lib.BinaryFormat
import Rustarmic.Lib.Rounding

/-!
# Rounding to a binary interchange format

A magnitude, in units of the least subnormal, becomes a multiple of the unit in its last place.  The
encodings go on past infinity, so that overflow is a comparison of the result with it.

* `Ulp` — the exponent of the unit in the last place.
* `Rounds` — the encoding of the rounded magnitude, for any rounding to integers.
* `Rounds.unique`, `exists_rounds` — there is one result.
* `Rounds.le_of_mag_le`, `Rounds.le_of_le_mag` — no encoding is passed over.

A rounding to a format is a rounding to integers at the right scale, and that is the definition:
divide by the unit in the last place, round, multiply.  It has the rounding to integers as a
parameter, so that the five modes of the standard and rounding to odd need one theory.  Units of the
least subnormal make the subnormal numbers an ordinary case, as the unit is never below one.

Encodings in their order are numbers in theirs.  A significand that carries into the next binade
gives the next encoding, and nothing has to be said about it; for the same reason comparing
encodings is comparing magnitudes, and the rounded number lies on the same side of every number of
the format as the exact one did.
-/

set_option autoImplicit false

namespace BinaryFormat

open Rounding

variable {p : ℕ} {x y : ℚ} {e l k : ℕ} {R : ℚ → ℤ → Prop}

/-! ## The unit in the last place -/

/-- The last place of `x` has the weight `2 ^ e`. -/
structure Ulp (p : ℕ) (x : ℚ) (e : ℕ) : Prop where
  lt : x < 2 * 2 ^ p * 2 ^ e
  le : e ≠ 0 → (2 ^ p * 2 ^ e : ℚ) ≤ x

theorem Ulp.le_of_le {e' : ℕ} (h : Ulp p x e) (h' : Ulp p y e') (hxy : x ≤ y) : e ≤ e' := by
  by_contra hlt
  obtain ⟨d, rfl⟩ := Nat.exists_eq_add_of_lt (Nat.lt_of_not_le hlt)
  have hle := h.le (by omega)
  have hpow : (1 : ℚ) ≤ 2 ^ d := one_le_pow₀ (by norm_num)
  have hpos : (0 : ℚ) < 2 ^ p * 2 ^ e' := by positivity
  have hstep : (2 : ℚ) ^ p * 2 ^ (e' + d + 1) = 2 * (2 ^ p * 2 ^ e') * 2 ^ d := by ring
  nlinarith [h'.lt]

theorem Ulp.unique {e' : ℕ} (h : Ulp p x e) (h' : Ulp p x e') : e = e' :=
  Nat.le_antisymm (h.le_of_le h' le_rfl) (h'.le_of_le h le_rfl)

theorem exists_ulp (p : ℕ) (x : ℚ) : ∃ e, Ulp p x e := by
  have hex : ∃ e : ℕ, x < 2 * 2 ^ p * 2 ^ e := by
    obtain ⟨e, he⟩ := pow_unbounded_of_one_lt x (by norm_num : (1 : ℚ) < 2)
    refine ⟨e, he.trans_le ?_⟩
    have hp : (1 : ℚ) ≤ 2 ^ p := one_le_pow₀ (by norm_num)
    have he' : (0 : ℚ) < 2 ^ e := by positivity
    nlinarith
  classical
  refine ⟨Nat.find hex, Nat.find_spec hex, fun hne => ?_⟩
  obtain ⟨e, he⟩ := Nat.exists_eq_succ_of_ne_zero hne
  have hmin := Nat.find_min hex (m := e) (by omega)
  rw [he, pow_succ]
  linarith

/-- The unit of an encoding. -/
theorem ulp_mag (p l : ℕ) : ∃ e sig : ℕ, Ulp p (mag p l) e ∧ mag p l = sig * 2 ^ e := by
  have hpos := Nat.two_pow_pos p
  have hmod := Nat.mod_lt l hpos
  rw [mag]
  split_ifs with hz
  · refine ⟨0, l % 2 ^ p, ⟨?_, fun h => absurd rfl h⟩, by rw [pow_zero, Nat.mul_one]⟩
    rw [pow_zero, mul_one]
    exact_mod_cast (by omega : l % 2 ^ p < 2 * 2 ^ p)
  · refine ⟨l / 2 ^ p - 1, 2 ^ p + l % 2 ^ p, ⟨?_, fun _ => ?_⟩, rfl⟩
    · exact_mod_cast Nat.mul_lt_mul_of_pos_right (by omega : 2 ^ p + l % 2 ^ p < 2 * 2 ^ p)
        (Nat.two_pow_pos _)
    · exact_mod_cast Nat.mul_le_mul_right _ (Nat.le_add_right (2 ^ p) _)

/-! ## Rounding -/

/-- `l` is the encoding of `x` rounded to a multiple of its unit. -/
def Rounds (p : ℕ) (R : ℚ → ℤ → Prop) (x : ℚ) (l : ℕ) : Prop :=
  ∃ e n : ℕ, Ulp p x e ∧ R (x / 2 ^ e) n ∧ mag p l = n * 2 ^ e

/-- A rounding that stops at the next integer. -/
def Close (R : ℚ → ℤ → Prop) : Prop := ∀ q n, R q n → |q - n| < 1

theorem Rounds.unique (hR : ∀ q n m, R q n → R q m → n = m) (h : Rounds p R x l)
    (h' : Rounds p R x k) : l = k := by
  obtain ⟨e, n, hulp, hn, hl⟩ := h
  obtain ⟨e', m, hulp', hm, hk⟩ := h'
  obtain rfl := hulp.unique hulp'
  have hnm : n = m := by exact_mod_cast hR _ _ _ hn hm
  rw [← hnm, ← hl] at hk
  exact (mag_strictMono p).injective hk.symm

section close

variable (hR : Close R)
include hR

/-- The rounded significand may carry, and is subnormal only in the lowest place. -/
theorem Ulp.bounds (h : Ulp p x e) {n : ℕ} (hn : R (x / 2 ^ e) n) :
    n ≤ 2 * 2 ^ p ∧ (n < 2 ^ p → e = 0) := by
  have hclose := abs_lt.mp (hR _ _ hn)
  have he : (0 : ℚ) < 2 ^ e := by positivity
  push_cast at hclose
  constructor
  · have hlt : x / 2 ^ e < 2 * 2 ^ p := (div_lt_iff₀ he).mpr h.lt
    have : (n : ℚ) < (2 * 2 ^ p + 1 : ℕ) := by
      push_cast
      linarith
    have : n < 2 * 2 ^ p + 1 := by exact_mod_cast this
    omega
  · intro hn
    by_contra hne
    have hle : (2 ^ p : ℚ) ≤ x / 2 ^ e := (le_div_iff₀ he).mpr (h.le hne)
    have : (n : ℚ) + 1 ≤ 2 ^ p := by exact_mod_cast hn
    linarith

theorem rounds_of_ulp (h : Ulp p x e) {n : ℕ} (hn : R (x / 2 ^ e) n) :
    Rounds p R x (e * 2 ^ p + n) := by
  obtain ⟨hhi, hsub⟩ := h.bounds hR hn
  exact ⟨e, n, h, hn, mag_significand hsub hhi⟩

theorem exists_rounds (hex : ∀ q : ℚ, 0 ≤ q → ∃ n : ℕ, R q n) (hx : 0 ≤ x) : ∃ l, Rounds p R x l := by
  obtain ⟨e, he⟩ := exists_ulp p x
  obtain ⟨n, hn⟩ := hex (x / 2 ^ e) (by positivity)
  exact ⟨_, rounds_of_ulp hR he hn⟩

/-- An encoding below the magnitude is not passed. -/
theorem Rounds.le_of_mag_le (h : Rounds p R x l) (hk : (mag p k : ℚ) ≤ x) : k ≤ l := by
  obtain ⟨e, n, hulp, hn, hl⟩ := h
  rw [← (mag_strictMono p).le_iff_le, hl]
  obtain ⟨hhi, hsub⟩ := hulp.bounds hR hn
  obtain ⟨e', sig, hulp', hsig⟩ := ulp_mag p k
  have hee := hulp'.le_of_le hulp hk
  have hclose := abs_lt.mp (hR _ _ hn)
  have he : (0 : ℚ) < 2 ^ e := by positivity
  push_cast at hclose
  rcases Nat.eq_or_lt_of_le hee with rfl | hlt
  · rw [hsig] at hk ⊢
    refine Nat.mul_le_mul_right _ ?_
    push_cast at hk
    have hsigle : (sig : ℚ) ≤ x / 2 ^ e' := (le_div_iff₀ he).mpr hk
    have : (sig : ℚ) < (n + 1 : ℕ) := by
      push_cast
      linarith
    have : sig < n + 1 := by exact_mod_cast this
    omega
  · -- All encodings of a lower binade are below the rounded significand.
    have hnormal : 2 ^ p ≤ n := by
      by_contra hsmall
      have := hsub (by omega)
      omega
    obtain ⟨d, rfl⟩ := Nat.exists_eq_add_of_lt hlt
    have hmag : mag p k < 2 * 2 ^ p * 2 ^ e' := by exact_mod_cast hulp'.lt
    calc mag p k ≤ 2 * 2 ^ p * 2 ^ e' := hmag.le
      _ = 2 ^ p * 2 ^ (e' + 1) := by ring
      _ ≤ n * 2 ^ (e' + d + 1) :=
        Nat.mul_le_mul hnormal (Nat.pow_le_pow_right (by decide) (by omega))

/-- An encoding above the magnitude is not passed. -/
theorem Rounds.le_of_le_mag (h : Rounds p R x l) (hk : x ≤ (mag p k : ℚ)) : l ≤ k := by
  obtain ⟨e, n, hulp, hn, hl⟩ := h
  rw [← (mag_strictMono p).le_iff_le, hl]
  obtain ⟨hhi, hsub⟩ := hulp.bounds hR hn
  obtain ⟨e', sig, hulp', hsig⟩ := ulp_mag p k
  have hee := hulp.le_of_le hulp' hk
  have hclose := abs_lt.mp (hR _ _ hn)
  have he : (0 : ℚ) < 2 ^ e := by positivity
  push_cast at hclose
  obtain ⟨d, rfl⟩ := Nat.exists_eq_add_of_le hee
  have hkq : x / 2 ^ e ≤ sig * 2 ^ d := by
    rw [div_le_iff₀ he]
    calc x ≤ mag p k := hk
      _ = sig * 2 ^ d * 2 ^ e := by
        rw [hsig]
        push_cast
        ring
  have : (n : ℚ) < (sig * 2 ^ d + 1 : ℕ) := by
    push_cast
    linarith
  have hnat : n < sig * 2 ^ d + 1 := by exact_mod_cast this
  calc n * 2 ^ e ≤ sig * 2 ^ d * 2 ^ e := Nat.mul_le_mul_right _ (by omega)
    _ = mag p k := by
      rw [hsig, pow_add]
      ring

theorem Rounds.eq_of_mag (h : Rounds p R (mag p k) l) : l = k :=
  Nat.le_antisymm (h.le_of_le_mag hR le_rfl) (h.le_of_mag_le hR le_rfl)

end close

/-- A short multiple of a power of two is a magnitude. -/
theorem exists_mag {p k : ℕ} (hk : k ≤ 2 * 2 ^ p) (e : ℕ) : ∃ l, mag p l = k * 2 ^ e := by
  induction e generalizing k with
  | zero => exact ⟨_, mag_significand (fun _ => rfl) hk⟩
  | succ e ih =>
    rcases Nat.lt_or_ge k (2 ^ p) with hlt | hge
    · obtain ⟨l, hl⟩ := ih (k := 2 * k) (by omega)
      exact ⟨l, by rw [hl, pow_succ]; ring⟩
    · exact ⟨_, mag_significand (fun h => absurd h (Nat.not_lt.mpr hge)) hk⟩

/-! ## Differences -/

/-- A significand is less than twice the leading bit. -/
theorem exists_significand (p l : ℕ) : ∃ sig e : ℕ, sig < 2 ^ (p + 1) ∧ mag p l = sig * 2 ^ e := by
  obtain ⟨e, sig, hulp, hsig⟩ := ulp_mag p l
  refine ⟨sig, e, ?_, hsig⟩
  have hlt : mag p l < 2 * 2 ^ p * 2 ^ e := by exact_mod_cast hulp.lt
  rw [hsig] at hlt
  rw [pow_succ']
  exact lt_of_mul_lt_mul_right hlt (Nat.zero_le _)

/-- A number that is not an integer differs from it by its last place at least, and one that is very
small by much more. -/
theorem gap_le_abs_sub {c s m : ℕ} {t : ℤ} (hc : 2 ≤ c) (hs : s < 2 ^ m) (h : (c : ℚ) ≠ s * 2 ^ t) :
    (2 : ℚ) ^ (-(m : ℤ)) ≤ |(c : ℚ) - s * 2 ^ t| := by
  have hc' : (2 : ℚ) ≤ c := by exact_mod_cast hc
  have hs' : (s : ℚ) < 2 ^ (m : ℤ) := by exact_mod_cast hs
  have hone : (2 : ℚ) ^ (-(m : ℤ)) ≤ 1 := zpow_le_one_of_nonpos₀ (by norm_num) (by omega)
  have hne : (c : ℚ) - s * 2 ^ t ≠ 0 := sub_ne_zero.mpr h
  rcases le_or_gt 0 t with ht | ht
  · -- Both are integers.
    obtain ⟨k, rfl⟩ := Int.eq_ofNat_of_zero_le ht
    rw [zpow_natCast] at hne ⊢
    have hint : (c : ℚ) - s * 2 ^ k = ((c - s * 2 ^ k : ℤ) : ℚ) := by push_cast; ring
    rw [hint] at hne ⊢
    refine hone.trans ?_
    exact_mod_cast Int.one_le_abs (by exact_mod_cast hne)
  · rcases le_or_gt (-(m : ℤ)) t with hm | hm
    · -- Both are multiples of the last place.
      obtain ⟨k, hk⟩ := Int.eq_ofNat_of_zero_le (by omega : 0 ≤ -t)
      obtain rfl : t = -(k : ℤ) := by omega
      have hpos : (0 : ℚ) < 2 ^ (-(k : ℤ)) := zpow_pos (by norm_num) _
      have hcancel : (2 : ℚ) ^ (k : ℤ) * 2 ^ (-(k : ℤ)) = 1 := by
        rw [← zpow_add₀ (by norm_num), add_neg_cancel, zpow_zero]
      have hint : (c : ℚ) - s * 2 ^ (-(k : ℤ)) = ((c * 2 ^ k - s : ℤ) : ℚ) * 2 ^ (-(k : ℤ)) := by
        push_cast
        rw [sub_mul, mul_assoc, ← zpow_natCast, hcancel, mul_one]
      rw [hint] at hne ⊢
      have hint0 : (c * 2 ^ k - s : ℤ) ≠ 0 := fun h0 => hne (by rw [h0, Int.cast_zero, zero_mul])
      have habs : (1 : ℚ) ≤ |((c * 2 ^ k - s : ℤ) : ℚ)| := by exact_mod_cast Int.one_le_abs hint0
      rw [abs_mul, abs_of_pos hpos]
      calc (2 : ℚ) ^ (-(m : ℤ)) ≤ 2 ^ (-(k : ℤ)) := zpow_le_zpow_right₀ (by norm_num) hm
        _ ≤ _ := le_mul_of_one_le_left hpos.le habs
    · -- The second one is less than one.
      have hlt : (s : ℚ) * 2 ^ t < 1 := by
        have hpos : (0 : ℚ) < 2 ^ t := zpow_pos (by norm_num) _
        calc (s : ℚ) * 2 ^ t ≤ 2 ^ (m : ℤ) * 2 ^ t := by gcongr
          _ = 2 ^ (m + t) := (zpow_add₀ (by norm_num) _ _).symm
          _ < 1 := zpow_lt_one_of_neg₀ (by norm_num) (by omega)
      rw [abs_of_pos (by linarith)]
      linarith

/-! ## Roundings to integers -/

theorem exists_guarded (hx : 0 ≤ x) : ∃ k half sticky, Guarded x k half sticky := by
  have hle := Nat.floor_le hx
  have hlt := Nat.lt_floor_add_one x
  refine ⟨⌊x⌋₊, decide ((⌊x⌋₊ : ℚ) + 1 / 2 ≤ x), decide (x ≠ ⌊x⌋₊ ∧ x ≠ ⌊x⌋₊ + 1 / 2), ?_⟩
  generalize (⌊x⌋₊ : ℕ) = k at hle hlt ⊢
  rcases hle.eq_or_lt with heq | hgt
  · rw [decide_eq_false (by rw [← heq]; linarith), decide_eq_false fun hne => hne.1 heq.symm]
    exact heq.symm
  · rcases lt_trichotomy x (k + 1 / 2) with h | h | h
    · rw [decide_eq_false (not_le.mpr h), decide_eq_true ⟨hgt.ne', h.ne⟩]
      exact ⟨hgt, h⟩
    · rw [decide_eq_true h.ge, decide_eq_false fun hne => hne.2 h]
      exact h
    · rw [decide_eq_true h.le, decide_eq_true ⟨hgt.ne', h.ne'⟩]
      exact ⟨h, hlt⟩

theorem close_nearestEven : Close NearestEven := fun _ _ h => h.1.trans_lt (by norm_num)

theorem exists_nearestEven (q : ℚ) (hq : 0 ≤ q) : ∃ n : ℕ, NearestEven q n := by
  obtain ⟨k, half, sticky, h⟩ := exists_guarded hq
  exact ⟨_, h.nearestEven⟩

end BinaryFormat
