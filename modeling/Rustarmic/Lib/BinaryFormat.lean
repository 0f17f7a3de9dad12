import Mathlib.Order.Monotone.Basic
import Mathlib.Tactic.Ring

/-!
# Magnitudes of a binary interchange format

A nonnegative encoding with `p` fraction bits, read as one number `l`: its fraction is `l % 2 ^ p`,
its biased exponent `l / 2 ^ p`.  Its magnitude is counted in units of the least subnormal, so it is
a natural number whatever the exponent range.

* `mag` — the magnitude; infinities are one step past the largest finite number.
* `mag_significand` — the encoding with a given significand and exponent.
* `mag_strictMono` — the order of the encodings is the order of the magnitudes.
-/

set_option autoImplicit false

namespace BinaryFormat

/-- The magnitude of the encoding `l`: subnormal without, normal with the implicit bit. -/
def mag (p l : Nat) : Nat :=
  if l / 2 ^ p = 0 then l % 2 ^ p else (2 ^ p + l % 2 ^ p) * 2 ^ (l / 2 ^ p - 1)

variable {p l : Nat}

theorem mag_of_lt (h : l < 2 ^ p) : mag p l = l := by
  rw [mag, if_pos (Nat.div_eq_of_lt h), Nat.mod_eq_of_lt h]

/-- A significand with its implicit bit, and an exponent. -/
theorem mag_normal {sig e : Nat} (hlo : 2 ^ p ≤ sig) (hhi : sig < 2 * 2 ^ p) :
    mag p ((e + 1) * 2 ^ p + (sig - 2 ^ p)) = sig * 2 ^ e := by
  have hpos := Nat.two_pow_pos p
  have hdiv : ((e + 1) * 2 ^ p + (sig - 2 ^ p)) / 2 ^ p = e + 1 := by
    rw [Nat.mul_comm, Nat.mul_add_div hpos, Nat.div_eq_of_lt (by omega), Nat.add_zero]
  have hmod : ((e + 1) * 2 ^ p + (sig - 2 ^ p)) % 2 ^ p = sig - 2 ^ p := by
    rw [Nat.mul_comm, Nat.mul_add_mod, Nat.mod_eq_of_lt (by omega)]
  rw [mag, hdiv, hmod, if_neg (by omega), Nat.add_sub_cancel, Nat.add_sub_cancel' hlo]

/-- A significand and the exponent of its unit.  One that has carried needs no adjustment. -/
theorem mag_significand {sig e : Nat} (hsub : sig < 2 ^ p → e = 0) (hhi : sig ≤ 2 * 2 ^ p) :
    mag p (e * 2 ^ p + sig) = sig * 2 ^ e := by
  have hpos := Nat.two_pow_pos p
  rcases Nat.lt_or_ge sig (2 ^ p) with hlt | hge
  · rw [hsub hlt, Nat.zero_mul, Nat.zero_add, mag_of_lt hlt, pow_zero, Nat.mul_one]
  · rcases Nat.lt_or_eq_of_le hhi with hlt | rfl
    · have hsplit : e * 2 ^ p + sig = (e + 1) * 2 ^ p + (sig - 2 ^ p) := by
        rw [Nat.succ_mul]
        omega
      rw [hsplit, mag_normal hge hlt]
    · have hsplit : e * 2 ^ p + 2 * 2 ^ p = (e + 1 + 1) * 2 ^ p + (2 ^ p - 2 ^ p) := by ring_nf; omega
      rw [hsplit, mag_normal le_rfl (by omega), pow_succ]
      ring

theorem mag_lt_succ (p l : Nat) : mag p l < mag p (l + 1) := by
  have hpos := Nat.two_pow_pos p
  have hr := Nat.mod_lt l hpos
  have hsplit := Nat.div_add_mod' l (2 ^ p)
  generalize hq : l / 2 ^ p = q at hsplit
  generalize hrem : l % 2 ^ p = r at hr hsplit
  by_cases hcarry : r + 1 = 2 ^ p
  · -- The next encoding has the next exponent and no fraction.
    have hnext : l + 1 = (q + 1) * 2 ^ p + (2 ^ p - 2 ^ p) := by
      rw [Nat.succ_mul]
      omega
    rw [hnext, mag_normal le_rfl (by omega), mag, hq, hrem]
    split_ifs with hzero
    · rw [hzero, pow_zero]
      omega
    · obtain ⟨e, rfl⟩ := Nat.exists_eq_add_of_le' (Nat.pos_of_ne_zero hzero)
      rw [Nat.add_sub_cancel, pow_succ', ← Nat.mul_assoc]
      exact Nat.mul_lt_mul_of_pos_right (by omega) (Nat.two_pow_pos e)
  · have hq' : (l + 1) / 2 ^ p = q := by
      rw [← hsplit, Nat.add_assoc, Nat.mul_comm, Nat.mul_add_div hpos,
        Nat.div_eq_of_lt (by omega), Nat.add_zero]
    have hr' : (l + 1) % 2 ^ p = r + 1 := by
      rw [← hsplit, Nat.add_assoc, Nat.mul_comm, Nat.mul_add_mod, Nat.mod_eq_of_lt (by omega)]
    rw [mag, mag, hq, hq', hrem, hr']
    split_ifs
    · omega
    · exact Nat.mul_lt_mul_of_pos_right (by omega) (Nat.two_pow_pos _)

/-- **The order of the encodings is the order of the magnitudes.** -/
theorem mag_strictMono (p : Nat) : StrictMono (mag p) := strictMono_nat_of_lt_succ (mag_lt_succ p)

theorem mag_zero (p : Nat) : mag p 0 = 0 := mag_of_lt (Nat.two_pow_pos p)

end BinaryFormat
