import Rustarmic.Interp.Rounded
import Rustarmic.Lib.Checked

/-!
# Rounding in software

`roundTo` rounds a significand and an exponent to a format, in any mode, and reports what happened.
The exponents are checked integers of 32 bits.

* `digits`, `roundsUp` — the integer part of a quotient by a power of two, the digits after it, and
  what the mode does with them.
* `roundTo` — the rounding.
* `roundTo_eq` — where no exponent overflows it is the rounding of the mode, with its reports.
* `roundTo_correct` — the same for every operand that the conversions can give it.

The function finds the exponent of the leading bit, shifts the significand so that the last place of
the format is a one, rounds that integer, and packs it; a carry out of the top makes the next
binade, which is right without a case since the encoding is the next number.  The proof follows
these steps, with the exact number as `m * 2 ^ exp` and the rounding as a relation
(`Interp.Rounded`).

* **Status.**  IXC is reported if the result is not the number, UFC if it is tiny as well, and
  tininess is found before rounding, as Arm does.  Overflow reports both OFC and IXC.  Under FPCR.FZ
  a tiny number is flushed to a zero with UFC alone.
* **Exponents.**  They are 32-bit integers in the source, and a large one overflows.  The model
  checks (`Lib.Checked`), and `roundTo_overflow` is a case in which it has no value; the theorem has
  the exact bound.
-/

set_option autoImplicit false

namespace Rustarmic
namespace Interp

open BinaryFormat Checked Rounding

/-! ## The rounding -/

/-- The integer part of `m / 2 ^ s`, the next digit, and whether anything follows. -/
def digits (m : U128) (s : Nat) : U128 × Bool × Bool :=
  let rem := m &&& ((1#128 <<< s) - 1#128)
  let halfbit := 1#128 <<< (s - 1)
  (m >>> s, rem &&& halfbit != 0#128, rem &&& (halfbit - 1#128) != 0#128)

/-- Whether the integer part is increased. -/
def roundsUp (mode : Round) (sign half sticky : Bool) (kept : U128) : Bool :=
  match mode with
  | .tieEven => half && (sticky || kept &&& 1#128 == 1#128)
  | .tieAway => half
  | .posInf => (half || sticky) && !sign
  | .negInf => (half || sticky) && sign
  | .zero | .odd => false

/-- The reports of a rounding. -/
def reported (inexact tiny : Bool) (st : St) : St :=
  if inexact then if tiny then (st.raise ixc).raise ufc else st.raise ixc else st

/-- Pack a significand of at most `f.fbits + 1` bits; `scale` is the exponent of its last bit. -/
def pack (f : Fmt) (sign : Bool) (sig : U128) (scale : Int) (mode : Round) (st : St) :
    Option (U64 × St) :=
  if sig = 0#128 then some (f.zero sign, st)
  else
    (if sig >>> f.fbits = 0#128 then some 0
      else (i32 (scale + f.fbits)).bind fun e => i32 (e + f.bias)).map fun biased =>
    if (f.emaxField.toNat : Int) ≤ biased then
      (if mode.toInf sign then f.inf sign else f.maxNormal sign, st.raise (ofc ||| ixc))
    else
      (f.zero sign ||| (BitVec.ofInt 64 biased <<< f.fbits) ||| (sig.setWidth 64 &&& f.fracMask), st)

/-- The digits of `m / 2 ^ shift`. -/
def shifted (m : U128) (shift : Int) : U128 × Bool × Bool :=
  if shift ≤ 0 then (m <<< (-shift).toNat, false, false)
  else if 128 ≤ shift then (0#128, false, true)
  else digits m shift.toNat

/-- Round the significand `mant / 2 ^ shift`; `scale` is the exponent of the last bit of the
result. -/
def roundShift (f : Fmt) (sign : Bool) (mant : U128) (shift scale : Int) (tiny : Bool) (mode : Round)
    (st : St) : Option (U64 × St) :=
  let (kept, half, sticky) := shifted mant shift
  let inexact := half || sticky
  let sig := if roundsUp mode sign half sticky kept then kept + 1#128 else kept
  let sig := if mode = .odd ∧ inexact then sig ||| 1#128 else sig
  if sig >>> (f.fbits + 1) ≠ 0#128 then
    pack f sign (sig >>> 1) (scale + 1) mode (reported inexact tiny st)
  else pack f sign sig scale mode (reported inexact tiny st)

/-- Round `(-1) ^ sign * mant * 2 ^ exp`, which is not zero, to the format. -/
def roundTo (f : Fmt) (sign : Bool) (mant : U128) (exp : Int) (mode : Round) (st : St) :
    Option (U64 × St) :=
  let emin := 1 - f.bias
  let msb : Int := mant.toNat.log2
  (i32 (msb + exp)).bind fun e =>
    let tiny := decide (e < emin)
    if tiny ∧ st.fz ∧ f ≠ .h then some (f.zero sign, st.raise ufc)
    else
      (i32 (if tiny then emin - f.fbits else e - f.fbits)).bind fun scale =>
        (i32 (scale - exp)).bind fun shift => roundShift f sign mant shift scale tiny mode st

/-! ## The digits -/

/-- The rounding of a mode, from the digits. -/
def Round.ofDigits (mode : Round) (neg half sticky : Bool) (k : Nat) : Nat :=
  match mode with
  | .tieEven => k + (half && (sticky || decide (k % 2 = 1))).toNat
  | .tieAway => k + half.toNat
  | .posInf => k + ((half || sticky) && !neg).toNat
  | .negInf => k + ((half || sticky) && neg).toNat
  | .zero => k
  | .odd => if half || sticky then k ||| 1 else k

section rounding

variable {mode : Round} {neg half sticky : Bool} {k : Nat} {q : ℚ}

/-- **The digits determine every rounding.** -/
theorem rounds_ofDigits (h : Guarded q k half sticky) :
    mode.Rounds neg q (mode.ofDigits neg half sticky k : ℕ) := by
  cases mode with
  | tieEven => exact h.nearestEven
  | tieAway => exact h.nearestAway
  | zero => exact h.towardZero
  | odd => exact h.toOdd
  | posInf =>
    cases neg
    · rw [Round.ofDigits, Bool.not_false, Bool.and_true]
      exact h.upward
    · rw [Round.ofDigits, Bool.not_true, Bool.and_false]
      exact h.downward
  | negInf =>
    cases neg
    · rw [Round.ofDigits, Bool.and_false]
      exact h.downward
    · rw [Round.ofDigits, Bool.and_true]
      exact h.upward

theorem ofDigits_le : mode.ofDigits neg half sticky k ≤ k + 1 := by
  have htoNat : ∀ p : Bool, p.toNat ≤ 1 := Bool.toNat_le
  cases mode with
  | zero => exact Nat.le_succ k
  | odd =>
    rw [Round.ofDigits, or_one]
    split_ifs <;> omega
  | _ => exact Nat.add_le_add_left (htoNat _) k

theorem ofDigits_exact : mode.ofDigits neg false false k = k := by
  cases mode <;> rfl

/-- Nothing changes exactly where there are no digits. -/
theorem ofDigits_eq_iff (h : Guarded q k half sticky) :
    (half || sticky) = false ↔ (mode.ofDigits neg half sticky k : ℚ) = q := by
  constructor
  · intro hin
    rw [Bool.or_eq_false_iff] at hin
    rw [hin.1, hin.2, ofDigits_exact]
    exact (h.eq_iff.mpr (by rw [hin.1, hin.2]; rfl)).symm
  · intro heq
    by_contra hin
    have hne : q ≠ k := fun hq => hin (h.eq_iff.mp hq)
    obtain ⟨hlo, hhi⟩ := h.bounds
    have hlo' := lt_of_le_of_ne hlo (Ne.symm hne)
    rw [← heq] at hlo' hhi
    have h1 : k < mode.ofDigits neg half sticky k := by exact_mod_cast hlo'
    have h2 : mode.ofDigits neg half sticky k < k + 1 := by exact_mod_cast hhi
    omega

/-- What the code adds and sets. -/
theorem toNat_rounded {kept : U128} (hk : kept.toNat < 2 ^ 127) :
    (if mode = .odd ∧ (half || sticky) then
        (if roundsUp mode neg half sticky kept then kept + 1#128 else kept) ||| 1#128
      else if roundsUp mode neg half sticky kept then kept + 1#128 else kept).toNat =
      mode.ofDigits neg half sticky kept.toNat := by
  have hadd : ∀ p : Bool, (if p then kept + 1#128 else kept).toNat = kept.toNat + p.toNat := by
    intro p
    cases p with
    | false => rfl
    | true =>
      rw [if_pos rfl, BitVec.toNat_add, BitVec.toNat_one (by decide), Nat.mod_eq_of_lt (by omega)]
      rfl
  have hodd : (kept &&& 1#128 == 1#128) = decide (kept.toNat % 2 = 1) := by
    rw [Bool.eq_iff_iff, beq_iff_eq, decide_eq_true_iff, ← BitVec.toNat_inj, BitVec.toNat_and,
      BitVec.toNat_one (by decide), Nat.and_one_is_mod]
  cases mode with
  | odd =>
    simp only [true_and, roundsUp, Bool.false_eq_true, if_false, Round.ofDigits]
    split_ifs
    · rw [BitVec.toNat_or, BitVec.toNat_one (by decide)]
    · rfl
  | _ =>
    rw [if_neg (by simp), hadd]
    simp only [roundsUp, Round.ofDigits, hodd, Bool.toNat_false, Nat.add_zero]

theorem guarded_digits (m : U128) {s : Nat} (hs0 : 0 < s) (hs : s < 128) :
    Guarded (m.toNat / 2 ^ s) (digits m s).1.toNat (digits m s).2.1 (digits m s).2.2 := by
  have hone : ∀ t < 128, (1#128 <<< t).toNat = 2 ^ t := by
    intro t ht
    rw [BitVec.toNat_shiftLeft, BitVec.toNat_one (by decide), Nat.shiftLeft_eq, Nat.one_mul,
      Nat.mod_eq_of_lt (Nat.pow_lt_pow_right (by decide) ht)]
  have hmask : ∀ t < 128, ((1#128 <<< t) - 1#128).toNat = 2 ^ t - 1 := by
    intro t ht
    have hle : 1#128 ≤ 1#128 <<< t := by
      rw [BitVec.le_def, hone t ht, BitVec.toNat_one (by decide)]
      exact Nat.two_pow_pos t
    rw [BitVec.toNat_sub_of_le hle, hone t ht, BitVec.toNat_one (by decide)]
  obtain ⟨t, rfl⟩ : ∃ t, s = t + 1 := ⟨s - 1, by omega⟩
  have hrem : (m &&& ((1#128 <<< (t + 1)) - 1#128)).toNat = m.toNat % 2 ^ (t + 1) := by
    rw [BitVec.toNat_and, hmask _ hs, Nat.and_two_pow_sub_one_eq_mod]
  have hfield : (1#128 <<< t).toNat = (2 ^ 1 - 1) <<< t := by
    rw [hone t (by omega), Nat.shiftLeft_eq, show 2 ^ 1 - 1 = 1 from rfl, Nat.one_mul]
  have hne : ∀ x : U128, (x != 0#128) = decide (x.toNat ≠ 0) := by
    intro x
    rw [Bool.eq_iff_iff, bne_iff_ne, decide_eq_true_iff, Ne, Ne, ← BitVec.toNat_inj, BitVec.toNat_zero]
  have hpos := Nat.two_pow_pos t
  have hhalf : (digits m (t + 1)).2.1 = decide (m.toNat / 2 ^ t % 2 = 1) := by
    rw [digits, Nat.add_sub_cancel]
    dsimp only
    rw [hne, toNat_and_field _ t 1 hfield, hrem, pow_succ, Nat.mod_mul_right_div_self, decide_eq_decide,
      pow_one, Nat.mod_mod, Ne, Nat.mul_eq_zero]
    omega
  have hsticky : (digits m (t + 1)).2.2 = decide (m.toNat % 2 ^ t ≠ 0) := by
    rw [digits, Nat.add_sub_cancel]
    dsimp only
    rw [hne, BitVec.toNat_and, hmask t (by omega), hrem, Nat.and_two_pow_sub_one_eq_mod,
      Nat.mod_mod_of_dvd _ (Nat.pow_dvd_pow 2 (Nat.le_succ t))]
  have h := guarded_div m.toNat hs0
  rw [Nat.add_sub_cancel] at h
  rw [hhalf, hsticky, digits, BitVec.toNat_ushiftRight, Nat.shiftRight_eq_div_pow]
  exact h

end rounding

/-! ## Packing -/

section packing

variable {f : Fmt} {sign : Bool} {sig : U128} {e n : Nat} {mode : Round} {st : St}

theorem emaxField_eq (f : Fmt) : f.emaxField.toNat = 2 ^ f.ebits - 1 := by cases f <;> rfl

/-- Exponent and fraction side by side. -/
theorem fields_eq {b : Nat} (hb : b < 2 ^ f.ebits) (hn : sig.toNat = n) :
    (BitVec.ofInt 64 b <<< f.fbits) ||| (sig.setWidth 64 &&& f.fracMask) =
      BitVec.ofNat 64 (b * 2 ^ f.fbits + n % 2 ^ f.fbits) := by
  have hfit : 2 ^ f.ebits * 2 ^ f.fbits ≤ 2 ^ 63 := by cases f <;> decide
  have hdvd : 2 ^ f.fbits ∣ 2 ^ 64 := Nat.pow_dvd_pow 2 (by cases f <;> decide)
  have hpos := Nat.two_pow_pos f.fbits
  have hlt := Nat.mod_lt n hpos
  have hle : (b + 1) * 2 ^ f.fbits ≤ 2 ^ f.ebits * 2 ^ f.fbits := Nat.mul_le_mul_right _ hb
  have hb' : b < 2 ^ 64 := lt_of_lt_of_le hb (by cases f <;> decide)
  rw [Nat.succ_mul] at hle
  have hshift : b * 2 ^ f.fbits < 2 ^ 64 := by omega
  have hsum : b * 2 ^ f.fbits + n % 2 ^ f.fbits < 2 ^ 64 := by omega
  have hint : BitVec.ofInt 64 b = BitVec.ofNat 64 b := BitVec.ofInt_natCast 64 b
  rw [hint, ← BitVec.toNat_inj, BitVec.toNat_or, BitVec.toNat_shiftLeft, BitVec.toNat_and,
    Fmt.toNat_fracMask, Nat.and_two_pow_sub_one_eq_mod, BitVec.toNat_setWidth, hn, BitVec.toNat_ofNat,
    BitVec.toNat_ofNat, Nat.mod_eq_of_lt hb', Nat.shiftLeft_eq, Nat.mod_mod_of_dvd _ hdvd,
    Nat.mod_eq_of_lt hshift, Nat.mod_eq_of_lt hsum, Nat.mul_comm b, Nat.two_pow_add_eq_or_of_lt hlt]

/-- **Packing a significand in range** gives the encoding, and reports an overflow. -/
theorem pack_eq (hn : sig.toNat = n) (hhi : n < 2 * 2 ^ f.fbits) (hsub : n < 2 ^ f.fbits → e = 0)
    (hmax : (e : ℤ) < 2147483647) :
    pack f sign sig (e + (1 - f.bias - f.fbits)) mode st =
      some (f.encode mode sign (e * 2 ^ f.fbits + n),
        if f.infLow ≤ e * 2 ^ f.fbits + n then st.raise (ofc ||| ixc) else st) := by
  have hpos := Nat.two_pow_pos f.fbits
  have hinf := Fmt.fbits_pow_le_infLow f
  have hfields (l : Nat) (hl : f.infLow ≤ l) : f.encode mode sign l =
      if mode.toInf sign then f.inf sign else f.maxNormal sign := if_pos hl
  have hshift : sig >>> f.fbits = 0#128 ↔ n < 2 ^ f.fbits := by
    rw [← BitVec.toNat_inj, BitVec.toNat_ushiftRight, Nat.shiftRight_eq_div_pow, hn, BitVec.toNat_zero,
      Nat.div_eq_zero_iff_lt hpos]
  have hzero : sig = 0#128 ↔ n = 0 := by rw [← BitVec.toNat_inj, hn, BitVec.toNat_zero]
  rw [pack]
  by_cases h0 : n = 0
  · rw [if_pos (hzero.mpr h0), h0, hsub (by omega), Nat.zero_mul, encode_of_lt (by omega),
      if_neg (by omega)]
    simp
  rw [if_neg (fun h => h0 (hzero.mp h))]
  by_cases hlt : n < 2 ^ f.fbits
  · have he := hsub hlt
    have hbias : ¬(f.emaxField.toNat : ℤ) ≤ 0 := by cases f <;> decide
    have hf := @fields_eq f sig n 0 (Nat.two_pow_pos _) hn
    rw [if_pos (hshift.mpr hlt), Option.map_some, if_neg hbias, he, encode_of_lt (by omega),
      if_neg (by omega), BitVec.or_assoc]
    rw [Nat.cast_zero, Nat.mod_eq_of_lt hlt] at hf
    rw [hf]
  · have hbias : (f.bias : ℤ) ≤ 1023 ∧ 0 ≤ f.bias := by cases f <;> decide
    have hl : e * 2 ^ f.fbits + n = (e + 1) * 2 ^ f.fbits + n % 2 ^ f.fbits := by
      rw [Nat.mod_eq_sub_mod (by omega), Nat.mod_eq_of_lt (by omega), Nat.succ_mul]
      omega
    have hlt' := Nat.mod_lt n hpos
    have hover : (f.emaxField.toNat : ℤ) ≤ (e + 1 : ℕ) ↔ f.infLow ≤ e * 2 ^ f.fbits + n := by
      rw [emaxField_eq, hl, Fmt.infLow, Nat.cast_le]
      constructor
      · intro h
        exact (Nat.mul_le_mul_right _ h).trans (Nat.le_add_right _ _)
      · intro h
        by_contra hlt
        have := Nat.mul_le_mul_right (2 ^ f.fbits) (Nat.lt_of_not_le hlt)
        rw [Nat.succ_mul] at this
        omega
    have hexp : (i32 (e + (1 - f.bias - f.fbits) + f.fbits)).bind (fun e => i32 (e + f.bias)) =
        some ((e + 1 : ℕ) : ℤ) := by
      rw [show (e : ℤ) + (1 - f.bias - f.fbits) + f.fbits = e + 1 - f.bias by ring,
        i32_eq_some (by omega) (by omega), Option.bind_some, sub_add_cancel,
        i32_eq_some (by omega) (by omega)]
      rfl
    rw [if_neg (fun h => hlt (hshift.mp h)), hexp, Option.map_some]
    by_cases h : f.infLow ≤ e * 2 ^ f.fbits + n
    · rw [if_pos (hover.mpr h), if_pos h, hfields _ h]
    · have hb : e + 1 < 2 ^ f.ebits := by
        rw [← hover, emaxField_eq, Nat.cast_le] at h
        omega
      rw [if_neg (fun h' => h (hover.mp h')), if_neg h, encode_of_lt (Nat.not_le.mp h), BitVec.or_assoc,
        fields_eq hb hn, hl]

end packing

/-! ## Rounding a quotient -/

section quotient

variable {f : Fmt} {sign tiny : Bool} {m : U128} {e : Nat} {shift : Int} {X : ℚ} {mode : Round} {st : St}

theorem guarded_shifted (h0 : 0 < m.toNat) (hm : m.toNat < 2 ^ 127) {q : ℚ} (hq : q = m.toNat * 2 ^ (-shift))
    (hlt : q < 2 ^ 127) :
    Guarded q (shifted m shift).1.toNat (shifted m shift).2.1 (shifted m shift).2.2 := by
  have hpos : (0 : ℚ) < m.toNat := by exact_mod_cast h0
  rw [shifted]
  split_ifs with hle hge
  · obtain ⟨s, hs⟩ := Int.eq_ofNat_of_zero_le (Int.neg_nonneg.mpr hle)
    rw [hs, zpow_natCast] at hq
    have hfit : m.toNat * 2 ^ s < 2 ^ 127 := by
      rw [hq] at hlt
      exact_mod_cast hlt
    rw [hs, Int.toNat_natCast]
    change q = _
    rw [hq, BitVec.toNat_shiftLeft, Nat.shiftLeft_eq, Nat.mod_eq_of_lt (by omega)]
    push_cast
    rfl
  · change (((0 : ℕ) : ℚ) < q ∧ q < ((0 : ℕ) : ℚ) + 1 / 2)
    have hsmall : (2 : ℚ) ^ (-shift) ≤ 2 ^ (-128 : ℤ) := zpow_le_zpow_right₀ (by norm_num) (by omega)
    have hm' : (m.toNat : ℚ) < 2 ^ 127 := by exact_mod_cast hm
    push_cast
    rw [hq]
    refine ⟨mul_pos hpos (zpow_pos (by norm_num) _), ?_⟩
    calc (m.toNat : ℚ) * 2 ^ (-shift) ≤ m.toNat * 2 ^ (-128 : ℤ) :=
          mul_le_mul_of_nonneg_left hsmall hpos.le
      _ < 2 ^ 127 * 2 ^ (-128 : ℤ) := mul_lt_mul_of_pos_right hm' (by positivity)
      _ = 0 + 1 / 2 := by norm_num
  · obtain ⟨s, hs⟩ := Int.eq_ofNat_of_zero_le (by omega : 0 ≤ shift)
    rw [hs, zpow_neg, zpow_natCast, ← div_eq_mul_inv] at hq
    rw [hs, Int.toNat_natCast, hq]
    exact guarded_digits m (by omega) (by omega)

/-- **A quotient is rounded to the format**; whether it is reported as inexact, too. -/
theorem roundShift_eq (h0 : 0 < m.toNat) (hm : m.toNat < 2 ^ 127) (hulp : Ulp f.fbits X e)
    (hX : X / 2 ^ e = m.toNat * 2 ^ (-shift)) (hmax : (e : ℤ) < 2147483646) :
    ∃ l inexact, BinaryFormat.Rounds f.fbits (mode.Rounds sign) X l ∧
      (inexact = false ↔ (mag f.fbits l : ℚ) = X) ∧
      roundShift f sign m shift (e + (1 - f.bias - f.fbits)) tiny mode st =
        some (f.encode mode sign l, if f.infLow ≤ l then (reported inexact tiny st).raise (ofc ||| ixc)
          else reported inexact tiny st) := by
  have hpow : 2 * 2 ^ f.fbits ≤ 2 ^ 64 := by cases f <;> decide
  have he : (0 : ℚ) < 2 ^ e := by positivity
  have hlt : X / 2 ^ e < 2 * 2 ^ f.fbits := (div_lt_iff₀ he).mpr hulp.lt
  have hlt' : X / 2 ^ e < 2 ^ 127 := by
    have : (2 * 2 ^ f.fbits : ℚ) ≤ 2 ^ 64 := by exact_mod_cast hpow
    exact hlt.trans_le (this.trans (by norm_num))
  have hguard := guarded_shifted h0 hm hX hlt'
  rw [roundShift]
  rcases hsh : shifted m shift with ⟨kept, half, sticky⟩
  rw [hsh] at hguard
  dsimp only at hguard ⊢
  have hkept : kept.toNat < 2 ^ 127 := by
    have := hguard.bounds.1.trans_lt hlt'
    exact_mod_cast this
  have hsig := @toNat_rounded mode sign half sticky kept hkept
  have hrounds := @rounds_ofDigits mode sign half sticky _ _ hguard
  have hclose := close_rounds mode sign
  obtain ⟨hhi, hsub⟩ := hulp.bounds hclose hrounds
  have hl := rounds_of_ulp hclose hulp hrounds
  have hmag := mag_significand hsub hhi
  have hexact : (half || sticky) = false ↔
      (mag f.fbits (e * 2 ^ f.fbits + mode.ofDigits sign half sticky kept.toNat) : ℚ) = X := by
    rw [@ofDigits_eq_iff mode sign half sticky _ _ hguard, eq_div_iff he.ne', hmag]
    push_cast
    rfl
  generalize (if mode = .odd ∧ (half || sticky) = true then _ else _) = sig at hsig ⊢
  generalize mode.ofDigits sign half sticky kept.toNat = n at *
  refine ⟨e * 2 ^ f.fbits + n, half || sticky, hl, hexact, ?_⟩
  have hcarry : sig >>> (f.fbits + 1) ≠ 0#128 ↔ n = 2 * 2 ^ f.fbits := by
    rw [Ne, ← BitVec.toNat_inj, BitVec.toNat_ushiftRight, Nat.shiftRight_eq_div_pow, hsig, BitVec.toNat_zero,
      Nat.div_eq_zero_iff_lt (Nat.two_pow_pos _), pow_succ']
    omega
  by_cases hc : sig >>> (f.fbits + 1) ≠ 0#128
  · -- The significand is carried into the next binade.
    have hn := hcarry.mp hc
    have hpos := Nat.two_pow_pos f.fbits
    have hsig' : (sig >>> 1).toNat = 2 ^ f.fbits := by
      rw [BitVec.toNat_ushiftRight, Nat.shiftRight_eq_div_pow, hsig, hn]
      omega
    have hpack := @pack_eq f sign (sig >>> 1) (e + 1) _ mode (reported (half || sticky) tiny st) hsig'
      (by omega) (by omega) (by push_cast; omega)
    rw [Nat.succ_mul] at hpack
    rw [if_pos hc, hn, show (e : ℤ) + (1 - f.bias - f.fbits) + 1 = (e + 1 : ℕ) + (1 - f.bias - f.fbits) by
      push_cast; ring, hpack, Nat.two_mul, Nat.add_assoc]
  · have hn : n < 2 * 2 ^ f.fbits := by
      have hne : n ≠ 2 * 2 ^ f.fbits := fun h => hc (hcarry.mpr h)
      omega
    rw [if_neg hc, pack_eq hsig hn hsub (by omega)]

end quotient

/-! ## Rounding a number -/

section number

variable {f : Fmt} {sign : Bool} {m : U128} {exp : Int} {mode : Round} {st : St}

/-- The status after `x` was rounded to the magnitude `l`: whether it is inexact, whether `x` is
below the normal numbers, and whether it overflows. -/
def Fmt.statusOf (f : Fmt) (x : ℚ) (l : Nat) (st : St) : St :=
  let st := reported (decide ((mag f.fbits l : ℚ) * f.unit ≠ x)) (decide (x < 2 ^ (1 - f.bias))) st
  if f.infLow ≤ l then st.raise (ofc ||| ixc) else st

/-- `r` is the number with the magnitude `x` rounded to the format, with its reports. -/
def RoundedTo (f : Fmt) (mode : Round) (sign : Bool) (x : ℚ) (st : St) (r : U64 × St) : Prop :=
  ∃ l, BinaryFormat.Rounds f.fbits (mode.Rounds sign) (x / f.unit) l ∧
    r = (f.encode mode sign l, f.statusOf x l st)

/-- The exponent of the leading bit. -/
theorem log2_bounds {n : Nat} (h : 0 < n) (exp : Int) :
    (2 : ℚ) ^ (n.log2 + exp) ≤ n * 2 ^ exp ∧ (n : ℚ) * 2 ^ exp < 2 ^ (n.log2 + exp + 1) := by
  have hlo : 2 ^ n.log2 ≤ n := Nat.log2_self_le (by omega)
  have hhi : n < 2 ^ (n.log2 + 1) := Nat.lt_log2_self
  have he : (0 : ℚ) < 2 ^ exp := zpow_pos (by norm_num) _
  have hlo' : (2 : ℚ) ^ n.log2 ≤ n := by exact_mod_cast hlo
  have hhi' : (n : ℚ) < 2 ^ (n.log2 + 1) := by exact_mod_cast hhi
  rw [add_right_comm, zpow_add₀ (by norm_num), zpow_add₀ (by norm_num)]
  constructor
  · rw [zpow_natCast]
    exact mul_le_mul_of_nonneg_right hlo' he.le
  · refine mul_lt_mul_of_pos_right ?_ he
    exact_mod_cast hhi'

theorem two_zpow_lt {a b : Int} : (2 : ℚ) ^ a < 2 ^ b ↔ a < b := zpow_lt_zpow_iff_right₀ (by norm_num)

theorem two_zpow_le {a b : Int} : (2 : ℚ) ^ a ≤ 2 ^ b ↔ a ≤ b := zpow_le_zpow_iff_right₀ (by norm_num)

theorem tiny_iff (h0 : 0 < m.toNat) {t : Int} :
    (m.toNat.log2 : Int) + exp < t ↔ (m.toNat : ℚ) * 2 ^ exp < 2 ^ t := by
  obtain ⟨hlo, hhi⟩ := log2_bounds h0 exp
  constructor
  · intro h
    exact hhi.trans_le (two_zpow_le.mpr (by omega))
  · intro h
    exact two_zpow_lt.mp (hlo.trans_lt h)

/-- The last place of the result: `e` above the least one. -/
theorem ulp_number (h0 : 0 < m.toNat) {e : Nat}
    (he : (e : ℤ) = max 0 (m.toNat.log2 + exp - (1 - f.bias))) :
    Ulp f.fbits (m.toNat * 2 ^ exp / f.unit) e ∧
      m.toNat * 2 ^ exp / f.unit / 2 ^ e =
        (m.toNat : ℚ) * 2 ^ (-((e : ℤ) + (1 - f.bias - f.fbits) - exp)) := by
  obtain ⟨hlo, hhi⟩ := log2_bounds h0 exp
  have hu := f.unit_pos
  have hscale (c : Int) : (2 : ℚ) ^ c * 2 ^ f.fbits * 2 ^ e * f.unit = 2 ^ (c + e + (1 - f.bias)) := by
    rw [Fmt.unit, ← zpow_natCast, ← zpow_natCast, ← zpow_add₀ (by norm_num), ← zpow_add₀ (by norm_num),
      ← zpow_add₀ (by norm_num)]
    congr 1
    ring
  refine ⟨⟨?_, fun hne => ?_⟩, ?_⟩
  · have h1 := hscale 1
    rw [zpow_one] at h1
    rw [div_lt_iff₀ hu, h1]
    exact hhi.trans_le (two_zpow_le.mpr (by omega))
  · have h0 := hscale 0
    rw [zpow_zero, one_mul] at h0
    rw [le_div_iff₀ hu, h0]
    exact le_trans (two_zpow_le.mpr (by omega)) hlo
  · have hunit : f.unit * 2 ^ e = (2 : ℚ) ^ ((e : ℤ) + (1 - f.bias - f.fbits)) := by
      rw [Fmt.unit, ← zpow_natCast, ← zpow_add₀ (by norm_num)]
      congr 1
      ring
    rw [div_div, hunit, mul_div_assoc, ← zpow_sub₀ (by norm_num), neg_sub]

/-- **`roundTo` is the rounding of the mode**, with its reports, where no exponent overflows. -/
theorem roundTo_eq (h0 : 0 < m.toNat) (hm : m.toNat < 2 ^ 127) (hlo : -2147483648 ≤ exp)
    (hhi : m.toNat.log2 + exp + f.bias < 2147483647)
    (hfz : st.fz = false ∨ f = .h ∨ (2 : ℚ) ^ (1 - f.bias) ≤ m.toNat * 2 ^ exp) :
    ∃ r, roundTo f sign m exp mode st = some r ∧ RoundedTo f mode sign (m.toNat * 2 ^ exp) st r := by
  have hbias : (f.bias : ℤ) ≤ 1023 ∧ 0 ≤ f.bias := by cases f <;> decide
  have hfb : 10 ≤ f.fbits ∧ f.fbits ≤ 52 := by cases f <;> decide
  have hb : m.toNat.log2 < 127 := (Nat.log2_lt (by omega)).mpr hm
  obtain ⟨e, he⟩ := Int.eq_ofNat_of_zero_le (le_max_left 0 (m.toNat.log2 + exp - (1 - f.bias)))
  obtain ⟨hulp, hX⟩ := @ulp_number f m exp h0 e he.symm
  have htiny := @tiny_iff m exp h0 (1 - f.bias)
  have hscale : (if (m.toNat.log2 : ℤ) + exp < 1 - f.bias then 1 - f.bias - (f.fbits : ℤ)
      else m.toNat.log2 + exp - f.fbits) = e + (1 - f.bias - f.fbits) := by
    split_ifs <;> omega
  obtain ⟨l, inexact, hl, hexact, hround⟩ := @roundShift_eq f sign
    (decide ((m.toNat.log2 : ℤ) + exp < 1 - f.bias)) m e _ _ mode st h0 hm hulp hX (by omega)
  refine ⟨_, ?_, l, hl, rfl⟩
  have hnfz : ¬((m.toNat.log2 : ℤ) + exp < 1 - f.bias ∧ st.fz = true ∧ f ≠ .h) := by
    rintro ⟨ht, hz, hh⟩
    rw [htiny] at ht
    rcases hfz with h | h | h
    · rw [h] at hz
      exact absurd hz Bool.false_ne_true
    · exact hh h
    · exact absurd ht (not_lt.mpr h)
  have hinexact : inexact = decide ((mag f.fbits l : ℚ) * f.unit ≠ m.toNat * 2 ^ exp) := by
    rw [eq_div_iff f.unit_pos.ne'] at hexact
    cases inexact with
    | false =>
      rw [eq_comm, decide_eq_false_iff_not, not_not]
      exact hexact.mp rfl
    | true =>
      rw [eq_comm, decide_eq_true_iff]
      exact fun h => absurd (hexact.mpr h) (by decide)
  rw [roundTo]
  dsimp only
  rw [i32_eq_some (by omega) (by omega), Option.bind_some]
  simp only [decide_eq_true_eq]
  rw [if_neg hnfz, hscale, i32_eq_some (by omega) (by omega), Option.bind_some,
    i32_eq_some (by omega) (by omega), Option.bind_some, hround, Fmt.statusOf, hinexact]
  simp only [htiny]

/-- A value of the format is rounded to itself, and nothing is reported. -/
theorem RoundedTo.exact {x : ℚ} {r : U64 × St} (h : RoundedTo f mode sign x st r) {l : Nat}
    (hl : l < f.infLow) (hx : (mag f.fbits l : ℚ) * f.unit = x) :
    r.2 = st ∧ f.Rounded mode sign x r.1 := by
  obtain ⟨l', hl', rfl⟩ := h
  refine ⟨?_, l', hl', rfl⟩
  rw [← hx, mul_div_cancel_right₀ _ f.unit_pos.ne'] at hl'
  obtain rfl := hl'.eq_of_mag (close_rounds mode sign)
  rw [Fmt.statusOf, if_neg (Nat.not_le.mpr hl), hx]
  simp [reported]

/-- A tiny number is flushed under FZ, and only that is reported. -/
theorem roundTo_flush (h0 : 0 < m.toNat) (hm : m.toNat < 2 ^ 127) (hlo : -2147483648 ≤ exp)
    (hfz : st.fz = true) (hf : f ≠ .h) (ht : (m.toNat : ℚ) * 2 ^ exp < 2 ^ (1 - f.bias)) :
    roundTo f sign m exp mode st = some (f.zero sign, st.raise ufc) := by
  have hbias : (f.bias : ℤ) ≤ 1023 ∧ 0 ≤ f.bias := by cases f <;> decide
  have hb : m.toNat.log2 < 127 := (Nat.log2_lt (by omega)).mpr hm
  rw [← tiny_iff h0] at ht
  rw [roundTo]
  dsimp only
  rw [i32_eq_some (by omega) (by omega), Option.bind_some]
  simp only [decide_eq_true_eq]
  rw [if_pos ⟨ht, hfz, hf⟩]

/-! ## The whole routine -/

/-- **Rounding in software is correct**: for a significand of up to 65 bits, in every format and
mode, while the exponent of its leading bit is in range. -/
theorem roundTo_correct (f : Fmt) (sign : Bool) (m : U128) (exp : Int) (mode : Round) (st : St)
    (h1 : 1 ≤ m.toNat) (hm : m.toNat ≤ 2 ^ 64) (hlo : -2147483648 ≤ exp)
    (hhi : m.toNat.log2 + exp + f.bias < 2147483647) :
    if st.fz = true ∧ f ≠ .h ∧ (m.toNat : ℚ) * 2 ^ exp < 2 ^ (1 - f.bias) then
      roundTo f sign m exp mode st = some (f.zero sign, st.raise ufc)
    else ∃ r, roundTo f sign m exp mode st = some r ∧
      RoundedTo f mode sign (m.toNat * 2 ^ exp) st r := by
  have hm' : m.toNat < 2 ^ 127 := by omega
  split_ifs with h
  · exact roundTo_flush h1 hm' hlo h.1 h.2.1 h.2.2
  · refine roundTo_eq h1 hm' hlo hhi ?_
    rw [not_and_or, not_and_or, Bool.not_eq_true, not_ne_iff, not_lt] at h
    exact h

theorem roundTo_correct_third : ∃ r, roundTo .s true 3#128 (-1) .posInf ⟨0, 0⟩ = some r ∧
    RoundedTo .s .posInf true ((3#128).toNat * 2 ^ (-1 : Int)) ⟨0, 0⟩ r := by
  have h := roundTo_correct .s true 3#128 (-1) .posInf ⟨0, 0⟩ (by decide) (by decide) (by decide)
    (by decide)
  rwa [if_neg (fun h => absurd h.1 (by decide))] at h

/-- The exponent of the leading bit overflows. -/
theorem roundTo_overflow : roundTo .s false 2#128 2147483647 .tieEven ⟨0, 0⟩ = none := by decide

end number

end Interp
end Rustarmic
