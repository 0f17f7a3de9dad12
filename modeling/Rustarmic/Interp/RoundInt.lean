import Rustarmic.Interp.RoundTo

/-!
# Rounding to integral values

`roundInt` rounds to an integer in the format of its operand.

* `unpack_number` — the significand and the exponent of a number.
* `roundInt` — the rounding.
* `roundInt_number` — on numbers it is the rounding of the mode.
* `roundInt_exact` — all operands; what it returns it leaves as it is.

The code shifts the digits after the point out of the significand, remembers the first of them and
whether any of the others is set, and adds one where the mode asks for it.  That this is the integer
of the mode is a fact about rational numbers, of which the significand is a scaled one; `IsUnpacked`
says what it is scaled by.

* **The result fits.**  An integer between two values of the format that are integers is a value of
  the format, so the rounded one can be encoded without rounding again (`exists_low_integral`).
  Rounding up to a power of two carries into the exponent, and the encoding of the sum is right in
  that case, too.
* **The sign is kept**, also of a zero that the rounding gives.
* **Rounding to odd truncates.**  No instruction asks for it here, but the function takes any mode,
  and the last digit is not made odd.  `Round.integral` records it, and `roundInt_odd_inexact` shows
  it.
-/

set_option autoImplicit false

namespace Rustarmic
namespace Interp

open BinaryFormat Rounding

/-! ## Significand and exponent -/

section unpacked

variable {f : Fmt} {x : U64} {st : St}

/-- What is unpacked of a number that is not zero. -/
structure IsUnpacked (f : Fmt) (x : U64) (u : Unpacked) : Prop where
  cls : u.cls = .normal
  sign : u.sign = f.sign x
  value : u.mant.toNat * (2 : ℚ) ^ u.exp = |f.value x|
  pos : 0 < u.mant.toNat
  lt : u.mant.toNat < 2 * 2 ^ f.fbits
  exp : 1 - f.bias - f.fbits ≤ u.exp ∧ u.exp ≤ f.bias - f.fbits

theorem unpack_number (h : st.fz = true → f.isDenormal x = false) (hnan : f.isNan x = false)
    (hinf : f.isInf x = false) (h0 : f.low x ≠ 0) : IsUnpacked f x (unpack f x st).1 := by
  have hpos := Nat.two_pow_pos f.fbits
  have hcls : (unpack f x st).1.cls = .normal := by
    rw [unpack_cls h, classify, hnan, hinf, if_neg Bool.false_ne_true, if_neg Bool.false_ne_true,
      if_neg h0]
  have hsign := @unpack_sign f x st
  have habs : |f.value x| = mag f.fbits (f.low x) * f.unit := by
    rw [← f.abs_value, div_mul_cancel₀ _ f.unit_pos.ne']
  have hfrac := f.toNat_frac x
  have hexp := f.toNat_expField x
  have hlt : f.low x < f.infLow := by
    rw [← Bool.not_eq_true, Fmt.isNan_iff] at hnan
    rw [← Bool.not_eq_true, Fmt.isInf_iff] at hinf
    omega
  have hbias : ((2 ^ f.ebits - 1 : ℕ) : ℤ) = 2 * f.bias + 1 ∧ 0 < f.bias := by
    cases f <;> exact ⟨rfl, by decide⟩
  have hmod := Nat.mod_lt (f.low x) hpos
  have hone : (1#64 <<< f.fbits).toNat = 2 ^ f.fbits := by cases f <;> rfl
  suffices hnum : (unpack f x st).1.mant.toNat * (2 : ℚ) ^ (unpack f x st).1.exp = |f.value x| ∧
      0 < (unpack f x st).1.mant.toNat ∧ (unpack f x st).1.mant.toNat < 2 * 2 ^ f.fbits ∧
      1 - f.bias - f.fbits ≤ (unpack f x st).1.exp ∧ (unpack f x st).1.exp ≤ f.bias - f.fbits from
    ⟨hcls, hsign, hnum.1, hnum.2.1, hnum.2.2.1, hnum.2.2.2⟩
  rw [habs, unpack]
  dsimp only
  by_cases he : f.expField x = 0#64
  · have hsub := expField_eq_zero.mp he
    have hnone : ¬(x &&& f.fracMask = 0#64 ∨ (st.fz = true ∧ f ≠ .h)) := by
      rintro (hz | ⟨hfz, -⟩)
      · rw [frac_eq_zero, Nat.mod_eq_of_lt hsub] at hz
        exact h0 hz
      · have hden := h hfz
        rw [← Bool.not_eq_true, Fmt.isDenormal_iff] at hden
        omega
    rw [if_pos he, if_neg hnone]
    dsimp only
    rw [hfrac, Nat.mod_eq_of_lt hsub, mag_of_lt hsub, Fmt.unit]
    exact ⟨rfl, Nat.pos_of_ne_zero h0, by omega, le_rfl, by omega⟩
  · have hq : 0 < f.low x / 2 ^ f.fbits := by
      rw [expField_eq_zero] at he
      exact Nat.div_pos (Nat.not_lt.mp he) hpos
    have hq' : f.low x / 2 ^ f.fbits < 2 ^ f.ebits - 1 := by
      rw [Nat.div_lt_iff_lt_mul hpos]
      exact hlt
    have hmax : f.expField x ≠ f.emaxField := by
      rw [Ne, ← BitVec.toNat_inj, hexp, emaxField_eq]
      exact hq'.ne
    have hmant : ((x &&& f.fracMask) ||| (1#64 <<< f.fbits)).toNat = 2 ^ f.fbits + f.low x % 2 ^ f.fbits := by
      have hor := Nat.two_pow_add_eq_or_of_lt hmod 1
      rw [Nat.mul_one] at hor
      rw [BitVec.toNat_or, hfrac, hone, Nat.or_comm, hor]
    rw [if_neg he, if_neg hmax]
    dsimp only
    rw [hmant, hexp]
    rw [mag, if_neg hq.ne', Fmt.unit]
    obtain ⟨d, hd⟩ := Nat.exists_eq_add_of_lt hq
    rw [hd] at hq' ⊢
    refine ⟨?_, by omega, by omega, by omega, by omega⟩
    rw [Nat.zero_add, Nat.add_sub_cancel]
    push_cast
    rw [mul_assoc, ← zpow_natCast 2 d, ← zpow_add₀ (by norm_num)]
    congr 2
    ring

end unpacked

/-! ## The rounding -/

/-- The digits after the point; a large shift leaves none but the last. -/
def integerDigits (m : U128) (s : Nat) : U128 × Bool × Bool :=
  if 100 ≤ s then (0#128, false, m != 0#128) else digits m s

/-- The last part of `roundInt`, for a number with digits after the point. -/
def roundFraction (f : Fmt) (u : Unpacked) (mode : Round) (exact : Bool) (st : St) :
    Option (U64 × St) :=
  let (kept, half, sticky) := integerDigits (u.mant.setWidth 128) (-u.exp).toNat
  let inexact := half || sticky
  let r := if roundsUp mode u.sign half sticky kept then kept + 1#128 else kept
  let st := if exact && inexact then st.raise ixc else st
  if r = 0#128 then some (f.zero u.sign, st) else roundTo f u.sign r 0 .tieEven st

/-- Round to an integral value; with `exact` a change is reported. -/
def roundInt (f : Fmt) (x : U64) (mode : Round) (exact : Bool) (st : St) : Option (U64 × St) :=
  let (u, st) := unpack f x st
  match u.cls with
  | .qnan | .snan => some (processNan f x st)
  | .inf => some (x, st)
  | .zero => some (f.zero u.sign, st)
  | .normal => if 0 ≤ u.exp then some (x, st) else roundFraction f u mode exact st

/-- Rounding to odd truncates here. -/
def Round.integral : Round → Round
  | .odd => .zero
  | mode => mode

section integers

variable {f : Fmt} {x : U64} {mode : Round} {exact : Bool} {st : St}

theorem finite_zero (f : Fmt) (s : Bool) : f.Finite (f.zero s) := by
  have hle := Fmt.fbits_pow_le_infLow f
  have hpos := Nat.two_pow_pos f.fbits
  refine ⟨Fmt.encodes_zero s, Fmt.not_isNan_zero s, ?_⟩
  rw [← Bool.not_eq_true, Fmt.isInf_iff, Fmt.low_zero]
  omega

theorem guarded_integerDigits {m : U128} (h0 : 0 < m.toNat) (hm : m.toNat < 2 ^ 64) {s : Nat} (hs : 0 < s) :
    Guarded (m.toNat / 2 ^ s) (integerDigits m s).1.toNat (integerDigits m s).2.1
      (integerDigits m s).2.2 := by
  rw [integerDigits]
  split_ifs with h
  · have hne : (m != 0#128) = true := by
      rw [bne_iff_ne, Ne, ← BitVec.toNat_inj, BitVec.toNat_zero]
      omega
    have hpos : (0 : ℚ) < m.toNat := by exact_mod_cast h0
    have hm' : (m.toNat : ℚ) < 2 ^ 64 := by exact_mod_cast hm
    have hpow : (2 : ℚ) ^ 100 ≤ 2 ^ s := pow_le_pow_right₀ (by norm_num) h
    rw [hne]
    change (((0 : ℕ) : ℚ) < m.toNat / 2 ^ s ∧ (m.toNat : ℚ) / 2 ^ s < ((0 : ℕ) : ℚ) + 1 / 2)
    push_cast
    refine ⟨by positivity, ?_⟩
    have h2 : (m.toNat : ℚ) * 2 < 2 ^ s := by
      have hsmall : (2 : ℚ) ^ 64 * 2 ≤ 2 ^ 100 := by norm_num
      linarith
    rw [div_lt_iff₀ (by positivity)]
    linarith
  · exact guarded_digits m hs (by omega)

/-- What the code adds. -/
theorem toNat_integral {sign half sticky : Bool} {kept : U128} (hk : kept.toNat < 2 ^ 127) :
    (if roundsUp mode sign half sticky kept then kept + 1#128 else kept).toNat =
      mode.integral.ofDigits sign half sticky kept.toNat := by
  have h := @toNat_rounded mode.integral sign half sticky kept hk
  rw [if_neg (by cases mode <;> simp [Round.integral])] at h
  rw [← h]
  cases mode <;> rfl

theorem roundFraction_eq {u : Unpacked} (hx : f.Finite x) (hun : IsUnpacked f x u) (he : u.exp < 0) :
    ∃ (n : ℕ) (r : U64), mode.integral.Rounds (f.sign x) |f.value x| n ∧ f.Finite r ∧
      f.sign r = f.sign x ∧ |f.value r| = n ∧ roundFraction f u mode exact st =
        some (r, if exact && decide ((n : ℚ) ≠ |f.value x|) then st.raise ixc else st) := by
  have hbias : (f.bias : ℤ) ≤ 1023 ∧ 0 < f.bias := by cases f <;> decide
  have hp : 2 ^ f.fbits ≤ 2 ^ 52 := Nat.pow_le_pow_right (by decide) (by cases f <;> decide)
  have hmant : (u.mant.setWidth 128).toNat = u.mant.toNat := by
    rw [BitVec.toNat_setWidth, Nat.mod_eq_of_lt (by omega)]
  have hpos := hun.pos
  have hlt := hun.lt
  obtain ⟨s, hs⟩ := Int.eq_ofNat_of_zero_le (by omega : 0 ≤ -u.exp)
  have hq : (u.mant.toNat : ℚ) / 2 ^ s = |f.value x| := by
    rw [← hun.value, show u.exp = -(s : ℤ) by omega, zpow_neg, zpow_natCast, div_eq_mul_inv]
  have hg := @guarded_integerDigits (u.mant.setWidth 128) (by omega) (by omega) s (by omega)
  rw [hmant, hq] at hg
  rw [roundFraction, hs, Int.toNat_natCast]
  rcases hdig : integerDigits (u.mant.setWidth 128) s with ⟨kept, half, sticky⟩
  rw [hdig] at hg
  dsimp only at hg ⊢
  have hkept : kept.toNat < 2 ^ f.fbits := by
    have hle : (kept.toNat : ℚ) * 2 ^ s ≤ u.mant.toNat := by
      rw [← le_div_iff₀ (by positivity), hq]
      exact hg.bounds.1
    have hle' : kept.toNat * 2 ^ s ≤ u.mant.toNat := by exact_mod_cast hle
    have htwo : kept.toNat * 2 ≤ kept.toNat * 2 ^ s :=
      Nat.mul_le_mul_left _ (Nat.pow_le_pow_right Nat.zero_lt_two (by omega : 1 ≤ s))
    omega
  have hr := @toNat_integral mode u.sign half sticky kept (by omega)
  have hrounds := @rounds_ofDigits mode.integral u.sign half sticky _ _ hg
  have hchange := @ofDigits_eq_iff mode.integral u.sign half sticky _ _ hg
  have hle := @ofDigits_le mode.integral u.sign half sticky kept.toNat
  rw [hun.sign] at hr hrounds hchange hle ⊢
  generalize (if roundsUp mode (f.sign x) half sticky kept = true then _ else _) = sig at hr ⊢
  generalize mode.integral.ofDigits (f.sign x) half sticky kept.toNat = n at *
  have hinexact : (half || sticky) = decide ((n : ℚ) ≠ |f.value x|) := by
    rw [Bool.eq_iff_iff, decide_eq_true_iff, Ne, ← hchange, Bool.not_eq_false]
  rw [hinexact]
  generalize hst' : (if exact && decide ((n : ℚ) ≠ |f.value x|) then st.raise ixc else st) = st'
  have hzero : sig = 0#128 ↔ n = 0 := by rw [← BitVec.toNat_inj, hr, BitVec.toNat_zero]
  by_cases h0 : n = 0
  · have hz := (f.value_eq_zero (f.zero (f.sign x))).mpr (Fmt.low_zero _)
    refine ⟨n, f.zero (f.sign x), hrounds, finite_zero f _, Fmt.sign_zero _, by rw [hz, h0]; simp, ?_⟩
    rw [if_pos (hzero.mpr h0), hst']
  · obtain ⟨l, hl, hval⟩ := exists_low_natCast f (show n ≤ 2 * 2 ^ f.fbits by omega)
    have hone : (2 : ℚ) ^ (1 - f.bias) ≤ sig.toNat * 2 ^ (0 : ℤ) := by
      have h1 : (1 : ℚ) ≤ n := by exact_mod_cast Nat.pos_of_ne_zero h0
      rw [hr, zpow_zero, mul_one]
      exact (zpow_le_one_of_nonpos₀ (by norm_num) (by omega)).trans h1
    have hlog : sig.toNat.log2 < 127 := (Nat.log2_lt (by omega)).mpr (by omega)
    obtain ⟨res, hres, hround⟩ := @roundTo_eq f (f.sign x) sig 0 .tieEven st' (by omega) (by omega)
      (by decide) (by omega) (.inr (.inr hone))
    rw [hr, zpow_zero, mul_one] at hround
    obtain ⟨hst, hrd⟩ := hround.exact hl hval
    obtain ⟨-, hfin, habs⟩ := hrd.exact hl hval
    refine ⟨n, res.1, hrounds, hfin, hrd.sign, habs, ?_⟩
    rw [if_neg (fun h => h0 (hzero.mp h)), hres, hst', ← hst]

/-- **`roundInt` rounds a number to an integer** in its format, keeps the sign, and with `exact`
reports whether it changed. -/
theorem roundInt_number (hx : f.Finite x) (h : st.fz = true → f.isDenormal x = false) :
    ∃ (n : ℕ) (r : U64), mode.integral.Rounds (f.sign x) |f.value x| n ∧ f.Finite r ∧
      f.sign r = f.sign x ∧ |f.value r| = n ∧
      roundInt f x mode exact st =
        some (r, if exact && decide ((n : ℚ) ≠ |f.value x|) then st.raise ixc else st) := by
  have hst := unpack_status h
  have hsign := @unpack_sign f x st
  have hcls := unpack_cls h
  have hself (n : ℕ) (hn : |f.value x| = n) : mode.integral.Rounds (f.sign x) |f.value x| n := by
    have hg : Guarded |f.value x| n false false := hn
    have := @rounds_ofDigits mode.integral (f.sign x) false false _ _ hg
    rwa [ofDigits_exact] at this
  rw [roundInt]
  rcases hu : unpack f x st with ⟨u, st'⟩
  rw [hu] at hst hsign hcls
  dsimp only at hst hsign hcls ⊢
  subst hst
  rw [classify, hx.isNan, hx.isInf, if_neg Bool.false_ne_true, if_neg Bool.false_ne_true] at hcls
  by_cases h0 : f.low x = 0
  · rw [if_pos h0] at hcls
    have hv := (f.value_eq_zero x).mpr h0
    have hz := (f.value_eq_zero (f.zero (f.sign x))).mpr (Fmt.low_zero _)
    refine ⟨0, f.zero (f.sign x), hself 0 (by rw [hv]; simp), finite_zero f _, Fmt.sign_zero _,
      by rw [hz]; simp, ?_⟩
    rw [hcls, hsign]
    simp [hv]
  rw [if_neg h0] at hcls
  have hun := @unpack_number f x st' h hx.isNan hx.isInf h0
  rw [hu] at hun
  rw [hcls]
  dsimp only
  by_cases he : 0 ≤ u.exp
  · -- An integer already.
    obtain ⟨e, he'⟩ := Int.eq_ofNat_of_zero_le he
    have hn : |f.value x| = (u.mant.toNat * 2 ^ e : ℕ) := by
      rw [← hun.value, he', zpow_natCast]
      push_cast
      rfl
    refine ⟨_, x, hself _ hn, hx, rfl, hn, ?_⟩
    rw [if_pos he, hn]
    simp
  · rw [if_neg he]
    exact roundFraction_eq hx hun (by omega)

end integers

/-! ## Whole part and fraction -/

section parts

variable {f : Fmt} {x : U64} {n : ℕ}

theorem Fmt.Finite.low_lt (hx : f.Finite x) : f.low x < f.infLow := by
  have hn := hx.isNan
  have hi := hx.isInf
  rw [← Bool.not_eq_true, Fmt.isNan_iff] at hn
  rw [← Bool.not_eq_true, Fmt.isInf_iff] at hi
  omega

theorem Fmt.mag_low (f : Fmt) (x : U64) : (mag f.fbits (f.low x) : ℚ) * f.unit = |f.value x| := by
  rw [← f.abs_value, div_mul_cancel₀ _ f.unit_pos.ne']

/-- The integers that a value is rounded to are values. -/
theorem exists_low_integral (hx : f.Finite x) (mode : Round)
    (h : mode.integral.Rounds (f.sign x) |f.value x| n) :
    ∃ l < f.infLow, (mag f.fbits l : ℚ) * f.unit = n := by
  have hfz : (⟨0, 0⟩ : St).fz = true → f.isDenormal x = false := fun h => absurd h (by decide)
  obtain ⟨n', r, hn', hr, -, hv, -⟩ := @roundInt_number f x mode false _ hx hfz
  have heq : n = n' := by exact_mod_cast Round.Rounds.unique h hn'
  refine ⟨f.low r, hr.low_lt, ?_⟩
  rw [Fmt.mag_low, hv, heq]

/-- The fraction of a value is a value. -/
theorem exists_low_fraction (hx : f.Finite x) (h : Downward |f.value x| n) :
    ∃ l < f.infLow, (mag f.fbits l : ℚ) * f.unit = |f.value x| - n := by
  obtain ⟨K, hK⟩ : ∃ K : ℕ, (K : ℤ) = f.bias + f.fbits - 1 := by
    cases f
    · exact ⟨24, rfl⟩
    · exact ⟨149, rfl⟩
    · exact ⟨1074, rfl⟩
  have hunit : f.unit = 1 / 2 ^ K := by
    rw [Fmt.unit, show 1 - f.bias - (f.fbits : ℤ) = -(K : ℤ) by omega, zpow_neg, zpow_natCast, one_div]
  have hval := Fmt.mag_low f x
  obtain ⟨sig, e, hsig, hmag⟩ := exists_significand f.fbits (f.low x)
  rw [hmag] at hval
  obtain ⟨hlo, hhi⟩ := h
  rw [Int.cast_natCast] at hlo hhi
  have hlt : |f.value x| - n < 2 ^ (f.bias + 1) := by
    have h1 : (1 : ℚ) ≤ 2 ^ (f.bias + 1) :=
      one_le_zpow₀ (by norm_num) (by cases f <;> decide)
    linarith
  rcases Nat.le_total K e with hle | hle
  · -- An integer.
    have hint : |f.value x| = (sig * 2 ^ (e - K) : ℕ) := by
      rw [← hval, hunit]
      push_cast
      rw [pow_sub₀ _ (by norm_num) hle]
      ring
    rw [hint] at hlo hhi
    have h1 : n ≤ sig * 2 ^ (e - K) := by exact_mod_cast hlo
    have h2 : sig * 2 ^ (e - K) < n + 1 := by exact_mod_cast hhi
    refine exists_low_of_lt (k := 0) (e := 0) (Nat.zero_le _) ?_ hlt
    rw [hint, show n = sig * 2 ^ (e - K) by omega]
    simp
  · have hfrac : |f.value x| = sig / 2 ^ (K - e) := by
      rw [← hval, hunit]
      push_cast
      rw [pow_sub₀ _ (by norm_num) hle]
      field_simp
    have hpow : (0 : ℚ) < 2 ^ (K - e) := by positivity
    have hle' : (n : ℚ) * 2 ^ (K - e) ≤ sig := by
      rw [hfrac, le_div_iff₀ hpow] at hlo
      exact hlo
    have hle'' : n * 2 ^ (K - e) ≤ sig := by exact_mod_cast hle'
    refine exists_low_of_lt (k := sig - n * 2 ^ (K - e)) (e := e) ?_ ?_ hlt
    · rw [← pow_succ']
      omega
    · rw [hfrac, hunit]
      push_cast [Nat.cast_sub hle'']
      rw [pow_sub₀ _ (by norm_num) hle]
      field_simp

/-- A significand with nothing after its leading bit. -/
theorem abs_value_of_low {q : ℕ} (h : f.low x = q * 2 ^ f.fbits) (hq : 0 < q) :
    |f.value x| = 2 ^ ((q : ℤ) - f.bias) := by
  have hpos := Nat.two_pow_pos f.fbits
  obtain ⟨e, rfl⟩ : ∃ e, q = e + 1 := ⟨q - 1, by omega⟩
  rw [← Fmt.mag_low, h, mag, Nat.mul_div_cancel _ hpos, Nat.mul_mod_left, if_neg (by omega), Fmt.unit]
  push_cast
  rw [add_zero, ← zpow_natCast, ← zpow_natCast, ← zpow_add₀ (by norm_num),
    ← zpow_add₀ (by norm_num)]
  congr 1
  ring

end parts

/-! ## NaNs and whole values -/

section nans

variable {f : Fmt} {x : U64} {mode : Round} {exact : Bool} {st : St}

theorem isNan_quiet (h : f.isNan x = true) : f.isNan (f.quiet x) = true := by
  have hshift : (1#64 <<< (f.fbits - 1)) >>> f.fbits = 0#64 := by cases f <;> rfl
  have hmask : (1#64 <<< (f.fbits - 1)) &&& f.fracMask = 1#64 <<< (f.fbits - 1) := by cases f <;> rfl
  have hone : 1#64 <<< (f.fbits - 1) ≠ 0#64 := by cases f <;> decide
  have hexp : f.expField (f.quiet x) = f.expField x := by
    rw [Fmt.expField, Fmt.quiet, BitVec.ushiftRight_or_distrib, hshift, BitVec.or_zero, Fmt.expField]
  rw [Fmt.isNan, Bool.and_eq_true] at h ⊢
  refine ⟨hexp ▸ h.1, bne_iff_ne.mpr fun h0 => hone ?_⟩
  rw [Fmt.quiet, BitVec.and_or_distrib_right, hmask] at h0
  exact (BitVec.or_eq_zero_iff.mp h0).2

theorem not_isSnan_quiet (f : Fmt) (x : U64) : f.isSnan (f.quiet x) = false := by
  have hone : 1#64 <<< (f.fbits - 1) ≠ 0#64 := by cases f <;> decide
  rw [Fmt.isSnan, Bool.and_eq_false_iff]
  refine .inr (beq_eq_false_iff_ne.mpr fun h0 => hone ?_)
  rw [Fmt.quiet, BitVec.and_or_distrib_right, BitVec.and_self] at h0
  exact (BitVec.or_eq_zero_iff.mp h0).2

theorem isNan_processNan (h : f.isNan x = true) : f.isNan (processNan f x st).1 = true ∧
    f.isSnan (processNan f x st).1 = false := by
  rw [processNan]
  dsimp only
  split_ifs
  all_goals first
  | exact ⟨isNan_quiet h, not_isSnan_quiet f x⟩
  | cases f <;> decide

theorem processNan_processNan (h : f.isNan x = true) :
    processNan f (processNan f x st).1 (processNan f x st).2 = processNan f x st := by
  have hs := (@isNan_processNan f x st h).2
  have hdn : (processNan f x st).2.dn = st.dn := by
    rw [processNan]
    dsimp only
    split_ifs <;> rfl
  rw [processNan, hs, if_neg Bool.false_ne_true, hdn]
  refine Prod.ext ?_ rfl
  rw [processNan]
  dsimp only
  have hraise : (if f.isSnan x = true then st.raise ioc else st).dn = st.dn := by split_ifs <;> rfl
  rw [hraise]
  by_cases hd : st.dn = true
  · rw [if_pos hd, if_pos hd]
  · rw [if_neg hd, if_neg hd, Fmt.quiet, Fmt.quiet, BitVec.or_assoc, BitVec.or_self]

theorem roundInt_isNan (h : f.isNan x = true) : roundInt f x mode exact st = some (processNan f x st) := by
  have hden : st.fz = true → f.isDenormal x = false := fun _ => by
    rw [← Bool.not_eq_true]
    exact fun hd => by rw [Fmt.not_isNan_of_isDenormal hd] at h; exact Bool.false_ne_true h
  have hst := unpack_status hden
  have hcls := unpack_cls hden
  rw [roundInt]
  rcases hu : unpack f x st with ⟨u, st'⟩
  rw [hu] at hst hcls
  dsimp only at hst hcls ⊢
  rw [classify, if_pos h] at hcls
  rw [hst]
  split_ifs at hcls <;> rw [hcls]

theorem roundInt_isInf (h : f.isInf x = true) : roundInt f x mode exact st = some (x, st) := by
  have hnan : f.isNan x = false := by
    rw [← Bool.not_eq_true, Fmt.isNan_iff]
    rw [Fmt.isInf_iff] at h
    omega
  have hden : st.fz = true → f.isDenormal x = false := fun _ => by
    have hle := Fmt.fbits_pow_le_infLow f
    rw [← Bool.not_eq_true, Fmt.isDenormal_iff]
    rw [Fmt.isInf_iff] at h
    omega
  have hst := unpack_status hden
  have hcls := unpack_cls hden
  rw [roundInt]
  rcases hu : unpack f x st with ⟨u, st'⟩
  rw [hu] at hst hcls
  dsimp only at hst hcls ⊢
  rw [classify, hnan, if_neg Bool.false_ne_true, if_pos h] at hcls
  rw [hst, hcls]

/-- Integral values stay as they are. -/
theorem roundInt_integral (hx : f.Finite x) (h : st.fz = true → f.isDenormal x = false) {k : ℕ}
    (hk : |f.value x| = k) : roundInt f x mode exact st = some (x, st) := by
  obtain ⟨n, r, hn, hr, hs, hv, heq⟩ := @roundInt_number f x mode exact st hx h
  have hnk : n = k := by
    have hg : Guarded |f.value x| k false false := hk
    have hself := @rounds_ofDigits mode.integral (f.sign x) false false _ _ hg
    rw [ofDigits_exact] at hself
    exact_mod_cast Round.Rounds.unique hn hself
  have hrx : r = x := eq_of_abs_value hr.encodes hx.encodes hs (by rw [hv, hk, hnk])
  rw [heq, hrx, hk, hnk]
  simp

/-- Status bits do not change what later roundings do. -/
theorem fz_raise (b : Bool) (bits : U32) : (if b then st.raise bits else st).fz = st.fz := by
  cases b <;> rfl

/-- **What `roundInt` does with every operand**: numbers go to the integer of the mode, with their
sign, and a change is reported when asked for; infinities stay and NaNs are processed. Whole values
stay, and so does what it returned. -/
theorem roundInt_exact (f : Fmt) (x : U64) (mode : Round) (exact : Bool) (st : St) (hx : f.Encodes x)
    (hfz : st.fz = false) :
    (f.isNan x = true → roundInt f x mode exact st = some (processNan f x st)) ∧
    (f.isInf x = true → roundInt f x mode exact st = some (x, st)) ∧
    (f.isNan x = false → f.isInf x = false → ∃ (n : ℕ) (r : U64),
      mode.integral.Rounds (f.sign x) |f.value x| n ∧ f.Finite r ∧ f.sign r = f.sign x ∧
      |f.value r| = n ∧ roundInt f x mode exact st =
        some (r, if exact && decide ((n : ℚ) ≠ |f.value x|) then st.raise ixc else st)) ∧
    (f.isNan x = false → f.isInf x = false → ∀ k : ℤ, f.value x = k →
      roundInt f x mode exact st = some (x, st)) ∧
    ∃ r st', roundInt f x mode exact st = some (r, st') ∧
      roundInt f r mode exact st' = some (r, st') := by
  have hden : st.fz = true → f.isDenormal x = false := fun h => by rw [hfz] at h; cases h
  refine ⟨roundInt_isNan, roundInt_isInf, fun hn hi => roundInt_number ⟨hx, hn, hi⟩ hden,
    fun hn hi k hk => ?_, ?_⟩
  · refine @roundInt_integral f x mode exact st ⟨hx, hn, hi⟩ hden k.natAbs ?_
    rw [hk, ← Int.cast_abs, Int.abs_eq_natAbs, Int.cast_natCast]
  · cases hn : f.isNan x with
    | true =>
      have hagain := @roundInt_isNan f (processNan f x st).1 mode exact (processNan f x st).2
        (isNan_processNan hn).1
      rw [processNan_processNan hn] at hagain
      exact ⟨_, _, roundInt_isNan hn, hagain⟩
    | false =>
      cases hi : f.isInf x with
      | true => exact ⟨x, st, roundInt_isInf hi, roundInt_isInf hi⟩
      | false =>
        obtain ⟨n, r, -, hr, -, hv, heq⟩ := @roundInt_number f x mode exact st ⟨hx, hn, hi⟩ hden
        refine ⟨r, _, heq, roundInt_integral hr (fun h => ?_) hv⟩
        rw [fz_raise, hfz] at h
        cases h

theorem roundInt_exact_half : ∃ r st', roundInt .d 0x4004000000000000#64 .tieEven true ⟨0, 0⟩ =
    some (r, st') ∧ roundInt .d r .tieEven true st' = some (r, st') :=
  (roundInt_exact .d 0x4004000000000000#64 .tieEven true ⟨0, 0⟩ (by decide) rfl).2.2.2.2

/-- Rounding to odd truncates: two and a half gives two, which is even and not the value. -/
theorem roundInt_odd_inexact : roundInt .s 0x40200000#64 .odd true ⟨0, 0⟩ =
      some (0x40000000#64, ⟨0, ixc⟩) ∧
    (Fmt.s.value 0x40200000#64 = 5 / 2 ∧ Fmt.s.value 0x40000000#64 = 2) ∧
    ¬Round.odd.Rounds false (5 / 2) 2 := by
  have hunit : Fmt.s.unit = 1 / 2 ^ 149 := by
    rw [Fmt.unit, show (1 - Fmt.s.bias - (Fmt.s.fbits : Int)) = -(149 : ℕ) by decide, zpow_neg,
      zpow_natCast, one_div]
  refine ⟨by decide, ⟨?_, ?_⟩, fun h => ?_⟩
  · rw [Fmt.value, hunit, show Fmt.s.units 0x40200000#64 = 5 * 2 ^ 148 by decide]
    norm_num
  · rw [Fmt.value, hunit, show Fmt.s.units 0x40000000#64 = 2 ^ 150 by decide]
    norm_num
  · obtain ⟨a, ha⟩ := h.2 (by norm_num)
    omega

end nans

end Interp
end Rustarmic
