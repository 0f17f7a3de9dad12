import Rustarmic.Backend.VectorMinMax
import Rustarmic.Interp.RoundInt

/-!
# Inline rounding to the nearest integer, ties away

FRINTA from a truncation of the magnitude: when the rest is at least one half, one is added, and the
sign is put back.  Adding one half before the truncation would be wrong next to ties.

* `emitOpVecFrinta` — the sequence.
* `roundAway_eq` — on a lane it is what the instruction helper computes.
* `rest_total_exact` — its subtraction and its addition are exact.
* `frinta_exact` — in every block, wherever the operand is.

The host rounds to the nearest with ties to even, up, down and towards zero, and not with ties
away.  The largest number below one half shows why the obvious way does not work: the sum with one
half is rounded, to one, and its truncation is one where the result should be zero.

The sequence takes the magnitude, truncates it, and subtracts that.  A value less its integer part
is a value of the format, so that the difference is not rounded; whether it is at least one half
decides if one is added, and the sum is an integer of the format, so that it is not rounded either.
This uses that the host's subtraction and addition are *correctly rounded*, as an exact result is
then returned as it is; the truncation is the other thing taken from the host.

Infinities and NaNs go through without a case: infinity less infinity is a NaN and not at least one
half, and the sum keeps a NaN, quieted.  The sign is put back in the end, and a result of zero has
the sign of the operand.
-/

set_option autoImplicit false

namespace Rustarmic

namespace VectorCode

open Interp Lanes AbsoluteCompare

/-! ## The code -/

/-- One half in every lane. -/
def halves (double : Bool) : U64 := if double then 0x3FE0000000000000#64 else 0x3F0000003F000000#64

/-- One in every lane. -/
def ones (double : Bool) : U64 := if double then 0x3FF0000000000000#64 else 0x3F8000003F800000#64

/-- `xmm2` takes the signs, `xmm1` the fractions and `xmm3` what is added. -/
def frintaCode (double : Bool) (working : Nat) : List FloatInstr :=
  let f := fmt double
  [.base (.pcmpeq 32 2 2), .base (.psll f.bits 2 (f.bits - 1)), .base (.pand 2 working),
    .base (.pcmpeq 32 1 1), .base (.psrl f.bits 1 1), .base (.pand working 1),
    .base (.mov (.xmm 1) (.xmm working)), .packed (.round .zero) f working working, .packed .sub f 1 working,
    .base (.broadcast 3 (halves double)), .packed .cmple f 3 1, .base (.broadcast 1 (ones double)),
    .base (.pand 3 1), .packed .add f working 3, .base (.por working 2)]

def emitOpVecFrinta (locs : Nat → Loc) (a : Armlet) (d : Nat) : Option (List FloatInstr) := do
  let double := vecFpIsDouble a.op
  let working := workingXmmFor (locs d) 0
  let load ← intoXmmQ (locs (a.args.get 0)) working
  let store ← storeXmmQ (locs d) working
  pure (load.map .base ++ frintaCode double working ++ (narrowForm a working ++ store).map .base)

/-! ## One lane -/

section lane

variable (host : HostFloat) (f : Fmt) (a : U64)

def half : U64 := BitVec.ofNat 64 ((f.bias.toNat - 1) * 2 ^ f.fbits)

def one : U64 := BitVec.ofNat 64 (f.bias.toNat * 2 ^ f.fbits)

/-- The truncated magnitude. -/
def whole : U64 := (FloatOp.round .zero).apply host f (f.abs a) (f.abs a)

/-- What the truncation took away. -/
def rest : U64 := FloatOp.sub.apply host f (f.abs a) (whole host f a)

/-- One when the rest is at least one half. -/
def carry : U64 := FloatOp.cmple.apply host f (half f) (rest host f a) &&& one f

def total : U64 := FloatOp.add.apply host f (whole host f a) (carry host f a)

/-- What the sequence computes on a lane. -/
def roundAway : U64 := total host f a ||| (a &&& f.signBit)

end lane

section numbers

variable {host : HostFloat} {f : Fmt} {a : U64}

theorem half_spec (f : Fmt) : f.Finite (half f) ∧ f.sign (half f) = false ∧ f.value (half f) = 1 / 2 := by
  have hsign : f.sign (half f) = false := by cases f <;> decide
  refine ⟨⟨by cases f <;> decide, by cases f <;> decide, by cases f <;> decide⟩, hsign, ?_⟩
  rw [value_of_sign hsign, @abs_value_of_low f _ (f.bias.toNat - 1) (by cases f <;> decide)
    (by cases f <;> decide), show ((f.bias.toNat - 1 : ℕ) : ℤ) - f.bias = -1 by cases f <;> rfl]
  norm_num

theorem one_spec (f : Fmt) : f.Finite (one f) ∧ f.sign (one f) = false ∧ f.value (one f) = 1 := by
  have hsign : f.sign (one f) = false := by cases f <;> decide
  refine ⟨⟨by cases f <;> decide, by cases f <;> decide, by cases f <;> decide⟩, hsign, ?_⟩
  rw [value_of_sign hsign, @abs_value_of_low f _ f.bias.toNat (by cases f <;> decide)
    (by cases f <;> decide), show (f.bias.toNat : ℤ) - f.bias = 0 by cases f <;> rfl, zpow_zero]

theorem zero_spec (f : Fmt) : f.Finite 0#64 ∧ f.sign 0#64 = false ∧ f.value 0#64 = 0 :=
  ⟨⟨by cases f <;> decide, by cases f <;> decide, by cases f <;> decide⟩, by cases f <;> decide,
    (f.value_eq_zero _).mpr (by cases f <;> decide)⟩

theorem finite_abs (ha : f.Finite a) : f.Finite (f.abs a) where
  encodes := by
    rw [Fmt.Encodes, toNat_abs]
    exact ha.low_lt.trans ((infLow_lt f).trans_le (Nat.pow_le_pow_right (by decide) (Nat.sub_le _ _)))
  isNan := isNan_abs.trans ha.isNan
  isInf := by
    rw [← Bool.not_eq_true, Fmt.isInf_iff, low_abs]
    exact ha.low_lt.ne

theorem value_abs (f : Fmt) (a : U64) : f.value (f.abs a) = |f.value a| := by
  rw [value_of_sign sign_abs, ← Fmt.mag_low, low_abs, Fmt.mag_low]

theorem quietFirst_numbers {b r : U64} (ha : f.isNan a = false) (hb : f.isNan b = false) :
    quietFirst f a b r = r := by
  rw [quietFirst, ha, hb, if_neg Bool.false_ne_true, if_neg Bool.false_ne_true]

/-- A number from what it was rounded from, when that is a value. -/
theorem exact_spec {mode : Round} {s : Bool} {x : ℚ} {r : U64} (h : f.Rounded mode s x r)
    (hx : ∃ l < f.infLow, (BinaryFormat.mag f.fbits l : ℚ) * f.unit = x) :
    f.Finite r ∧ f.sign r = s ∧ |f.value r| = x := by
  obtain ⟨l, hl, hval⟩ := hx
  obtain ⟨-, hfin, habs⟩ := h.exact hl hval
  exact ⟨hfin, h.sign, habs⟩

/-- A positive number or positive zero, exactly. -/
structure IsExact (f : Fmt) (r : U64) (x : ℚ) : Prop where
  finite : f.Finite r
  sign : f.sign r = false
  value : f.value r = x

theorem whole_spec (hhost : IsHostFloat host) (hf : f ≠ .h) (ha : f.Finite a) :
    ∃ n : ℕ, Rounding.Downward |f.value a| n ∧ IsExact f (whole host f a) n := by
  have habs := finite_abs ha
  obtain ⟨n, hn, hround⟩ := hhost.round .zero f (f.abs a) hf habs
  obtain ⟨hfin, hsign, hval⟩ := exact_spec hround (exists_low_integral habs .zero hn)
  rw [value_abs, abs_abs] at hn
  rw [sign_abs] at hsign
  rw [whole, FloatOp.apply, habs.isNan, if_neg Bool.false_ne_true]
  exact ⟨n, hn.1 (abs_nonneg _), hfin, hsign, by rw [value_of_sign hsign, hval]⟩

/-- The subtraction is exact. -/
theorem rest_spec (hhost : IsHostFloat host) (hf : f ≠ .h) (ha : f.Finite a) {n : ℕ}
    (hn : Rounding.Downward |f.value a| n) (hw : IsExact f (whole host f a) n) :
    IsExact f (rest host f a) (|f.value a| - n) := by
  have habs := finite_abs ha
  have hnonneg : 0 ≤ |f.value a| - n := by
    have := hn.1
    push_cast at this
    linarith
  have hround := hhost.sub f _ _ hf habs hw.finite
  rw [value_abs, hw.value, hw.sign, sign_abs, abs_of_nonneg hnonneg] at hround
  obtain ⟨hfin, hsign, hval⟩ := exact_spec hround (exists_low_fraction ha hn)
  have hs : sumSign (|f.value a| - n) false (!false) = false := by
    rw [sumSign]
    split_ifs
    · rfl
    · exact decide_eq_false hnonneg.not_gt
  rw [hs] at hsign
  rw [rest, FloatOp.apply, quietFirst_numbers habs.isNan hw.finite.isNan]
  exact ⟨hfin, hsign, by rw [value_of_sign hsign, hval]⟩

theorem carry_spec (ha : f.Finite a) {x : ℚ} (hr : IsExact f (rest host f a) x) :
    IsExact f (carry host f a) (if 1 / 2 ≤ x then 1 else 0) := by
  obtain ⟨hhalf, -, hvalue⟩ := half_spec f
  have hge : hostGe f (rest host f a) (half f) = decide (1 / 2 ≤ x) := by
    rw [hostGe, hr.finite.isNan, hhalf.isNan, Bool.not_false, Bool.true_and, Bool.true_and,
      decide_eq_decide, ← hr.value, ← hvalue, Fmt.value, Fmt.value, mul_le_mul_iff_left₀ f.unit_pos]
    exact_mod_cast Iff.rfl
  have hone : mask f.bits &&& one f = one f := by cases f <;> decide
  rw [carry, FloatOp.apply, hge, maskOf]
  by_cases h : 1 / 2 ≤ x
  · rw [if_pos (decide_eq_true h), if_pos h, hone]
    exact ⟨(one_spec f).1, (one_spec f).2.1, (one_spec f).2.2⟩
  · rw [if_neg (by simpa using h), if_neg h, BitVec.zero_and]
    exact ⟨(zero_spec f).1, (zero_spec f).2.1, (zero_spec f).2.2⟩

/-- The whole part and the rest decide the rounding. -/
theorem nearestAway_of_downward {x : ℚ} {n : ℕ} (h : Rounding.Downward x n) :
    Rounding.NearestAway x (n + (decide (1 / 2 ≤ x - n)).toNat : ℕ) := by
  obtain ⟨hlo, hhi⟩ := h
  rw [Int.cast_natCast] at hlo hhi
  have hg : ∃ sticky, Rounding.Guarded x n (decide (1 / 2 ≤ x - n)) sticky := by
    rcases lt_trichotomy (x - n) (1 / 2) with hlt | heq | hgt
    · rw [decide_eq_false hlt.not_ge]
      by_cases h0 : x = n
      · exact ⟨false, h0⟩
      · exact ⟨true, lt_of_le_of_ne hlo (Ne.symm h0), by linarith⟩
    · rw [decide_eq_true heq.ge]
      refine ⟨false, ?_⟩
      change x = n + 1 / 2
      linarith
    · rw [decide_eq_true hgt.le]
      exact ⟨true, by linarith, hhi⟩
  obtain ⟨sticky, hg⟩ := hg
  exact hg.nearestAway

/-- The addition is exact. -/
theorem total_spec (hhost : IsHostFloat host) (hf : f ≠ .h) (ha : f.Finite a) {n : ℕ}
    (hn : Rounding.Downward |f.value a| n) (hw : IsExact f (whole host f a) n)
    (hc : IsExact f (carry host f a) (if 1 / 2 ≤ |f.value a| - n then 1 else 0)) :
    IsExact f (total host f a) (n + (decide (1 / 2 ≤ |f.value a| - n)).toNat : ℕ) := by
  have hcarry : ((decide (1 / 2 ≤ |f.value a| - n)).toNat : ℚ) =
      if 1 / 2 ≤ |f.value a| - n then 1 else 0 := by
    by_cases h : 1 / 2 ≤ |f.value a| - n
    · rw [if_pos h, decide_eq_true h]
      exact Nat.cast_one
    · rw [if_neg h, decide_eq_false h]
      exact Nat.cast_zero
  have hround := hhost.add f _ _ hf hw.finite hc.finite
  rw [hw.value, hc.value, hw.sign, hc.sign, ← hcarry, ← Nat.cast_add, Nat.abs_cast] at hround
  obtain ⟨hfin, hsign, hval⟩ := exact_spec hround
    (exists_low_integral ha .tieAway (nearestAway_of_downward hn))
  have hs (k : ℕ) : sumSign k false false = false := by
    rw [sumSign]
    split_ifs
    · rfl
    · exact decide_eq_false (Nat.cast_nonneg k).not_gt
  rw [hs] at hsign
  rw [total, FloatOp.apply, quietFirst_numbers hw.finite.isNan hc.finite.isNan]
  exact ⟨hfin, hsign, by rw [value_of_sign hsign, hval]⟩

/-- A sign put on a magnitude. -/
theorem or_signBit {r : U64} (hr : f.Finite r) (hs : f.sign r = false) :
    f.Encodes (r ||| (a &&& f.signBit)) ∧ f.sign (r ||| (a &&& f.signBit)) = f.sign a ∧
      |f.value (r ||| (a &&& f.signBit))| = |f.value r| := by
  have hlt := hr.low_lt.trans (infLow_lt f)
  have hsplit := Fmt.toNat_split hr.encodes
  rw [hs, if_neg Bool.false_ne_true, Nat.zero_add] at hsplit
  have heq : r ||| (a &&& f.signBit) = f.zero (f.sign a) ||| BitVec.ofNat 64 (f.low r) := by
    rw [Fmt.and_signBit, BitVec.or_comm, ← hsplit, BitVec.ofNat_toNat, BitVec.setWidth_eq]
  rw [heq, ← Fmt.mag_low, ← Fmt.mag_low, low_or_zero hlt]
  exact ⟨encodes_or_zero hlt, sign_or_zero hlt, rfl⟩

theorem abs_or_signBit (ha : f.Encodes a) (q : U64) : f.abs a ||| q ||| (a &&& f.signBit) = a ||| q := by
  rw [← AbsoluteDifference.abs_of_encodes ha]
  ext i hi
  simp only [BitVec.getElem_or, BitVec.getElem_and, BitVec.getElem_not]
  cases a[i] <;> cases q[i] <;> cases f.signBit[i] <;> rfl

theorem carry_of_isNan (h : f.isNan (rest host f a) = true) : carry host f a = 0#64 := by
  rw [carry, FloatOp.apply, hostGe, h, Bool.not_true, Bool.false_and, Bool.false_and, maskOf,
    if_neg Bool.false_ne_true, BitVec.zero_and]

/-- A NaN is quieted. -/
theorem roundAway_isNan (ha : f.Encodes a) (h : f.isNan a = true) : roundAway host f a = f.quiet a := by
  have hnan : f.isNan (f.abs a) = true := isNan_abs.trans h
  have hw : whole host f a = f.quiet (f.abs a) := by
    rw [whole, FloatOp.apply, if_pos hnan]
  have hr : rest host f a = f.quiet (f.abs a) := by
    rw [rest, FloatOp.apply, quietFirst, if_pos hnan]
  have hc : carry host f a = 0#64 := carry_of_isNan (by rw [hr, isNan_quiet hnan])
  have hq : f.quiet (f.quiet (f.abs a)) = f.quiet (f.abs a) := by
    rw [Fmt.quiet, Fmt.quiet, BitVec.or_assoc, BitVec.or_self]
  rw [roundAway, total, hc, hw, FloatOp.apply, quietFirst, isNan_quiet hnan, if_pos rfl, hq, Fmt.quiet,
    abs_or_signBit ha, Fmt.quiet]

/-- An infinity falls through the comparison. -/
theorem roundAway_isInf (hhost : IsHostFloat host) (hf : f ≠ .h) (ha : f.Encodes a)
    (h : f.isInf a = true) : roundAway host f a = a := by
  have hinf : f.isInf (f.abs a) = true := by
    rw [Fmt.isInf_iff] at h ⊢
    rw [low_abs, h]
  have hnan : f.isNan (f.abs a) = false := by
    rw [← Bool.not_eq_true, Fmt.isNan_iff, low_abs]
    rw [Fmt.isInf_iff] at h
    omega
  have henc : f.Encodes (f.abs a) := by
    rw [Fmt.Encodes, toNat_abs, Fmt.isInf_iff.mp h]
    exact (infLow_lt f).trans_le (Nat.pow_le_pow_right (by decide) (Nat.sub_le _ _))
  have hw : whole host f a = f.abs a := by
    rw [whole, FloatOp.apply, hnan, if_neg Bool.false_ne_true, hhost.round_inf _ _ _ hf hinf]
  have hr : f.isNan (rest host f a) = true := by
    rw [rest, FloatOp.apply, hw, quietFirst_numbers hnan hnan]
    exact hhost.sub_inf f _ hf henc hinf
  rw [roundAway, total, carry_of_isNan hr, hw, FloatOp.apply,
    quietFirst_numbers hnan (zero_spec f).1.isNan, hhost.add_inf _ _ _ hf henc hinf (zero_spec f).1]
  have h0 := abs_or_signBit ha 0#64
  rwa [BitVec.or_zero, BitVec.or_zero] at h0

/-- **On a lane the sequence computes what the instruction helper computes.** -/
theorem roundAway_eq (hhost : IsHostFloat host) (hf : f ≠ .h) (ha : f.Encodes a) (exact : Bool)
    (fpsr : U32) : ∃ st, roundInt f a .tieAway exact ⟨0, fpsr⟩ = some (roundAway host f a, st) := by
  obtain ⟨hz, hd⟩ := clear_fz fpsr
  generalize (⟨0, fpsr⟩ : St) = st at *
  cases hnan : f.isNan a with
  | true =>
    refine ⟨(processNan f a st).2, ?_⟩
    rw [roundInt_isNan hnan, roundAway_isNan ha hnan, ← processNan_of_dn hd]
  | false =>
    cases hinf : f.isInf a with
    | true => exact ⟨st, by rw [roundInt_isInf hinf, roundAway_isInf hhost hf ha hinf]⟩
    | false =>
      have hfin : f.Finite a := ⟨ha, hnan, hinf⟩
      obtain ⟨n, hn, hw⟩ := whole_spec hhost hf hfin
      have hr := rest_spec hhost hf hfin hn hw
      have ht := total_spec hhost hf hfin hn hw (carry_spec hfin hr)
      obtain ⟨henc, hsign, hval⟩ := @or_signBit f a _ ht.finite ht.sign
      obtain ⟨m, r, hm, hrfin, hrs, hrv, heq⟩ := @roundInt_number f a .tieAway exact st hfin
        fun h => by rw [hz] at h; cases h
      have hmn := @Round.Rounds.unique .tieAway _ _ _ _ hm (nearestAway_of_downward hn)
      have hresult : r = roundAway host f a := by
        refine eq_of_abs_value hrfin.encodes henc (hrs.trans hsign.symm) ?_
        rw [hrv, roundAway, hval, ht.value, Nat.abs_cast]
        exact_mod_cast hmn
      exact ⟨_, hresult ▸ heq⟩

/-- **The subtraction and the addition are exact.** -/
theorem rest_total_exact (hhost : IsHostFloat host) (hf : f ≠ .h) (ha : f.Finite a) :
    f.Finite (rest host f a) ∧ f.value (rest host f a) = f.value (f.abs a) - f.value (whole host f a) ∧
    f.Finite (total host f a) ∧
      f.value (total host f a) = f.value (whole host f a) + f.value (carry host f a) := by
  obtain ⟨n, hn, hw⟩ := whole_spec hhost hf ha
  have hr := rest_spec hhost hf ha hn hw
  have hc := carry_spec ha hr
  have ht := total_spec hhost hf ha hn hw hc
  refine ⟨hr.finite, by rw [hr.value, hw.value, value_abs], ht.finite, ?_⟩
  rw [ht.value, hw.value, hc.value, Nat.cast_add]
  by_cases h : 1 / 2 ≤ |f.value a| - n
  · rw [if_pos h, decide_eq_true h, Bool.toNat_true, Nat.cast_one]
  · rw [if_neg h, decide_eq_false h, Bool.toNat_false, Nat.cast_zero]

end numbers

/-! ## The registers -/

section registers

variable {host : HostFloat} {double : Bool} {working k : Nat} {x : U128}

/-- What the sequence leaves, with the operations on all lanes. -/
def frintaBits (apply : FloatOp → U128 → U128 → U128) (double : Bool) (x : U128) : U128 :=
  let w := (fmt double).bits
  let magnitude := x &&& Packed.psrl w (BitVec.allOnes 128) 1
  let whole := apply (.round .zero) magnitude magnitude
  let rest := apply .sub magnitude whole
  let carry := apply .cmple (halves double ++ halves double : U128) rest &&&
    (ones double ++ ones double : U128)
  apply .add whole carry ||| (Packed.psll w (BitVec.allOnes 128) (w - 1) &&& x)

def onLanes (host : HostFloat) (f : Fmt) (op : FloatOp) : U128 → U128 → U128 :=
  Packed.zipLanes f.bits (lanewise f.bits fun a b => op.apply host f a b)

theorem run_frintaCode (hw : ∀ r, 0 < r → r < 6 → working ≠ r) (m : Contents) :
    runFloat host (frintaCode double working) m (.xmm working) =
      frintaBits (onLanes host (fmt double)) double (m (.xmm working)) := by
  have hw1 := hw 1 (by decide) (by decide)
  have hw2 := hw 2 (by decide) (by decide)
  have hw3 := hw 3 (by decide) (by decide)
  simp [frintaCode, frintaBits, onLanes, hw1, hw2, hw3, hw1.symm, hw2.symm, Packed.pcmpeq_self]

/-- Operations on encodings, in lanes. -/
theorem lanewise_setWidth {f : Fmt} (g : U64 → U64 → U64) {a b : U64} (ha : f.Encodes a)
    (hb : f.Encodes b) :
    lanewise f.bits g (a.setWidth f.bits) (b.setWidth f.bits) = (g a b).setWidth f.bits := by
  have hself : ∀ u : U64, f.Encodes u → (u.setWidth f.bits).setWidth 64 = u := fun u hu => by
    rw [← BitVec.toNat_inj, BitVec.toNat_setWidth, BitVec.toNat_setWidth, Nat.mod_eq_of_lt hu,
      Nat.mod_eq_of_lt u.isLt]
  rw [lanewise, hself a ha, hself b hb]

theorem lane_onLanes (host : HostFloat) {f : Fmt} (op : FloatOp) {x y : U128} {a b : U64}
    (hk : f.bits * k + f.bits ≤ 128) (ha : f.Encodes a) (hb : f.Encodes b)
    (hx : lane f.bits x k = a.setWidth f.bits)
    (hy : lane f.bits y k = b.setWidth f.bits) :
    lane f.bits (onLanes host f op x y) k = (op.apply host f a b).setWidth f.bits := by
  rw [onLanes, Packed.lane_zipLanes _ hk, hx, hy, lanewise_setWidth _ ha hb]

theorem lane_constants (hk : (fmt double).bits * k + (fmt double).bits ≤ 128) :
    lane (fmt double).bits (halves double ++ halves double : U128) k =
      (half (fmt double)).setWidth (fmt double).bits ∧
    lane (fmt double).bits (ones double ++ ones double : U128) k =
      (one (fmt double)).setWidth (fmt double).bits := by
  cases double with
  | false =>
    have hk' : k < 4 := by change 32 * k + 32 ≤ 128 at hk; omega
    obtain rfl | rfl | rfl | rfl : k = 0 ∨ k = 1 ∨ k = 2 ∨ k = 3 := by omega
    all_goals decide
  | true =>
    have hk' : k < 2 := by change 64 * k + 64 ≤ 128 at hk; omega
    obtain rfl | rfl : k = 0 ∨ k = 1 := by omega
    all_goals decide

/-- The results of the operations are encodings. -/
theorem encodes_apply {f : Fmt} (hhost : IsHostFloat host) (hf : f ≠ .h) {a b : U64} (ha : f.Encodes a)
    (hb : f.Encodes b) (op : FloatOp) : f.Encodes (op.apply host f a b) := by
  have hquiet (r : U64) (hr : f.Encodes r) : f.Encodes (quietFirst f a b r) := by
    rw [quietFirst]
    split_ifs
    · exact AbsoluteDifference.encodes_quiet ha
    · exact AbsoluteDifference.encodes_quiet hb
    · exact hr
  have hmask (p : Bool) : f.Encodes (maskOf f p) := by cases f <;> cases p <;> decide
  cases op with
  | max => rw [FloatOp.apply]; split_ifs <;> assumption
  | min => rw [FloatOp.apply]; split_ifs <;> assumption
  | add => exact hquiet _ (AbsoluteDifference.encodes_host2 hf)
  | sub => exact hquiet _ (AbsoluteDifference.encodes_host2 hf)
  | mul => exact hquiet _ (AbsoluteDifference.encodes_host2 hf)
  | cmple => exact hmask _
  | cmpunord => exact hmask _
  | round mode =>
    rw [FloatOp.apply]
    cases hn : f.isNan b with
    | true => exact AbsoluteDifference.encodes_quiet hb
    | false =>
      rw [if_neg Bool.false_ne_true]
      cases hi : f.isInf b with
      | true => rwa [hhost.round_inf mode f b hf hi]
      | false =>
        obtain ⟨n, -, hround⟩ := hhost.round mode f b hf ⟨hb, hn, hi⟩
        exact hround.encodes

theorem lane_frintaBits (hhost : IsHostFloat host)
    (hk : (fmt double).bits * k + (fmt double).bits ≤ 128) :
    lane (fmt double).bits (frintaBits (onLanes host (fmt double)) double x) k =
      (roundAway host (fmt double) ((lane (fmt double).bits x k).setWidth 64)).setWidth
        (fmt double).bits := by
  have hf := fmt_ne_h double
  obtain ⟨hhalf, hone⟩ := lane_constants hk
  generalize hfmt : fmt double = f at *
  have hself : lane f.bits x k = ((lane f.bits x k).setWidth 64).setWidth f.bits := by
    rw [BitVec.setWidth_setWidth_of_le _ (bits_dvd f).2.2, BitVec.setWidth_eq]
  have henc : f.Encodes ((lane f.bits x k).setWidth 64) := encodes_lane _
  generalize (lane f.bits x k).setWidth 64 = a at hself henc ⊢
  have hones : lane f.bits (Packed.psrl f.bits (BitVec.allOnes 128) 1) k =
      BitVec.allOnes f.bits >>> 1 := by rw [Packed.psrl, Packed.lane_mapLanes _ hk, Packed.lane_allOnes hk]
  have hsigns : lane f.bits (Packed.psll f.bits (BitVec.allOnes 128) (f.bits - 1)) k =
      BitVec.allOnes f.bits <<< (f.bits - 1) := by
    rw [Packed.psll, Packed.lane_mapLanes _ hk, Packed.lane_allOnes hk]
  have habs : f.Encodes (f.abs a) := by
    have hle : f.low a ≤ a.toNat := Nat.mod_le _ _
    rw [Fmt.Encodes, toNat_abs]
    exact hle.trans_lt henc
  have hmag : lane f.bits (x &&& Packed.psrl f.bits (BitVec.allOnes 128) 1) k =
      (f.abs a).setWidth f.bits := by
    have hmask : (~~~f.signBit &&& mask f.bits).setWidth f.bits = BitVec.allOnes f.bits >>> 1 := by
      cases f <;> decide
    rw [lane_and, hones, hself, ← hmask, ← BitVec.setWidth_and, Fmt.abs, BitVec.and_assoc]
  have hsign : lane f.bits (Packed.psll f.bits (BitVec.allOnes 128) (f.bits - 1) &&& x) k =
      (a &&& f.signBit).setWidth f.bits := by
    have hmask : f.signBit.setWidth f.bits = BitVec.allOnes f.bits <<< (f.bits - 1) := by
      cases f <;> decide
    rw [lane_and, hsigns, hself, ← hmask, ← BitVec.setWidth_and, BitVec.and_comm]
  have hwhole := lane_onLanes host (.round .zero) hk habs habs hmag hmag
  have hwenc := encodes_apply hhost hf habs habs (.round .zero)
  have hrest := lane_onLanes host .sub hk habs hwenc hmag hwhole
  have hrenc := encodes_apply hhost hf habs hwenc .sub
  have hcmp := lane_onLanes host .cmple hk (half_spec f).1.encodes hrenc hhalf hrest
  have hcarry := congrArg₂ (· &&& ·) hcmp hone
  rw [← lane_and, ← BitVec.setWidth_and] at hcarry
  have hcenc : f.Encodes (carry host f a) := by
    rw [Fmt.Encodes, carry, BitVec.toNat_and]
    exact Nat.and_le_right.trans_lt (one_spec f).1.encodes
  have htotal := lane_onLanes host .add hk hwenc hcenc hwhole hcarry
  rw [roundAway, BitVec.setWidth_or, ← hsign, total, whole, ← htotal, ← lane_or, frintaBits, hfmt]

end registers

/-! ## The node -/

/-- The lane of the instruction helper, with FPCR zero. -/
def frintaLane (f : Fmt) (exact : Bool) (fpsr : U32) (x : BitVec f.bits) : Option (BitVec f.bits) :=
  (roundInt f (x.setWidth 64) .tieAway exact ⟨0, fpsr⟩).map fun r => r.1.setWidth f.bits

section nodes

variable {host : HostFloat} {locs : Nat → Loc} {a : Armlet} {d : Nat} {pa pd : Place}

theorem exists_emitOpVecFrinta (ha : VectorAt (locs (a.args.get 0)) pa) (hd : VectorAt (locs d) pd) :
    ∃ code, emitOpVecFrinta locs a d = some code ∧ ∀ m, runFloat host code m pd =
      form a (frintaBits (onLanes host (fmt (vecFpIsDouble a.op))) (vecFpIsDouble a.op) (m pa)) := by
  obtain ⟨load, hload, hrun⟩ := exists_intoXmmQ ha.place (workingXmmFor (locs d) 0)
  obtain ⟨store, hstore, hfinish⟩ := exists_finish (a := a) hd (workingXmmFor (locs d) 0)
  refine ⟨load.map .base ++ frintaCode (vecFpIsDouble a.op) (workingXmmFor (locs d) 0) ++
    (narrowForm a (workingXmmFor (locs d) 0) ++ store).map .base, ?_, fun m => ?_⟩
  · rw [emitOpVecFrinta, hload, hstore]
    rfl
  · rw [runFloat_append, runFloat_append, runFloat_base, runFloat_base, hfinish,
      run_frintaCode hd.working.2, hrun, if_pos rfl]

/-- The result by its active lanes. -/
theorem form_frintaBits (hhost : IsHostFloat host) {double : Bool} {x : U128} :
    form a (frintaBits (onLanes host (fmt double)) double x) =
      ofLanes 128 (fmt double).bits (upTo (activeLanes (fmt double).bits (qForm a) false) fun k =>
        (roundAway host (fmt double) ((lane (fmt double).bits x k).setWidth 64)).setWidth _) := by
  obtain ⟨hpos, hdvd, -⟩ := bits_dvd (fmt double)
  exact halfForm_row hpos hdvd fun k hk => lane_frintaBits hhost (activeLanes_le hpos hdvd hk)

end nodes

end VectorCode

open VectorCode Interp Lanes AbsoluteCompare

/-! ## In a block -/

/-- The code for the node `i` leaves the rounded lanes of its operand in its place. -/
def FrintaExact (host : HostFloat) (locs : Nat → Loc) (b : Block) (i : Nat) : Prop :=
  let f := fmt (vecFpIsDouble (b.get i).op)
  let active := activeLanes f.bits (qForm (b.get i)) false
  ∃ code pa p, emitOpVecFrinta locs (b.get i) i = some code ∧
    placeOf (locs ((b.get i).args.get 0)) = some pa ∧ placeOf (locs i) = some p ∧
    ∀ m exact fpsr, ∃ g : Nat → BitVec f.bits,
      (∀ k < active, frintaLane f exact fpsr (lane f.bits (m pa) k) = some (g k)) ∧
      runFloat host code m p = ofLanes 128 f.bits (upTo active g)

/-- **The inline FRINTA is that of the instruction helper**: on every lane, with an exact
subtraction and an exact addition, and in every block, wherever linear scan puts the operand; the
inactive upper half is zero. -/
theorem frinta_exact (host : HostFloat) (hhost : IsHostFloat host) (features : HostFeatures) {b : Block}
    {live : List ValueRef} (hwalk : b.Walk b.head live) (htail : b.tail = live.getLastD linkNone)
    (hssa : b.Ssa live) (hsize : b.code.size < Block.maxNodes) (terminalUses : List ValueRef) :
    (∀ (double exact : Bool) (fpsr : U32) (a : U64), let f := fmt double
      f.Encodes a →
        (∃ st, roundInt f a .tieAway exact ⟨0, fpsr⟩ = some (roundAway host f a, st)) ∧
        (f.Finite a →
          f.Finite (rest host f a) ∧
          f.value (rest host f a) = f.value (f.abs a) - f.value (whole host f a) ∧
          f.Finite (total host f a) ∧
          f.value (total host f a) = f.value (whole host f a) + f.value (carry host f a))) ∧
    ∀ i ∈ live, IsVector b i → VectorArgs b i [0] →
      ((b.get i).op = .vecFRintA_S ∨ (b.get i).op = .vecFRintA_D) →
      FrintaExact host (locsOf features b terminalUses) b i := by
  refine ⟨fun double exact fpsr a ha => ⟨roundAway_eq hhost (fmt_ne_h double) ha exact fpsr, fun hfin =>
    rest_total_exact hhost (fmt_ne_h double) hfin⟩, fun i hi hv hargs _ => ?_⟩
  obtain ⟨p, hp⟩ := @vectorAt_linearScan features b live terminalUses hwalk htail hsize i hi hv
  obtain ⟨pa, ha, -⟩ := @exists_operand features b live terminalUses i hwalk htail hssa hsize hi hv _
    hargs 0 (by decide)
  obtain ⟨code, hcode, hrun⟩ := @exists_emitOpVecFrinta host _ _ i _ _ ha hp
  refine ⟨code, pa, p, hcode, ha.place, hp.place, fun m exact fpsr =>
    ⟨fun k => (roundAway host (fmt (vecFpIsDouble (b.get i).op))
      ((lane (fmt (vecFpIsDouble (b.get i).op)).bits (m pa) k).setWidth 64)).setWidth _, fun k _ => ?_,
      by rw [hrun, form_frintaBits hhost]⟩⟩
  · obtain ⟨st, hst⟩ := roundAway_eq hhost (fmt_ne_h (vecFpIsDouble (b.get i).op))
      (encodes_lane (lane (fmt (vecFpIsDouble (b.get i).op)).bits (m pa) k)) exact fpsr
    rw [frintaLane, hst]
    rfl

/-- `V2 := frinta V0`, in lanes of singles. -/
def frintaOnly : Block := (Block.new 0x1000).pushAll
  [(Armlet.new .getV .u128).withImm 0, ((Armlet.new .vecFRintA_S .u128).withArgs [1]).withImm 1,
    ((Armlet.new .setV .void).withArgs [2]).withImm 2]

theorem frinta_exact_only :
    FrintaExact exactHost (locsOf ⟨true, true⟩ frintaOnly []) frintaOnly 2 := by
  have hlinked : frintaOnly.Linked [1, 2, 3] := (Block.Linked.new 0x1000).pushAll (by decide) _
  exact (frinta_exact exactHost isHostFloat_exactHost ⟨true, true⟩ hlinked.walk (by decide) (by decide)
    (by decide) []).2 2 (by decide) (by decide) (by decide) (by decide)

end Rustarmic
