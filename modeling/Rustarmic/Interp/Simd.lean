import Mathlib.Data.Rat.Floor
import Mathlib.Tactic.Ring
import Rustarmic.Interp.Fp
import Rustarmic.Lib.Checked
import Rustarmic.Lib.Lanes

/-!
# Elements of a vector, saturation and register shifts

Elements are 64-bit words, their values `i128` integers.  Every `i128` operation is a checked one,
so that a function that has a value overflows nowhere.

* `get`, `set` — one element of a vector.
* `sat` — the nearest value an element can hold, with QC when it is another one.
* `shlReg` — the shift by a signed amount of SSHL and its relatives, rounding and saturating.
* `sat_eq`, `shlReg_exact` — what they compute, on unbounded integers and rationals.
-/

set_option autoImplicit false

namespace Rustarmic
namespace Interp

open Checked

/-! ## Elements -/

def emask (esize : Nat) : U64 := mask esize

/-- Element `i` of `v`. -/
def get (v : U128) (i esize : Nat) : U64 := (v >>> (i * esize)).setWidth 64 &&& emask esize

/-- `v` with element `i` replaced. -/
def set (v : U128) (i esize : Nat) (x : U64) : U128 :=
  let m := (emask esize).setWidth 128 <<< (i * esize)
  (v &&& ~~~m) ||| ((x &&& emask esize).setWidth 128 <<< (i * esize))

/-- The signed value of the low `esize` bits. -/
def sx (x : U64) (esize : Nat) : Int := ((x <<< (64 - esize)).sshiftRight (64 - esize)).toInt

/-- The unsigned value of the low `esize` bits. -/
def zx (x : U64) (esize : Nat) : Int := (x &&& emask esize).toNat

def ext (x : U64) (esize : Nat) (unsigned : Bool) : Int :=
  if unsigned then zx x esize else sx x esize

/-- `v as u64 & emask(esize)`. -/
def low (v : Int) (esize : Nat) : U64 := BitVec.ofInt 64 v &&& emask esize

/-- The bounds of an element, as `sat` computes them. -/
def satBounds (esize : Nat) (unsigned : Bool) : Option (Int × Int) :=
  if unsigned then
    (i128 ((1 : Int) <<< esize)).bind fun p => (i128 (p - 1)).map fun hi => (0, hi)
  else
    (i128 ((1 : Int) <<< (esize - 1))).bind fun p =>
      (i128 (-p)).bind fun lo => (i128 (p - 1)).map fun hi => (lo, hi)

/-- Clamp `v` to an element, with QC when that changes it. -/
def sat (v : Int) (esize : Nat) (unsigned : Bool) (st : St) : Option (U64 × St) :=
  (satBounds esize unsigned).map fun (lo, hi) =>
    if hi < v then (low hi esize, st.sat)
    else if v < lo then (low lo esize, st.sat)
    else (low v esize, st)

/-- Shift by the signed low byte of `b`. -/
def shlReg (a b : U64) (esize : Nat) (unsigned round saturate : Bool) (st : St) :
    Option (U64 × St) :=
  let shift := (b.setWidth 8).toInt
  let x := ext a esize unsigned
  if 0 ≤ shift then
    let s := shift.toNat
    if saturate then
      if x = 0 then some (0#64, st)
      else if esize ≤ s then
        sat (if x < 0 then -2 ^ 127 else 2 ^ 127 - 1) esize unsigned st
      else (i128 (x <<< s)).bind fun v => sat v esize unsigned st
    else if esize ≤ s then some (0#64, st)
    else (i128 (x <<< s)).map fun v => (low v esize, st)
  else
    let s := min (-shift).toNat (esize + 1)
    let r : Option Int :=
      if round then
        (i128 ((1 : Int) <<< (s - 1))).bind fun half => (i128 (x + half)).map fun (y : Int) => y >>> s
      else some (x >>> s)
    r.bind fun r => if saturate then sat r esize unsigned st else some (low r esize, st)

/-! ## Values -/

/-- The least value of an element. -/
def elementMin (esize : Nat) (unsigned : Bool) : Int := if unsigned then 0 else -2 ^ (esize - 1)

/-- The greatest value of an element. -/
def elementMax (esize : Nat) (unsigned : Bool) : Int :=
  if unsigned then 2 ^ esize - 1 else 2 ^ (esize - 1) - 1

/-- The nearest value an element can hold. -/
def clampTo (esize : Nat) (unsigned : Bool) (v : Int) : Int :=
  max (elementMin esize unsigned) (min (elementMax esize unsigned) v)

/-- The value of an element. -/
def value (x : U64) (esize : Nat) (unsigned : Bool) : Int :=
  if unsigned then (x.setWidth esize).toNat else (x.setWidth esize).toInt

variable {esize : Nat} {unsigned : Bool}

theorem ext_eq (h : esize ≤ 64) (x : U64) : ext x esize unsigned = value x esize unsigned := by
  cases unsigned with
  | true =>
    rw [ext, value, if_pos rfl, if_pos rfl, zx, emask, toNat_and_mask h, BitVec.toNat_setWidth]
  | false =>
    rw [ext, value, if_neg Bool.false_ne_true, if_neg Bool.false_ne_true, sx,
      Lanes.shiftLeft_sshiftRight h, BitVec.toInt_signExtend_of_le h]

theorem value_mem (x : U64) :
    elementMin esize unsigned ≤ value x esize unsigned ∧
      value x esize unsigned ≤ elementMax esize unsigned := by
  cases unsigned with
  | true =>
    have hlt := (x.setWidth esize).isLt
    simp only [elementMin, elementMax, value, if_true]
    zify at hlt
    omega
  | false =>
    have hlo := @BitVec.le_toInt esize (x.setWidth esize)
    have hhi := @BitVec.toInt_lt esize (x.setWidth esize)
    simp only [elementMin, elementMax, value, Bool.false_eq_true, if_false]
    omega

/-- The low bits of an integer. -/
theorem low_eq (h : esize ≤ 64) (v : Int) : low v esize = (BitVec.ofInt esize v).setWidth 64 := by
  rw [low, emask]
  rcases Nat.lt_or_eq_of_le h with hlt | rfl
  · rw [mask, if_neg (by omega), Lanes.and_lowMask hlt, Lanes.setWidth_ofInt h]
  · rw [mask, if_pos le_rfl, BitVec.and_allOnes, BitVec.setWidth_eq]

/-! ## Saturation -/

theorem satBounds_eq (hpos : 0 < esize) (h : esize ≤ 64) :
    satBounds esize unsigned = some (elementMin esize unsigned, elementMax esize unsigned) := by
  have hle : (2 : Int) ^ esize ≤ 2 ^ 64 := by
    exact_mod_cast Nat.pow_le_pow_right (by decide : 0 < 2) h
  have hsplit : (2 : Int) ^ esize = 2 * 2 ^ (esize - 1) := by
    rw [← pow_succ', Nat.sub_add_cancel hpos]
  have hone : (1 : Int) ≤ 2 ^ (esize - 1) := one_le_pow₀ (by decide)
  norm_num at hle
  cases unsigned with
  | true =>
    rw [satBounds, if_pos rfl, Int.shiftLeft_eq, one_mul, i128_eq_some (by omega) (by omega),
      Option.bind_some, i128_eq_some (by omega) (by omega)]
    rfl
  | false =>
    rw [satBounds, if_neg Bool.false_ne_true, Int.shiftLeft_eq, one_mul,
      i128_eq_some (by omega) (by omega), Option.bind_some, i128_eq_some (by omega) (by omega),
      Option.bind_some, i128_eq_some (by omega) (by omega)]
    rfl

theorem elementMin_le_max (esize : Nat) (unsigned : Bool) :
    elementMin esize unsigned ≤ elementMax esize unsigned := by
  have hone : (1 : Int) ≤ 2 ^ (esize - 1) := one_le_pow₀ (by decide)
  have hone' : (1 : Int) ≤ 2 ^ esize := one_le_pow₀ (by decide)
  cases unsigned <;> simp only [elementMin, elementMax, if_true, Bool.false_eq_true, if_false] <;>
    omega

/-- **Saturation clamps**, and sets QC when that changes the value. -/
theorem sat_eq (hpos : 0 < esize) (h : esize ≤ 64) (v : Int) (st : St) :
    sat v esize unsigned st = some ((BitVec.ofInt esize (clampTo esize unsigned v)).setWidth 64,
      if clampTo esize unsigned v = v then st else st.sat) := by
  have hle := elementMin_le_max esize unsigned
  rw [sat, satBounds_eq hpos h, Option.map_some, Option.some.injEq]
  dsimp only
  simp only [low_eq h]
  rw [clampTo]
  by_cases hhi : elementMax esize unsigned < v
  · rw [if_pos hhi, min_eq_left (by omega), max_eq_right hle, if_neg (by omega)]
  · rw [if_neg hhi, min_eq_right (by omega)]
    by_cases hlo : v < elementMin esize unsigned
    · rw [if_pos hlo, max_eq_left (by omega), if_neg (by omega)]
    · rw [if_neg hlo, max_eq_right (by omega), if_pos rfl]

/-! ## Register shifts -/

/-- The shift of `x` by `s`, rounded when it goes to the right. -/
def shlExact (x s : Int) (round : Bool) : Int :=
  ⌊(x : ℚ) * 2 ^ s + if round ∧ s < 0 then 1 / 2 else 0⌋

theorem shlExact_left (x : Int) (s : Nat) (round : Bool) : shlExact x s round = x * 2 ^ s := by
  rw [shlExact, if_neg (by omega), add_zero, zpow_natCast]
  exact_mod_cast Int.floor_intCast (x * 2 ^ s)

theorem shlExact_right (x : Int) {s : Nat} (hs : 0 < s) (round : Bool) :
    shlExact x (-s) round = (x + if round then 2 ^ (s - 1) else 0) / 2 ^ s := by
  have hpow : (2 : ℚ) ^ s = 2 * 2 ^ (s - 1) := by rw [← pow_succ', Nat.sub_add_cancel hs]
  have hne : (2 : ℚ) ^ (s - 1) ≠ 0 := by positivity
  have hq : (x : ℚ) * 2 ^ (-(s : Int)) + (if round = true ∧ -(s : Int) < 0 then 1 / 2 else 0) =
      ((x + if round then 2 ^ (s - 1) else 0 : Int) : ℚ) / ((2 ^ s : Nat) : ℚ) := by
    rw [zpow_neg, zpow_natCast]
    cases round with
    | true =>
      rw [if_pos ⟨rfl, by omega⟩, if_pos rfl]
      push_cast
      rw [hpow]
      field_simp
    | false =>
      rw [if_neg (by simp), if_neg Bool.false_ne_true, add_zero, add_zero]
      push_cast
      rw [div_eq_mul_inv]
  rw [shlExact, hq, Rat.floor_intCast_div_natCast]
  push_cast
  rfl

/-- Past the width of an element a right shift keeps nothing but the sign, and with rounding not
even that. -/
theorem shiftRight_beyond {x : Int} {k : Nat} (hk : esize + 1 ≤ k) (hlo : -2 ^ esize ≤ x)
    (hhi : x < 2 ^ esize) (round : Bool) :
    (x + if round then 2 ^ (k - 1) else 0) / 2 ^ k = if round then 0 else if x < 0 then -1 else 0 := by
  have hsplit : (2 : Int) ^ k = 2 * 2 ^ (k - 1) := by rw [← pow_succ', Nat.sub_add_cancel (by omega)]
  have hle : (2 : Int) ^ esize ≤ 2 ^ (k - 1) := pow_le_pow_right₀ (by decide) (by omega)
  have hpos : (0 : Int) < 2 ^ k := by positivity
  cases round with
  | true =>
    rw [if_pos rfl, if_pos rfl]
    exact Int.ediv_eq_zero_of_lt (by omega) (by omega)
  | false =>
    rw [if_neg Bool.false_ne_true, if_neg Bool.false_ne_true, add_zero]
    split_ifs with hneg
    · rw [Int.ediv_eq_iff_of_pos hpos]
      omega
    · exact Int.ediv_eq_zero_of_lt (by omega) (by omega)

/-- What the shift leaves in the element, and whether it saturates. -/
def shlResult (esize : Nat) (unsigned saturate : Bool) (v : Int) (st : St) : U64 × St :=
  if saturate then
    ((BitVec.ofInt esize (clampTo esize unsigned v)).setWidth 64,
      if clampTo esize unsigned v = v then st else st.sat)
  else ((BitVec.ofInt esize v).setWidth 64, st)

/-- A left shift past the width saturates to the bound on its side. -/
theorem clampTo_beyond (hpos : 0 < esize) {x : Int} {s : Nat} (hs : esize ≤ s) (hx : x ≠ 0)
    (hlo : elementMin esize unsigned ≤ x) :
    clampTo esize unsigned (x * 2 ^ s) =
        (if x < 0 then elementMin esize unsigned else elementMax esize unsigned) ∧
      clampTo esize unsigned (x * 2 ^ s) ≠ x * 2 ^ s := by
  have hle : (2 : Int) ^ esize ≤ 2 ^ s := pow_le_pow_right₀ (by decide) hs
  have hsplit : (2 : Int) ^ esize = 2 * 2 ^ (esize - 1) := by
    rw [← pow_succ', Nat.sub_add_cancel hpos]
  have hone : (1 : Int) ≤ 2 ^ (esize - 1) := one_le_pow₀ (by decide)
  have hmm := elementMin_le_max esize unsigned
  have hmin : x < 0 → elementMin esize unsigned = -2 ^ (esize - 1) := by
    intro hneg
    cases unsigned with
    | false => rw [elementMin, if_neg Bool.false_ne_true]
    | true =>
      rw [elementMin, if_pos rfl] at hlo
      omega
  have hmax : elementMax esize unsigned < 2 ^ esize := by
    cases unsigned <;> simp only [elementMax, if_true, Bool.false_eq_true, if_false] <;> omega
  rw [clampTo]
  split_ifs with hneg
  · have hneg' : x ≤ -1 := by omega
    have hprod : x * 2 ^ s ≤ -1 * 2 ^ s := mul_le_mul_of_nonneg_right hneg' (by positivity)
    have hmin' := hmin hneg
    rw [min_eq_right (by omega), max_eq_left (by omega)]
    exact ⟨rfl, by omega⟩
  · have hx' : 1 ≤ x := by omega
    have hprod : 1 * 2 ^ s ≤ x * 2 ^ s := mul_le_mul_of_nonneg_right hx' (by positivity)
    rw [min_eq_left (by omega), max_eq_right hmm]
    exact ⟨rfl, by omega⟩

/-- The bounds of an element clamp whatever lies past them to themselves. -/
theorem clampTo_of_extreme (h : esize ≤ 64) :
    clampTo esize unsigned (-2 ^ 127) = elementMin esize unsigned ∧
      clampTo esize unsigned (2 ^ 127 - 1) = elementMax esize unsigned ∧
      -2 ^ 127 < elementMin esize unsigned ∧ elementMax esize unsigned < 2 ^ 127 - 1 := by
  have hle : (2 : Int) ^ esize ≤ 2 ^ 64 := pow_le_pow_right₀ (by decide) h
  have hle' : (2 : Int) ^ (esize - 1) ≤ 2 ^ 64 := pow_le_pow_right₀ (by decide) (by omega)
  have hmm := elementMin_le_max esize unsigned
  have hmin : -2 ^ 64 ≤ elementMin esize unsigned := by
    cases unsigned <;> simp only [elementMin, if_true, Bool.false_eq_true, if_false] <;> omega
  have hmax : elementMax esize unsigned < 2 ^ 64 := by
    cases unsigned <;> simp only [elementMax, if_true, Bool.false_eq_true, if_false] <;> omega
  rw [clampTo, clampTo]
  exact ⟨by omega, by omega, by omega, by omega⟩

theorem shiftLeft_fits (h : esize ≤ 64) {s : Nat} (hs : s < esize) {x : Int}
    (hlo : elementMin esize unsigned ≤ x) (hhi : x ≤ elementMax esize unsigned) :
    i128 (x <<< s) = some (x * 2 ^ s) := by
  have hle : (2 : Int) ^ esize ≤ 2 ^ 64 := pow_le_pow_right₀ (by decide) h
  have hle' : (2 : Int) ^ (esize - 1) ≤ 2 ^ 63 := pow_le_pow_right₀ (by decide) (by omega)
  have hs' : (2 : Int) ^ s ≤ 2 ^ 63 := pow_le_pow_right₀ (by decide) (by omega)
  have hmin : -2 ^ 63 ≤ x := by
    refine le_trans ?_ hlo
    cases unsigned <;> simp only [elementMin, if_true, Bool.false_eq_true, if_false] <;> omega
  have hmax : x ≤ 2 ^ 64 - 1 := by
    refine hhi.trans ?_
    cases unsigned <;> simp only [elementMax, if_true, Bool.false_eq_true, if_false] <;> omega
  have hpos : (0 : Int) < 2 ^ s := by positivity
  rw [Int.shiftLeft_eq]
  norm_num at hs' hmin hmax
  exact i128_eq_some (by nlinarith) (by nlinarith)

theorem shlReg_left (hpos : 0 < esize) (h : esize ≤ 64) {a b : U64} {s : Nat}
    (hs : (b.setWidth 8).toInt = s) (round saturate : Bool) (st : St) :
    shlReg a b esize unsigned round saturate st =
      some (shlResult esize unsigned saturate (value a esize unsigned * 2 ^ s) st) := by
  obtain ⟨hlo, hhi⟩ := @value_mem esize unsigned a
  have hfits (hlt : s < esize) := shiftLeft_fits h hlt hlo hhi
  rw [shlReg]
  dsimp only
  rw [hs, if_pos (by omega), ext_eq h, Int.toNat_natCast]
  cases saturate with
  | true =>
    rw [if_pos rfl, shlResult, if_pos rfl]
    by_cases hx : value a esize unsigned = 0
    · have hzero : clampTo esize unsigned 0 = 0 := by
        rw [clampTo]
        omega
      rw [if_pos hx, hx, zero_mul, hzero, if_pos rfl]
      simp
    rw [if_neg hx]
    by_cases hbeyond : esize ≤ s
    · obtain ⟨hclamp, hne⟩ := clampTo_beyond hpos hbeyond hx hlo
      obtain ⟨hmin, hmax, hlt, hgt⟩ := @clampTo_of_extreme esize unsigned h
      rw [if_pos hbeyond, if_neg hne, hclamp, sat_eq hpos h]
      by_cases hneg : value a esize unsigned < 0
      · rw [if_pos hneg, if_pos hneg, hmin, if_neg (by omega)]
      · rw [if_neg hneg, if_neg hneg, hmax, if_neg (by omega)]
    · rw [if_neg hbeyond, hfits (by omega), Option.bind_some, sat_eq hpos h]
  | false =>
    rw [if_neg Bool.false_ne_true, shlResult, if_neg Bool.false_ne_true]
    split_ifs with hbeyond
    · -- All bits are shifted out.
      have hdvd : ((2 ^ esize : Nat) : Int) ∣ value a esize unsigned * 2 ^ s := by
        push_cast
        exact Dvd.dvd.mul_left (pow_dvd_pow 2 hbeyond) _
      have hzero : BitVec.ofInt esize (value a esize unsigned * 2 ^ s) = BitVec.ofNat esize 0 := by
        refine BitVec.eq_of_toNat_eq ?_
        rw [BitVec.toNat_ofInt, Int.emod_eq_zero_of_dvd hdvd]
        simp
      rw [hzero]
      simp
    · rw [hfits (by omega), Option.map_some, low_eq h]

theorem shlReg_right (hpos : 0 < esize) (h : esize ≤ 64) {a b : U64} {k : Nat} (hk : 0 < k)
    (hs : (b.setWidth 8).toInt = -k) (round saturate : Bool) (st : St) :
    shlReg a b esize unsigned round saturate st =
      some (shlResult esize unsigned saturate
        ((value a esize unsigned + if round then 2 ^ (k - 1) else 0) / 2 ^ k) st) := by
  obtain ⟨hlo, hhi⟩ := @value_mem esize unsigned a
  have hsplit : (2 : Int) ^ esize = 2 * 2 ^ (esize - 1) := by
    rw [← pow_succ', Nat.sub_add_cancel hpos]
  have hle : (2 : Int) ^ esize ≤ 2 ^ 64 := pow_le_pow_right₀ (by decide) h
  have hone : (1 : Int) ≤ 2 ^ (esize - 1) := one_le_pow₀ (by decide)
  have hmin : -2 ^ esize ≤ elementMin esize unsigned := by
    cases unsigned <;> simp only [elementMin, if_true, Bool.false_eq_true, if_false] <;> omega
  have hmax : elementMax esize unsigned < 2 ^ esize := by
    cases unsigned <;> simp only [elementMax, if_true, Bool.false_eq_true, if_false] <;> omega
  -- The amount is cut to one more than the width.
  have hcut : (value a esize unsigned + if round then 2 ^ (min k (esize + 1) - 1) else 0) /
      2 ^ min k (esize + 1) =
      (value a esize unsigned + if round then 2 ^ (k - 1) else 0) / 2 ^ k := by
    rcases Nat.le_total k (esize + 1) with hk' | hk'
    · rw [Nat.min_eq_left hk']
    · rw [Nat.min_eq_right hk', shiftRight_beyond le_rfl (by omega) (by omega),
        shiftRight_beyond hk' (by omega) (by omega)]
  rw [shlReg]
  dsimp only
  rw [hs, if_neg (by omega), ext_eq h, neg_neg, Int.toNat_natCast, ← hcut]
  have hhalf : (2 : Int) ^ (min k (esize + 1) - 1) ≤ 2 ^ 64 :=
    pow_le_pow_right₀ (by decide) (by omega)
  have hhalf' : (0 : Int) < 2 ^ (min k (esize + 1) - 1) := by positivity
  norm_num at hle hhalf
  have hr : (if round then
        (i128 ((1 : Int) <<< (min k (esize + 1) - 1))).bind fun half =>
          (i128 (value a esize unsigned + half)).map fun (y : Int) => y >>> min k (esize + 1)
      else some (value a esize unsigned >>> min k (esize + 1))) =
      some ((value a esize unsigned + if round then 2 ^ (min k (esize + 1) - 1) else 0) /
        2 ^ min k (esize + 1)) := by
    cases round with
    | true =>
      rw [if_pos rfl, if_pos rfl, Int.shiftLeft_eq, one_mul, i128_eq_some (by omega) (by omega),
        Option.bind_some, i128_eq_some (by omega) (by omega), Option.map_some,
        Int.shiftRight_eq_div_pow]
      push_cast
      rfl
    | false =>
      rw [if_neg Bool.false_ne_true, if_neg Bool.false_ne_true, add_zero,
        Int.shiftRight_eq_div_pow]
      push_cast
      rfl
  rw [hr, Option.bind_some]
  cases saturate with
  | true => rw [if_pos rfl, sat_eq hpos h, shlResult, if_pos rfl]
  | false => rw [if_neg Bool.false_ne_true, low_eq h, shlResult, if_neg Bool.false_ne_true]

/-- **Register shifts are exact.** -/
theorem shlReg_exact (a b : U64) (hesize : esize ∈ [8, 16, 32, 64])
    (unsigned round saturate : Bool) (st : St) :
    shlReg a b esize unsigned round saturate st =
      some (shlResult esize unsigned saturate
        (shlExact (value a esize unsigned) (b.setWidth 8).toInt round) st) := by
  have hpos : 0 < esize := by
    simp only [List.mem_cons, List.not_mem_nil, or_false] at hesize
    omega
  have hle : esize ≤ 64 := by
    simp only [List.mem_cons, List.not_mem_nil, or_false] at hesize
    omega
  rcases Int.eq_nat_or_neg (b.setWidth 8).toInt with ⟨s, hs | hs⟩
  · rw [shlReg_left hpos hle hs, hs, shlExact_left]
  · rcases Nat.eq_zero_or_pos s with rfl | hs'
    · rw [shlReg_left hpos hle (by rw [hs]; rfl : (b.setWidth 8).toInt = (0 : Nat)), hs]
      exact congrArg (fun v => some (shlResult esize unsigned saturate v st))
        (shlExact_left _ 0 round).symm
    · rw [shlReg_right hpos hle hs' hs, hs, shlExact_right _ hs']

/-- Rounding the signed byte -128 to the right by 128, past the width of any element. -/
theorem shlReg_exact_far :
    shlReg 0x80 0x80 8 false true true ⟨0, 0⟩ =
      some (shlResult 8 false true (shlExact (value 0x80 8 false) (-128) true) ⟨0, 0⟩) :=
  shlReg_exact 0x80 0x80 (by decide) false true true ⟨0, 0⟩

end Interp
end Rustarmic
