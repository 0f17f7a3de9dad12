import Rustarmic.Interp.Reciprocal
import Rustarmic.Backend.AbsoluteOps
import Rustarmic.Lib.Rounding

/-!
# Reciprocal estimates of the generated code

The out-of-line estimates, from tables and with explicit exponents, against the instruction helpers.

* `Format` — the two formats; `input` flushes, `processNan` as its namesake.
* `estimate`, `reciprocalEstimate` — the reciprocal square root and the reciprocal.
* `Normalized` — a magnitude with its leading bit in place, the notion in which both sides are
  stated.
* `reciprocal_agree` — both estimates agree with the helpers, in both formats, for every operand and
  every state.

An estimate is not a rounding: the architecture prescribes eight bits of it, and so both sides have
to come to the same ones by the same rule.  The source has that rule twice.  The helpers compute the
entry in a loop each time; the generated code reads it from a table made at compile time, keeps the
significand below the leading bit of the *format* where the helpers use that of a double, and counts
exponents from another zero.

* **Loops** normalize a subnormal, and search for the root of an entry.  Both are `while` loops of
  the source, which run here with fuel; `normalize_eq` and `root_ends` are the statements that a
  fixed amount is enough for every operand, and the agreement is one of results, not of running out.
* **Tables** are compared entry by entry, as numbers, without evaluating them: the entry is a
  function of the index, and both sides reduce to it.
* **What is no number** comes first: flushed denormals, NaNs, infinities and zeros, and a reciprocal
  that overflows, where the rounding mode decides between infinity and the greatest number.
-/

set_option autoImplicit false

namespace Rustarmic
namespace Reciprocal

open Interp hiding processNan

/-! ## The helpers -/

def ioc : U32 := 1#32
def dzc : U32 := 2#32
def ofc : U32 := 1#32 <<< 2
def ufc : U32 := 1#32 <<< 3
def ixc : U32 := 1#32 <<< 4
def idc : U32 := 1#32 <<< 7

/-- An entry of the reciprocal square root table; the entries below 128 stay zero. -/
def estimateTable (fuel i : Nat) : Option U8 :=
  if i < 128 then some 0#8
  else if i < 512 then
    let a := if i < 256 then 2 * i + 1 else 2 * (i ||| 1)
    let b := WhileLoop.run (fun b => decide (a * (b + 1) * (b + 1) < 1 <<< 28)) (fun b => b + 1) fuel 512
    b.map fun b => BitVec.ofNat 8 ((b + 1) / 2)
  else none

/-- An entry of the reciprocal table. -/
def reciprocalTable (i : Nat) : Option U8 :=
  if i < 256 then
    let midpoint := 2 * (i + 256) + 1
    some (BitVec.ofNat 8 (((1 <<< 19) / midpoint + 1) / 2))
  else none

structure Format where
  fraction : Nat
  bias : Int
  infinity : U64
  sign : U64

namespace Format

def s : Format := ⟨23, 127, 0x7f800000#64, 1#64 <<< 31⟩

def d : Format := ⟨52, 1023, 0x7ff0000000000000#64, 1#64 <<< 63⟩

variable (f : Format) (value : U64)

def fractionMask : U64 := (1#64 <<< f.fraction) - 1#64

def quiet : U64 := 1#64 <<< (f.fraction - 1)

def defaultNan : U64 := f.infinity ||| f.quiet

def nan : Bool := f.infinity < value &&& ~~~f.sign

def signaling : Bool := f.nan value && value &&& f.quiet == 0#64

end Format

/-- Flush a denormal operand under FPCR.FZ. -/
def input (ctx : St) (bits : U64) (f : Format) : U64 × St :=
  if ctx.fpcr &&& (1#32 <<< 24) ≠ 0#32 ∧ bits &&& ~~~f.sign ≠ 0#64 ∧
      bits &&& ~~~f.sign < 1#64 <<< f.fraction then
    (bits &&& f.sign, ctx.raise idc)
  else (bits, ctx)

def processNan (ctx : St) (bits : U64) (f : Format) : U64 × St :=
  let ctx := if f.signaling bits then ctx.raise ioc else ctx
  (if ctx.fpcr &&& (1#32 <<< 25) ≠ 0#32 then f.defaultNan else bits ||| f.quiet, ctx)

/-- The loop that shifts the leading bit of a subnormal into place. -/
def normalize (fuel : Nat) (f : Format) (significand : U64) (exponent : Int) :
    Option (U64 × Int) :=
  WhileLoop.run (fun s => s.1 &&& (1#64 <<< f.fraction) == 0#64) (fun s => (s.1 <<< 1, s.2 - 1)) fuel
    (significand, exponent)

/-- The significand with its leading bit, and the exponent. -/
def unpacked (fuel : Nat) (f : Format) (exponentField : Int) (fraction : U64) :
    Option (U64 × Int) :=
  if exponentField = 0 then normalize fuel f fraction (1 - f.bias)
  else some (fraction ||| (1#64 <<< f.fraction), exponentField - f.bias)

/-- The last part of `estimate`, for a positive number. -/
def estimateNormal (fuel : Nat) (bits : U64) (f : Format) : Option U64 := do
  let (significand, exponent) ←
    unpacked fuel f (bits >>> f.fraction).toNat (bits &&& f.fractionMask)
  let scaled := significand >>> (f.fraction - if exponent % 2 = 0 then 7 else 8)
  let resultExponent := ((-(exponent + 1)) >>> (1 : Nat)) + f.bias
  let entry ← estimateTable fuel scaled.toNat
  some ((BitVec.ofInt 64 resultExponent <<< f.fraction) |||
    (entry.setWidth 64 <<< (f.fraction - 8)))

/-- The reciprocal square root estimate. -/
def estimate (fuel : Nat) (ctx : St) (bits : U64) (f : Format) : Option (U64 × St) :=
  let (bits, ctx) := input ctx bits f
  let magnitude := bits &&& ~~~f.sign
  if f.nan bits then some (processNan ctx bits f)
  else if magnitude = 0#64 then some (f.infinity ||| (bits &&& f.sign), ctx.raise dzc)
  else if bits &&& f.sign ≠ 0#64 then some (f.defaultNan, ctx.raise ioc)
  else if magnitude = f.infinity then some (0#64, ctx)
  else (estimateNormal fuel bits f).map fun r => (r, ctx)

/-- The last part of `reciprocalEstimate`, for a number whose reciprocal is in range. -/
def reciprocalNormal (f : Format) (sign significand : U64) (exponent : Int) : Option U64 := do
  let scaled := significand >>> (f.fraction - 8)
  let entry ← reciprocalTable (scaled - 256#64).toNat
  let fraction := entry.setWidth 64 <<< (f.fraction - 8)
  let resultExponent := -(exponent + 1) + f.bias
  let (fraction, resultExponent) :=
    if resultExponent ≤ 0 then
      ((fraction ||| (1#64 <<< f.fraction)) >>> (1 - resultExponent).toNat, 0)
    else (fraction, resultExponent)
  some (sign ||| (BitVec.ofInt 64 resultExponent <<< f.fraction) ||| fraction)

/-- The reciprocal estimate. -/
def reciprocalEstimate (fuel : Nat) (ctx : St) (bits : U64) (f : Format) : Option (U64 × St) :=
  let (bits, ctx) := input ctx bits f
  let sign := bits &&& f.sign
  let magnitude := bits &&& ~~~f.sign
  if f.nan bits then some (processNan ctx bits f)
  else if magnitude = f.infinity then some (sign, ctx)
  else if magnitude = 0#64 then some (sign ||| f.infinity, ctx.raise dzc)
  else do
    let (significand, exponent) ←
      unpacked fuel f (magnitude >>> f.fraction).toNat (magnitude &&& f.fractionMask)
    if exponent < -f.bias - 1 then
      let mode := (ctx.fpcr >>> 22) &&& 3#32
      let overflowToInfinity :=
        mode = 0#32 ∨ (mode = 1#32 ∧ sign = 0#64) ∨ (mode = 2#32 ∧ sign ≠ 0#64)
      some (sign ||| if overflowToInfinity then f.infinity else f.infinity - 1#64,
        ctx.raise (ofc ||| ixc))
    else if ctx.fpcr &&& (1#32 <<< 24) ≠ 0#32 ∧ f.bias - 1 ≤ exponent then
      some (sign, ctx.raise ufc)
    else (reciprocalNormal f sign significand exponent).map fun r => (r, ctx)

def estimateS (fuel : Nat) (ctx : St) (n : U64) : Option (U64 × St) :=
  estimate fuel ctx ((n.setWidth 32).setWidth 64) .s

def estimateD (fuel : Nat) (ctx : St) (n : U64) : Option (U64 × St) := estimate fuel ctx n .d

def reciprocalEstimateS (fuel : Nat) (ctx : St) (n : U64) : Option (U64 × St) :=
  reciprocalEstimate fuel ctx ((n.setWidth 32).setWidth 64) .s

def reciprocalEstimateD (fuel : Nat) (ctx : St) (n : U64) : Option (U64 × St) :=
  reciprocalEstimate fuel ctx n .d

/-! ## The rules for operands -/

open AbsoluteCompare AbsoluteDifference

/-- The constants of a format. -/
def Format.of (f : Fmt) : Format := ⟨f.fbits, f.bias, f.inf false, f.signBit⟩

section Operands

variable {f : Fmt} {x : U64} {st : St}

theorem input_eq (hf : f ≠ .h) (hx : f.Encodes x) : input st x (.of f) = flushIn f x st := by
  have hden : f.abs x ≠ 0#64 ∧ f.abs x < 1#64 <<< f.fbits ↔ f.isDenormal x = true := by
    have hone : (1#64 <<< f.fbits).toNat = 2 ^ f.fbits := by cases f <;> rfl
    rw [Fmt.isDenormal_iff, Ne, ← BitVec.toNat_inj, BitVec.lt_def, toNat_abs, hone,
      BitVec.toNat_zero]
    omega
  rw [input, flushIn]
  simp only [Format.of, abs_of_encodes hx, hden, Fmt.and_signBit]
  by_cases h : st.fz = true ∧ f.isDenormal x = true
  · rw [if_pos ⟨bne_iff_ne.mp h.1, h.2⟩, if_pos ⟨hf, h⟩]
    rfl
  · rw [if_neg (fun h' => h ⟨bne_iff_ne.mpr h'.1, h'.2⟩), if_neg (fun h' => h h'.2)]

theorem nan_of (hx : f.Encodes x) : (Format.of f).nan x = f.isNan x := nan_eq hx

theorem defaultNan_of (f : Fmt) : (Format.of f).defaultNan = f.defaultNan := by cases f <;> rfl

theorem processNan_of (hx : f.Encodes x) : processNan st x (.of f) = Interp.processNan f x st := by
  have hsig : (Format.of f).signaling x = f.isSnan x := by
    rw [Format.signaling, nan_of hx]
    rfl
  have hdn : ∀ st : St, (st.fpcr &&& (1#32 <<< 25) ≠ 0#32) ↔ st.dn = true :=
    fun _ => bne_iff_ne.symm
  rw [processNan, Interp.processNan, hsig, defaultNan_of]
  simp only [hdn]
  rfl

end Operands

/-! ## Normalization -/

section Normalization

variable {f : Fmt} {l r : Nat} {e : Int}

/-- A magnitude is `2 ^ p + r` in its binade, `p` the fraction bits; `e` is its biased exponent,
which goes on below 1 for the denormals. -/
structure Normalized (f : Fmt) (l r : Nat) (e : Int) : Prop where
  lt : r < 2 ^ f.fbits
  normal : 2 ^ f.fbits ≤ l → r = l % 2 ^ f.fbits ∧ e = (l / 2 ^ f.fbits : Nat)
  denormal : l < 2 ^ f.fbits →
    ∃ k : Nat, 0 < k ∧ k ≤ f.fbits ∧ l * 2 ^ k = 2 ^ f.fbits + r ∧ e = 1 - k

theorem exists_normalized (f : Fmt) (hl : 0 < l) : ∃ r e, Normalized f l r e := by
  by_cases h : 2 ^ f.fbits ≤ l
  · exact ⟨_, _, Nat.mod_lt _ (Nat.two_pow_pos _), fun _ => ⟨rfl, rfl⟩, fun hlt => by omega⟩
  · have hlog : 2 ^ Nat.log2 l ≤ l := Nat.log2_self_le (by omega)
    have hlt : l < 2 ^ (Nat.log2 l + 1) := Nat.lt_log2_self
    have hle : Nat.log2 l < f.fbits := (Nat.log2_lt (by omega)).mpr (by omega)
    obtain ⟨k, hk⟩ := Nat.exists_eq_add_of_lt hle
    have hpow : 2 ^ f.fbits = 2 ^ Nat.log2 l * 2 ^ (k + 1) := by
      rw [← Nat.pow_add, hk, Nat.add_assoc]
    have hlow : 2 ^ f.fbits ≤ l * 2 ^ (k + 1) := by
      rw [hpow]
      exact Nat.mul_le_mul_right _ hlog
    have hhigh : l * 2 ^ (k + 1) < 2 * 2 ^ f.fbits := by
      rw [hpow, ← Nat.mul_assoc, ← Nat.pow_succ']
      exact Nat.mul_lt_mul_of_pos_right hlt (Nat.two_pow_pos _)
    refine ⟨l * 2 ^ (k + 1) - 2 ^ f.fbits, 1 - (k + 1 : Nat), by omega, fun hge => absurd hge h,
      fun _ => ⟨k + 1, by omega, by omega, by omega, rfl⟩⟩

/-- A body that doubles below `bound` and counts down. -/
theorem iterate_double {body : U64 × Int → U64 × Int} {bound : Nat}
    (hbody : ∀ s, s.1.toNat * 2 < bound → (body s).1.toNat = s.1.toNat * 2 ∧ (body s).2 = s.2 - 1)
    (s : U64 × Int) (j : Nat) (h : s.1.toNat * 2 ^ j < bound) :
    (body^[j] s).1.toNat = s.1.toNat * 2 ^ j ∧ (body^[j] s).2 = s.2 - j := by
  induction j with
  | zero =>
    rw [Nat.pow_zero, Nat.mul_one, Nat.cast_zero, sub_zero]
    exact ⟨rfl, rfl⟩
  | succ j ih =>
    rw [Nat.pow_succ, ← Nat.mul_assoc] at h ⊢
    obtain ⟨h1, h2⟩ := ih (by omega)
    rw [← h1] at h
    obtain ⟨h3, h4⟩ := hbody _ h
    rw [Function.iterate_succ_apply', h3, h4, h1, h2]
    exact ⟨rfl, by push_cast; omega⟩

/-- Before the last doubling the number is below the leading bit, after it, it is not. -/
theorem double_lt {q : Nat} {k j : Nat} (hr : l * 2 ^ k = q + r) (hr' : r < q) (hj : j < k) :
    l * 2 ^ j < q := by
  obtain ⟨d, rfl⟩ := Nat.exists_eq_add_of_lt hj
  have hpow : 2 ^ (j + d + 1) = 2 ^ j * 2 ^ d * 2 := by rw [Nat.pow_succ, Nat.pow_add]
  have hpos := Nat.two_pow_pos d
  rw [hpow, ← Nat.mul_assoc, ← Nat.mul_assoc] at hr
  have hle : l * 2 ^ j ≤ l * 2 ^ j * 2 ^ d := Nat.le_mul_of_pos_right _ hpos
  omega

/-- **The generated code's loop ends** with the leading bit in place. -/
theorem normalize_eq {s : U64} (hs : s.toNat = l) {k : Nat} (hk : k ≤ f.fbits)
    (hr : l * 2 ^ k = 2 ^ f.fbits + r) (hr' : r < 2 ^ f.fbits) (exponent : Int) :
    ∃ w : U64, w.toNat = 2 ^ f.fbits + r ∧
      ∀ fuel, normalize (fuel + 64) (.of f) s exponent = some (w, exponent - k) := by
  have hone : (1#64 <<< f.fbits).toNat = (2 ^ 1 - 1) <<< f.fbits := by cases f <;> rfl
  have hsmall : 2 * 2 ^ f.fbits < 2 ^ 64 := by cases f <;> decide
  have hbits : f.fbits ≤ 52 := by cases f <;> decide
  have hpos := Nat.two_pow_pos f.fbits
  have hbit : ∀ w : U64, (w &&& (1#64 <<< f.fbits) == 0#64) = decide (w.toNat / 2 ^ f.fbits % 2 = 0) := by
    intro w
    rw [Bool.eq_iff_iff, beq_iff_eq, decide_eq_true_iff, ← BitVec.toNat_inj,
      toNat_and_field w _ 1 hone, BitVec.toNat_zero, Nat.mul_eq_zero, pow_one]
    omega
  have hbody : ∀ s : U64 × Int, s.1.toNat * 2 < 2 ^ 64 →
      (s.1 <<< 1, s.2 - 1).1.toNat = s.1.toNat * 2 ∧ (s.1 <<< 1, s.2 - 1).2 = s.2 - 1 := by
    intro s hlt
    rw [BitVec.toNat_shiftLeft, Nat.shiftLeft_eq, pow_one, Nat.mod_eq_of_lt hlt]
    exact ⟨rfl, rfl⟩
  have hiter := fun j hj => iterate_double hbody (s, exponent) j hj
  rw [show (s, exponent).1.toNat = l from hs] at hiter
  obtain ⟨hend, hexp⟩ := hiter k (by omega)
  refine ⟨_, hend.trans hr, fun fuel => ?_⟩
  have hrun := @WhileLoop.run_eq_some _ (fun s : U64 × Int => s.1 &&& (1#64 <<< f.fbits) == 0#64)
    (fun s => (s.1 <<< 1, s.2 - 1)) (s, exponent) k ?_ ?_ (fuel + 63 - k)
  · rw [show fuel + 63 - k + k + 1 = fuel + 64 by omega] at hrun
    rw [normalize]
    refine hrun.trans ?_
    rw [← hexp]
  · rw [hbit, hend, hr, decide_eq_false_iff_not, Nat.add_div_left _ hpos, Nat.div_eq_of_lt hr']
    decide
  · intro j hj
    have hlt := double_lt hr hr' hj
    rw [hbit, (hiter j (by omega)).1, decide_eq_true_iff, Nat.div_eq_of_lt hlt]

/-- **The reference's loop ends** one doubling before it. -/
theorem normalizeFraction_eq {s : U64} (hs : s.toNat = l) {k : Nat} (hk : k ≤ 52) (hpos : 0 < k)
    (hr : l * 2 ^ k = 2 ^ 52 + r) (hr' : r < 2 ^ 52) (exponent : Int) :
    ∃ w : U64, w.toNat * 2 = 2 ^ 52 + r ∧
      ∀ fuel, normalizeFraction (fuel + 64) s exponent = some (w, exponent - (k - 1 : Nat)) := by
  have hbit : ∀ w : U64, ((w >>> 51) &&& 1#64 == 0#64) = decide (w.toNat / 2 ^ 51 % 2 = 0) := by
    intro w
    rw [Bool.eq_iff_iff, beq_iff_eq, decide_eq_true_iff, ← BitVec.toNat_inj, BitVec.toNat_and,
      BitVec.toNat_ushiftRight, Nat.shiftRight_eq_div_pow, BitVec.toNat_one (by decide),
      Nat.and_one_is_mod, BitVec.toNat_zero]
  have hbody : ∀ s : U64 × Int, s.1.toNat * 2 < 2 ^ 52 →
      ((s.1 <<< 1) &&& 0xFFFFFFFFFFFFF#64, s.2 - 1).1.toNat = s.1.toNat * 2 ∧
        ((s.1 <<< 1) &&& 0xFFFFFFFFFFFFF#64, s.2 - 1).2 = s.2 - 1 := by
    intro s hlt
    dsimp only
    rw [toNat_and_field _ 0 52 rfl, BitVec.toNat_shiftLeft, Nat.shiftLeft_eq, pow_one,
      Nat.mod_eq_of_lt (by omega)]
    exact ⟨by omega, rfl⟩
  have hiter := fun j hj => iterate_double hbody (s, exponent) j hj
  rw [show (s, exponent).1.toNat = l from hs] at hiter
  obtain ⟨k, rfl⟩ : ∃ j, k = j + 1 := ⟨k - 1, by omega⟩
  rw [Nat.add_sub_cancel]
  rw [Nat.pow_succ, ← Nat.mul_assoc] at hr
  obtain ⟨hend, hexp⟩ := hiter k (by omega)
  refine ⟨_, by rw [hend, hr], fun fuel => ?_⟩
  have hrun := @WhileLoop.run_eq_some _ (fun s : U64 × Int => (s.1 >>> 51) &&& 1#64 == 0#64)
    (fun s => ((s.1 <<< 1) &&& 0xFFFFFFFFFFFFF#64, s.2 - 1)) (s, exponent) k ?_ ?_ (fuel + 63 - k)
  · rw [show fuel + 63 - k + k + 1 = fuel + 64 by omega] at hrun
    rw [normalizeFraction]
    refine hrun.trans ?_
    rw [← hexp]
  · rw [hbit, hend, decide_eq_false_iff_not]
    omega
  · intro j hj
    have hlt := @double_lt (l) (2 ^ 51 + r / 2 - 2 ^ 51) (2 ^ 51) k j (by omega) (by omega) hj
    rw [hbit, (hiter j (by omega)).1, decide_eq_true_iff, Nat.div_eq_of_lt hlt]

theorem unpacked_eq (hn : Normalized f l r e) {s : U64} (hs : s.toNat = l % 2 ^ f.fbits) :
    ∃ w : U64, w.toNat = 2 ^ f.fbits + r ∧ ∀ fuel,
      unpacked (fuel + 64) (.of f) (l / 2 ^ f.fbits : Nat) s = some (w, e - f.bias) := by
  have hpos := Nat.two_pow_pos f.fbits
  by_cases h : l < 2 ^ f.fbits
  · obtain ⟨k, -, hk, hr, rfl⟩ := hn.denormal h
    rw [Nat.mod_eq_of_lt h] at hs
    obtain ⟨w, hw, hrun⟩ := normalize_eq hs hk hr hn.lt (1 - f.bias)
    refine ⟨w, hw, fun fuel => ?_⟩
    rw [unpacked, Nat.div_eq_of_lt h, if_pos Nat.cast_zero]
    refine (hrun fuel).trans ?_
    rw [show 1 - f.bias - (k : Int) = 1 - k - f.bias by omega]
  · obtain ⟨rfl, rfl⟩ := hn.normal (by omega)
    have hone : (1#64 <<< f.fbits).toNat = 2 ^ f.fbits := by cases f <;> rfl
    have hq : l / 2 ^ f.fbits ≠ 0 := by
      rw [Ne, Nat.div_eq_zero_iff_lt hpos]
      exact h
    refine ⟨s ||| (1#64 <<< f.fbits), ?_, fun fuel => ?_⟩
    · rw [BitVec.toNat_or, hs, hone, Nat.or_comm]
      have hlt := Nat.mod_lt l hpos
      have hor := Nat.two_pow_add_eq_or_of_lt hlt 1
      rw [Nat.mul_one] at hor
      exact hor.symm
    · rw [unpacked, if_neg (by exact_mod_cast hq)]
      rfl

variable {x : U64}

theorem fields_eq (hf : f ≠ .h) (x : U64) :
    (fields f x).1.toNat = f.low x % 2 ^ f.fbits * 2 ^ (52 - f.fbits) ∧
      (fields f x).2 = (f.low x / 2 ^ f.fbits : Nat) := by
  cases f
  case h => exact absurd rfl hf
  case s =>
    rw [fields, BitVec.toNat_shiftLeft, toNat_and_field _ 0 23 rfl, toNat_and_field _ 0 8 rfl,
      BitVec.toNat_ushiftRight, Nat.shiftRight_eq_div_pow, Nat.shiftLeft_eq, Fmt.low]
    simp only [Fmt.fbits, Fmt.bits, Fmt.ebits]
    omega
  case d =>
    rw [fields, toNat_and_field _ 0 52 rfl, toNat_and_field _ 0 11 rfl,
      BitVec.toNat_ushiftRight, Nat.shiftRight_eq_div_pow, Fmt.low]
    · simp only [Fmt.fbits, Fmt.bits, Fmt.ebits]
      omega
    · exact fun h => Fmt.noConfusion h

theorem normalizedFields_eq (hf : f ≠ .h) (hn : Normalized f (f.low x) r e) :
    ∃ w : U64, w.toNat = r * 2 ^ (52 - f.fbits) ∧
      ∀ fuel, normalizedFields (fuel + 64) f x = some (w, e) := by
  have hpos := Nat.two_pow_pos f.fbits
  have hp : 2 ^ f.fbits * 2 ^ (52 - f.fbits) = 2 ^ 52 := by cases f <;> rfl
  obtain ⟨hfrac, hexp⟩ := fields_eq hf x
  by_cases h : f.low x < 2 ^ f.fbits
  · obtain ⟨k, hk0, hk, hr, rfl⟩ := hn.denormal h
    have hbits : f.fbits ≤ 52 := by cases f <;> decide
    rw [Nat.mod_eq_of_lt h] at hfrac
    rw [Nat.div_eq_of_lt h, Nat.cast_zero] at hexp
    have hr' : f.low x * 2 ^ (52 - f.fbits) * 2 ^ k = 2 ^ 52 + r * 2 ^ (52 - f.fbits) := by
      rw [Nat.mul_right_comm, hr, Nat.add_mul, hp]
    have hlt : r * 2 ^ (52 - f.fbits) < 2 ^ 52 := by
      rw [← hp]
      exact Nat.mul_lt_mul_of_pos_right hn.lt (Nat.two_pow_pos _)
    obtain ⟨w, hw, hrun⟩ := normalizeFraction_eq hfrac (by omega) hk0 hr' hlt (fields f x).2
    refine ⟨(w <<< 1) &&& 0xFFFFFFFFFFFFF#64, ?_, fun fuel => ?_⟩
    · rw [toNat_and_field _ 0 52 rfl, BitVec.toNat_shiftLeft, Nat.shiftLeft_eq, pow_one]
      omega
    · have hsub : (0 : Int) - (k - 1 : Nat) = 1 - k := by omega
      rw [normalizedFields]
      dsimp only
      rw [if_pos hexp, hrun fuel, Option.map_some, hexp, hsub]
  · obtain ⟨rfl, rfl⟩ := hn.normal (by omega)
    have hne : (fields f x).2 ≠ 0 := by
      rw [hexp]
      have : f.low x / 2 ^ f.fbits ≠ 0 := by
        rw [Ne, Nat.div_eq_zero_iff_lt hpos]
        exact h
      exact_mod_cast this
    refine ⟨_, hfrac, fun fuel => ?_⟩
    rw [normalizedFields]
    dsimp only
    rw [if_neg hne, ← hexp]

end Normalization

/-! ## The tables -/

section Tables

/-- The search of a root ends: a product with more than 1022 exceeds the bound. -/
theorem root_ends {a : Nat} (ha : 257 ≤ a) : ∃ b, ∀ fuel,
    WhileLoop.run (fun b => decide (a * (b + 1) * (b + 1) < 1 <<< 28)) (fun b => b + 1) (fuel + 511) 512 =
      some b := by
  have hdec : ∀ b, decide (a * (b + 1) * (b + 1) < 1 <<< 28) = true → 1022 - (b + 1) < 1022 - b := by
    intro b hb
    by_contra hge
    have hle : 257 * 1023 * 1023 ≤ a * (b + 1) * (b + 1) :=
      Nat.mul_le_mul (Nat.mul_le_mul ha (by omega)) (by omega)
    have hlt : a * (b + 1) * (b + 1) < 1 <<< 28 := of_decide_eq_true hb
    exact absurd (lt_of_le_of_lt hle hlt) (by decide)
  exact WhileLoop.run_of_measure (fun b => 1022 - b) hdec 512

theorem ofNat_and_byte (n : Nat) : BitVec.ofNat 64 n &&& 0xFF#64 = (BitVec.ofNat 8 n).setWidth 64 := by
  rw [← BitVec.toNat_inj, toNat_and_field _ 0 8 rfl, BitVec.toNat_ofNat, BitVec.toNat_setWidth,
    BitVec.toNat_ofNat]
  omega

/-- **The table and the reference hold the same root estimates.** -/
theorem estimateTable_eq {i : Nat} (h : 128 ≤ i ∧ i < 512) : ∃ entry : U8, ∀ fuel,
    estimateTable (fuel + 512) i = some entry ∧
      (recipSqrtEstimate (fuel + 512) i).map (BitVec.ofNat 64 · &&& 0xFF#64) =
        some (entry.setWidth 64) := by
  have ha : (if i < 256 then i * 2 + 1 else ((i >>> 1) <<< 1 + 1) * 2) =
      if i < 256 then 2 * i + 1 else 2 * (i ||| 1) := by
    rw [Rounding.or_one, Nat.shiftRight_eq_div_pow, Nat.shiftLeft_eq, pow_one]
    split <;> omega
  have hge : 257 ≤ if i < 256 then 2 * i + 1 else 2 * (i ||| 1) := by
    rw [Rounding.or_one]
    split <;> omega
  obtain ⟨b, hb⟩ := root_ends hge
  refine ⟨BitVec.ofNat 8 ((b + 1) / 2), fun fuel => ?_⟩
  have hrun := hb (fuel + 1)
  rw [Nat.add_assoc, show 1 + 511 = 512 from rfl] at hrun
  constructor
  · rw [estimateTable, if_neg (by omega), if_pos h.2]
    dsimp only
    rw [hrun, Option.map_some]
  · rw [recipSqrtEstimate, ha, hrun, Option.map_some, Option.map_some, divCeil, ofNat_and_byte]
    rfl

/-- **The table and the reference hold the same reciprocal estimates.** -/
theorem reciprocalTable_eq {i : Nat} (h : i < 256) : ∃ entry : U8, reciprocalTable i = some entry ∧
    BitVec.ofNat 64 (recipEstimate (i + 256)) &&& 0xFF#64 = entry.setWidth 64 := by
  refine ⟨_, by rw [reciprocalTable, if_pos h], ?_⟩
  rw [recipEstimate, divCeil, ofNat_and_byte, Nat.mul_comm (i + 256) 2]
  rfl

end Tables

/-! ## The estimates of numbers -/

section Numbers

variable {f : Fmt} {l r : Nat} {e : Int} {x : U64}

theorem magnitude_fields {m : U64} (hm : m.toNat = f.low x) :
    (m >>> f.fbits).toNat = f.low x / 2 ^ f.fbits ∧
      (m &&& (Format.of f).fractionMask).toNat = f.low x % 2 ^ f.fbits := by
  have hmask : (Format.of f).fractionMask.toNat = 2 ^ f.fbits - 1 := by cases f <;> rfl
  rw [BitVec.toNat_ushiftRight, Nat.shiftRight_eq_div_pow, BitVec.toNat_and, hmask,
    Nat.and_two_pow_sub_one_eq_mod, hm]
  exact ⟨rfl, rfl⟩

/-- The range of the biased exponents of finite numbers. -/
theorem Normalized.range (hn : Normalized f l r e) (hl : l < f.infLow) :
    1 - (f.fbits : Int) ≤ e ∧ e ≤ 2 ^ f.ebits - 2 := by
  have hpos := Nat.two_pow_pos f.fbits
  have hone : 1 ≤ 2 ^ f.ebits := Nat.one_le_two_pow
  by_cases h : l < 2 ^ f.fbits
  · obtain ⟨k, -, hk, -, rfl⟩ := hn.denormal h
    have : (2 : Int) ^ f.ebits ≥ 4 := by cases f <;> decide
    omega
  · obtain ⟨-, rfl⟩ := hn.normal (by omega)
    have hlt : l / 2 ^ f.fbits < 2 ^ f.ebits - 1 := by
      rw [Nat.div_lt_iff_lt_mul hpos]
      exact hl
    have hcast : ((2 ^ f.ebits : Nat) : Int) = 2 ^ f.ebits := by push_cast; rfl
    have hfb : 0 < f.fbits := by cases f <;> decide
    generalize l / 2 ^ f.fbits = q at hlt
    omega

theorem bias_odd (f : Fmt) : f.bias % 2 = 1 := by cases f <;> rfl

/-- The index of the generated code. -/
theorem scaled_toNat {w : U64} (hw : w.toNat = 2 ^ f.fbits + r) (hr : r < 2 ^ f.fbits) (e : Int) :
    (w >>> (f.fbits - if (e - f.bias) % 2 = 0 then 7 else 8)).toNat =
      if e % 2 = 0 then 256 + r / 2 ^ (f.fbits - 8) else 128 + r / 2 ^ (f.fbits - 7) := by
  have hodd := bias_odd f
  rw [BitVec.toNat_ushiftRight, Nat.shiftRight_eq_div_pow, hw]
  by_cases he : e % 2 = 0
  · rw [if_pos he, if_neg (by omega)]
    cases f <;> simp only [Fmt.fbits, Fmt.bits, Fmt.ebits] at hr ⊢ <;> omega
  · rw [if_neg he, if_pos (by omega)]
    cases f <;> simp only [Fmt.fbits, Fmt.bits, Fmt.ebits] at hr ⊢ <;> omega

theorem or_byte {n : Nat} (h : n < 256) : (256 ||| n) = 256 + n :=
  (Nat.two_pow_add_eq_or_of_lt (i := 8) h 1).symm

theorem or_seven {n : Nat} (h : n < 128) : (128 ||| n) = 128 + n :=
  (Nat.two_pow_add_eq_or_of_lt (i := 7) h 1).symm

/-- The indices of the reference. -/
theorem scaled_even {w : U64} (hf : f ≠ .h) (hw : w.toNat = r * 2 ^ (52 - f.fbits))
    (hr : r < 2 ^ f.fbits) :
    ((1#64 <<< 8) ||| ((w >>> 44) &&& 0xFF#64)).toNat = 256 + r / 2 ^ (f.fbits - 8) := by
  have hdiv : (w >>> 44 &&& 0xFF#64).toNat = r / 2 ^ (f.fbits - 8) := by
    rw [toNat_and_field _ 0 8 rfl, BitVec.toNat_ushiftRight, Nat.shiftRight_eq_div_pow, hw]
    cases f
    case h => exact absurd rfl hf
    all_goals
      simp only [Fmt.fbits, Fmt.bits, Fmt.ebits] at hr ⊢
      omega
  have hlt : r / 2 ^ (f.fbits - 8) < 256 := by
    cases f <;> simp only [Fmt.fbits, Fmt.bits, Fmt.ebits] at hr ⊢ <;> omega
  rw [BitVec.toNat_or, hdiv]
  exact or_byte hlt

theorem scaled_odd {w : U64} (hf : f ≠ .h) (hw : w.toNat = r * 2 ^ (52 - f.fbits))
    (hr : r < 2 ^ f.fbits) :
    ((1#64 <<< 7) ||| ((w >>> 45) &&& 0x7F#64)).toNat = 128 + r / 2 ^ (f.fbits - 7) := by
  have hdiv : (w >>> 45 &&& 0x7F#64).toNat = r / 2 ^ (f.fbits - 7) := by
    rw [toNat_and_field _ 0 7 rfl, BitVec.toNat_ushiftRight, Nat.shiftRight_eq_div_pow, hw]
    cases f
    case h => exact absurd rfl hf
    all_goals
      simp only [Fmt.fbits, Fmt.bits, Fmt.ebits] at hr ⊢
      omega
  have hlt : r / 2 ^ (f.fbits - 7) < 128 := by
    cases f <;> simp only [Fmt.fbits, Fmt.bits, Fmt.ebits] at hr ⊢ <;> omega
  rw [BitVec.toNat_or, hdiv]
  exact or_seven hlt

/-- A small exponent keeps its bits under a field mask. -/
theorem ofInt_and {n : Int} {c : U64} {len : Nat} (hc : c.toNat = (2 ^ len - 1) <<< 0) (hlen : len < 64)
    (h0 : 0 ≤ n) (hn : n < 2 ^ len) : BitVec.ofInt 64 n &&& c = BitVec.ofInt 64 n := by
  obtain ⟨m, rfl⟩ := Int.eq_ofNat_of_zero_le h0
  have hm : m < 2 ^ len := by exact_mod_cast hn
  have hpow : 2 ^ len ≤ 2 ^ 64 := Nat.pow_le_pow_right (by decide) hlen.le
  rw [BitVec.ofInt_natCast, ← BitVec.toNat_inj, toNat_and_field _ 0 len hc,
    BitVec.toNat_ofNat, Nat.mod_eq_of_lt (lt_of_lt_of_le hm hpow), pow_zero, Nat.div_one, Nat.mul_one,
    Nat.mod_eq_of_lt hm]

/-- **The square root estimates of a number agree.** -/
theorem estimateNormal_eq (hf : f ≠ .h) (hx : x.toNat = f.low x) (hpos : 0 < f.low x)
    (hfin : f.low x < f.infLow) : ∃ r, ∀ fuel,
      estimateNormal (fuel + 512) x (.of f) = some r ∧ frsqrteNormal (fuel + 512) f x = some r := by
  obtain ⟨r, e, hn⟩ := exists_normalized f hpos
  obtain ⟨hmin, hmax⟩ := hn.range hfin
  obtain ⟨hq, hfrac⟩ := magnitude_fields (f := f) hx
  obtain ⟨w, hw, hunpacked⟩ := unpacked_eq hn hfrac
  obtain ⟨w', hw', hfields⟩ := normalizedFields_eq hf hn
  have hscaled := scaled_toNat hw hn.lt e
  have hscaled' : (if e % 2 = 0 then (1#64 <<< 8) ||| ((w' >>> 44) &&& 0xFF#64)
      else (1#64 <<< 7) ||| ((w' >>> 45) &&& 0x7F#64)).toNat =
        if e % 2 = 0 then 256 + r / 2 ^ (f.fbits - 8) else 128 + r / 2 ^ (f.fbits - 7) := by
    rw [apply_ite BitVec.toNat, scaled_even hf hw' hn.lt, scaled_odd hf hw' hn.lt]
  have hindex : 128 ≤ (if e % 2 = 0 then 256 + r / 2 ^ (f.fbits - 8) else 128 + r / 2 ^ (f.fbits - 7)) ∧
      (if e % 2 = 0 then 256 + r / 2 ^ (f.fbits - 8) else 128 + r / 2 ^ (f.fbits - 7)) < 512 := by
    have hr := hn.lt
    cases f <;> simp only [Fmt.fbits, Fmt.bits, Fmt.ebits] at hr ⊢ <;> split <;> omega
  obtain ⟨entry, hentry⟩ := estimateTable_eq hindex
  have hexp : ((-(e - f.bias + 1)) >>> (1 : Nat)) + f.bias = (3 * f.bias - 1 - e) / 2 := by
    rw [Int.shiftRight_eq_div_pow]
    omega
  refine ⟨(BitVec.ofInt 64 ((3 * f.bias - 1 - e) / 2) <<< f.fbits) |||
    (entry.setWidth 64 <<< (f.fbits - 8)), fun fuel => ⟨?_, ?_⟩⟩
  · have hrun := hunpacked (fuel + 448)
    rw [Nat.add_assoc, show 448 + 64 = 512 from rfl, ← hq] at hrun
    rw [estimateNormal, show (Format.of f).fraction = f.fbits from rfl, hrun]
    simp only [Option.bind_eq_bind, Option.bind_some, hscaled, (hentry fuel).1]
    rw [← hexp]
    rfl
  · have hrun := hfields (fuel + 448)
    rw [Nat.add_assoc, show 448 + 64 = 512 from rfl] at hrun
    obtain ⟨n, hroot, hbyte⟩ := Option.map_eq_some_iff.mp (hentry fuel).2
    rw [frsqrteNormal, hrun]
    simp only [Option.bind_eq_bind, Option.bind_some, hscaled', hroot, Option.map_some, hbyte]
    cases f
    case h => exact absurd rfl hf
    case s =>
      simp only [Fmt.fbits, Fmt.bits, Fmt.ebits, Fmt.bias] at hmin hmax ⊢
      rw [@ofInt_and _ _ 8 rfl (by decide) (by omega) (by omega)]
      rfl
    case d =>
      simp only [Fmt.fbits, Fmt.bits, Fmt.ebits, Fmt.bias] at hmin hmax ⊢
      rw [@ofInt_and _ _ 11 rfl (by decide) (by omega) (by omega)]
      rfl

/-- FRECPE normalizes the denormals whose reciprocals are in range without a loop. -/
theorem recip_fields (hf : f ≠ .h) (hn : Normalized f (f.low x) r e) (he : -1 ≤ e) : ∃ w : U64,
    w.toNat = r * 2 ^ (52 - f.fbits) ∧
      (if (fields f x).2 = 0 then
        if ((fields f x).1 >>> 51) &&& 1#64 = 0#64 then
          (((fields f x).1 <<< 2) &&& 0xFFFFFFFFFFFFF#64, -1)
        else (((fields f x).1 <<< 1) &&& 0xFFFFFFFFFFFFF#64, (fields f x).2)
      else fields f x) = (w, e) := by
  have hpos := Nat.two_pow_pos f.fbits
  have hp : 2 ^ f.fbits * 2 ^ (52 - f.fbits) = 2 ^ 52 := by cases f <;> rfl
  obtain ⟨hfrac, hexp⟩ := fields_eq hf x
  by_cases h : f.low x < 2 ^ f.fbits
  · obtain ⟨k, hk0, -, hr, rfl⟩ := hn.denormal h
    rw [Nat.mod_eq_of_lt h] at hfrac
    rw [Nat.div_eq_of_lt h, Nat.cast_zero] at hexp
    have hr' : (fields f x).1.toNat * 2 ^ k = 2 ^ 52 + r * 2 ^ (52 - f.fbits) := by
      rw [hfrac, Nat.mul_right_comm, hr, Nat.add_mul, hp]
    have hlt : r * 2 ^ (52 - f.fbits) < 2 ^ 52 := by
      rw [← hp]
      exact Nat.mul_lt_mul_of_pos_right hn.lt (Nat.two_pow_pos _)
    have hbit : ((fields f x).1 >>> 51) &&& 1#64 = 0#64 ↔ (fields f x).1.toNat / 2 ^ 51 % 2 = 0 := by
      rw [← BitVec.toNat_inj, BitVec.toNat_and, BitVec.toNat_ushiftRight,
        Nat.shiftRight_eq_div_pow, BitVec.toNat_one (by decide), Nat.and_one_is_mod,
        BitVec.toNat_zero]
    have hshift : ∀ d, (((fields f x).1 <<< d) &&& 0xFFFFFFFFFFFFF#64).toNat =
        (fields f x).1.toNat * 2 ^ d % 2 ^ 64 % 2 ^ 52 := by
      intro d
      rw [toNat_and_field _ 0 52 rfl, BitVec.toNat_shiftLeft, Nat.shiftLeft_eq]
      omega
    rw [if_pos hexp]
    obtain rfl | rfl : k = 1 ∨ k = 2 := by omega
    · rw [if_neg (by rw [hbit]; omega)]
      refine ⟨_, ?_, Prod.ext rfl hexp⟩
      rw [hshift]
      omega
    · rw [if_pos (by rw [hbit]; omega)]
      refine ⟨_, ?_, rfl⟩
      rw [hshift]
      omega
  · obtain ⟨rfl, rfl⟩ := hn.normal (by omega)
    have hne : (fields f x).2 ≠ 0 := by
      rw [hexp]
      have : f.low x / 2 ^ f.fbits ≠ 0 := by
        rw [Ne, Nat.div_eq_zero_iff_lt hpos]
        exact h
      exact_mod_cast this
    rw [if_neg hne]
    exact ⟨_, hfrac, Prod.ext rfl hexp⟩

/-- The index of the generated code into the reciprocal table. -/
theorem recip_scaled {w : U64} (hw : w.toNat = 2 ^ f.fbits + r) (hr : r < 2 ^ f.fbits) :
    ((w >>> (f.fbits - 8)) - 256#64).toNat = r / 2 ^ (f.fbits - 8) := by
  have hshift : (w >>> (f.fbits - 8)).toNat = 256 + r / 2 ^ (f.fbits - 8) := by
    rw [BitVec.toNat_ushiftRight, Nat.shiftRight_eq_div_pow, hw]
    cases f <;> simp only [Fmt.fbits, Fmt.bits, Fmt.ebits] at hr ⊢ <;> omega
  have hlt := (w >>> (f.fbits - 8)).isLt
  rw [BitVec.toNat_sub, hshift]
  rw [hshift] at hlt
  generalize r / 2 ^ (f.fbits - 8) = q at hlt
  simp only [BitVec.toNat_ofNat]
  omega

/-- The fractions of the results agree: normal, and subnormal by one or two places. -/
theorem single_fraction (entry : U8) :
    ((entry.setWidth 64 <<< 44) >>> 29) &&& 0x7FFFFF#64 = entry.setWidth 64 <<< 15 ∧
      (((1#64 <<< 51) ||| ((entry.setWidth 64 <<< 44) >>> 1)) >>> 29) &&& 0x7FFFFF#64 =
        ((entry.setWidth 64 <<< 15) ||| (1#64 <<< 23)) >>> 1 ∧
      (((1#64 <<< 50) ||| ((entry.setWidth 64 <<< 44) >>> 2)) >>> 29) &&& 0x7FFFFF#64 =
        ((entry.setWidth 64 <<< 15) ||| (1#64 <<< 23)) >>> 2 := by
  revert entry
  decide

theorem double_fraction (entry : U8) :
    (entry.setWidth 64 <<< 44) &&& 0xFFFFFFFFFFFFF#64 = entry.setWidth 64 <<< 44 ∧
      ((1#64 <<< 51) ||| ((entry.setWidth 64 <<< 44) >>> 1)) &&& 0xFFFFFFFFFFFFF#64 =
        ((entry.setWidth 64 <<< 44) ||| (1#64 <<< 52)) >>> 1 ∧
      ((1#64 <<< 50) ||| ((entry.setWidth 64 <<< 44) >>> 2)) &&& 0xFFFFFFFFFFFFF#64 =
        ((entry.setWidth 64 <<< 44) ||| (1#64 <<< 52)) >>> 2 := by
  revert entry
  decide

/-- **A single is put together alike**, normal or subnormal. -/
theorem assemble_single (sign : Bool) (entry : U8) {n : Int} (hmin : -1 ≤ n) (hmax : n < 2 ^ 8) :
    (let (fraction, n) : U64 × Int :=
      if n ≤ 0 then (((entry.setWidth 64 <<< 15) ||| (1#64 <<< 23)) >>> (1 - n).toNat, 0)
      else (entry.setWidth 64 <<< 15, n)
    Fmt.s.zero sign ||| (BitVec.ofInt 64 n <<< 23) ||| fraction) =
    (let (fraction, n) : U64 × Int :=
      if n = 0 then ((1#64 <<< 51) ||| ((entry.setWidth 64 <<< 44) >>> 1), n)
      else if n = -1 then ((1#64 <<< 50) ||| ((entry.setWidth 64 <<< 44) >>> 2), 0)
      else (entry.setWidth 64 <<< 44, n)
    (u64OfBool sign <<< 31) ||| ((BitVec.ofInt 64 n &&& 0xFF#64) <<< 23) |||
      ((fraction >>> 29) &&& 0x7FFFFF#64)) := by
  obtain ⟨hfrac0, hfrac1, hfrac2⟩ := single_fraction entry
  obtain rfl | rfl | hpos : n = 0 ∨ n = -1 ∨ 0 < n := by omega
  · rw [if_pos le_rfl, if_pos rfl]
    dsimp only
    rw [hfrac1]
    rfl
  · rw [if_pos (by decide), if_neg (by decide), if_pos rfl]
    dsimp only
    rw [hfrac2]
    rfl
  · rw [if_neg (by omega), if_neg (by omega), if_neg (by omega)]
    dsimp only
    rw [hfrac0, @ofInt_and n _ 8 rfl (by decide) hpos.le hmax]
    rfl

theorem assemble_double (sign : Bool) (entry : U8) {n : Int} (hmin : -1 ≤ n) (hmax : n < 2 ^ 11) :
    (let (fraction, n) : U64 × Int :=
      if n ≤ 0 then (((entry.setWidth 64 <<< 44) ||| (1#64 <<< 52)) >>> (1 - n).toNat, 0)
      else (entry.setWidth 64 <<< 44, n)
    Fmt.d.zero sign ||| (BitVec.ofInt 64 n <<< 52) ||| fraction) =
    (let (fraction, n) : U64 × Int :=
      if n = 0 then ((1#64 <<< 51) ||| ((entry.setWidth 64 <<< 44) >>> 1), n)
      else if n = -1 then ((1#64 <<< 50) ||| ((entry.setWidth 64 <<< 44) >>> 2), 0)
      else (entry.setWidth 64 <<< 44, n)
    (u64OfBool sign <<< 63) ||| ((BitVec.ofInt 64 n &&& 0x7FF#64) <<< 52) |||
      (fraction &&& 0xFFFFFFFFFFFFF#64)) := by
  obtain ⟨hfrac0, hfrac1, hfrac2⟩ := double_fraction entry
  obtain rfl | rfl | hpos : n = 0 ∨ n = -1 ∨ 0 < n := by omega
  · rw [if_pos le_rfl, if_pos rfl]
    dsimp only
    rw [hfrac1]
    rfl
  · rw [if_pos (by decide), if_neg (by decide), if_pos rfl]
    dsimp only
    rw [hfrac2]
    rfl
  · rw [if_neg (by omega), if_neg (by omega), if_neg (by omega)]
    dsimp only
    rw [hfrac0, @ofInt_and n _ 11 rfl (by decide) hpos.le hmax]
    rfl

/-- **The reciprocal estimates of a number agree.** -/
theorem reciprocalNormal_eq (hf : f ≠ .h) (hn : Normalized f (f.low x) r e) (he : -1 ≤ e)
    (hmax : e ≤ 2 ^ f.ebits - 2) {w : U64} (hw : w.toNat = 2 ^ f.fbits + r) (sign : Bool) :
    reciprocalNormal (.of f) (f.zero sign) w (e - f.bias) = some (frecpeNormal f sign x) := by
  obtain ⟨w', hw', hfields⟩ := recip_fields hf hn he
  have hindex : r / 2 ^ (f.fbits - 8) < 256 := by
    have hr := hn.lt
    cases f <;> simp only [Fmt.fbits, Fmt.bits, Fmt.ebits] at hr ⊢ <;> omega
  obtain ⟨entry, htable, hbyte⟩ := reciprocalTable_eq hindex
  rw [Nat.add_comm] at hbyte
  rcases hp : fields f x with ⟨fraction, exp⟩
  rw [hp] at hfields
  dsimp only at hfields
  rw [frecpeNormal, hp]
  dsimp only
  rw [hfields]
  dsimp only
  rw [scaled_even hf hw' hn.lt, hbyte, reciprocalNormal]
  dsimp only [Format.of]
  rw [recip_scaled hw hn.lt, htable]
  simp only [Option.bind_eq_bind, Option.bind_some]
  cases f
  case h => exact absurd rfl hf
  case s =>
    have hbias : -(e - Fmt.s.bias + 1) + Fmt.s.bias = 253 - e := by
      simp only [Fmt.bias, Fmt.ebits]
      omega
    simp only [Fmt.ebits] at hmax
    rw [hbias]
    exact congrArg some (assemble_single sign entry (by omega) (by omega))
  case d =>
    have hbias : -(e - Fmt.d.bias + 1) + Fmt.d.bias = 2045 - e := by
      simp only [Fmt.bias, Fmt.ebits]
      omega
    simp only [Fmt.ebits] at hmax
    rw [hbias]
    exact congrArg some (assemble_double sign entry (by omega) (by omega))

/-- The reciprocal overflows below a quarter of the least normal number. -/
theorem tiny_iff (hn : Normalized f l r e) : e < -1 ↔ l < 2 ^ (f.fbits - 2) := by
  have hpow : 2 ^ f.fbits = 4 * 2 ^ (f.fbits - 2) := by cases f <;> rfl
  have hlt := hn.lt
  by_cases h : l < 2 ^ f.fbits
  · obtain ⟨k, hk0, -, hr, rfl⟩ := hn.denormal h
    constructor
    · intro he
      obtain ⟨d, rfl⟩ : ∃ d, k = 3 + d := ⟨k - 3, by omega⟩
      have hge : l * 8 ≤ l * 2 ^ (3 + d) := by
        rw [Nat.pow_add]
        exact Nat.mul_le_mul_left _ (Nat.le_mul_of_pos_right _ (Nat.two_pow_pos d))
      generalize 2 ^ (3 + d) = q at hr hge
      generalize l * q = m at hr hge
      omega
    · intro hl
      by_contra hge
      obtain rfl | rfl : k = 1 ∨ k = 2 := by omega
      all_goals omega
  · obtain ⟨-, rfl⟩ := hn.normal (by omega)
    generalize l / 2 ^ f.fbits = q
    omega

/-- It is subnormal from half the greatest binade on. -/
theorem huge_iff (hn : Normalized f l r e) (c : Nat) (hc : 0 < c) :
    (c : Int) ≤ e ↔ c * 2 ^ f.fbits ≤ l := by
  have hpos := Nat.two_pow_pos f.fbits
  by_cases h : l < 2 ^ f.fbits
  · obtain ⟨k, hk0, -, -, rfl⟩ := hn.denormal h
    have hle : 2 ^ f.fbits ≤ c * 2 ^ f.fbits := Nat.le_mul_of_pos_left _ hc
    omega
  · obtain ⟨-, rfl⟩ := hn.normal (by omega)
    rw [← Nat.le_div_iff_mul_le hpos]
    exact_mod_cast Iff.rfl

end Numbers

/-! ## Agreement -/

section Agreement

variable {f : Fmt} {x : U64} {st : St}

theorem flushIn_of_low (hf : f ≠ .h) (h : f.low (flushIn f x st).1 ≠ 0) :
    flushIn f x st = (x, st) := by
  refine flushIn_of_not fun hz => ?_
  rw [← Bool.not_eq_true]
  intro hden
  rw [flushIn, if_pos ⟨hf, hz, hden⟩] at h
  exact h (Fmt.low_zero _)

theorem abs_eq_inf_iff : f.abs x = f.inf false ↔ f.isInf x = true := by
  have hinf : (f.inf false).toNat = f.infLow := by cases f <;> rfl
  rw [Fmt.isInf_iff, ← BitVec.toNat_inj, toNat_abs, hinf]

theorem abs_eq_zero_iff : f.abs x = 0#64 ↔ f.low x = 0 := by
  rw [← BitVec.toNat_inj, toNat_abs, BitVec.toNat_zero]

theorem zero_or_inf (f : Fmt) (sign : Bool) : f.zero sign ||| f.inf false = f.inf sign := by
  cases f <;> cases sign <;> rfl

theorem zero_or_max (f : Fmt) (sign : Bool) :
    f.zero sign ||| (f.inf false - 1#64) = f.maxNormal sign := by
  cases f <;> cases sign <;> rfl

theorem zero_eq_iff (f : Fmt) (sign : Bool) : f.zero sign = 0#64 ↔ sign = false := by
  cases f <;> cases sign <;> decide

/-- The rounding mode decides alike which way a reciprocal overflows. -/
theorem overflow_eq (sign : Bool) :
    recipToInf st.rmode sign =
      decide (((st.fpcr >>> 22) &&& 3#32 = 0#32) ∨
        ((st.fpcr >>> 22) &&& 3#32 = 1#32 ∧ f.zero sign = 0#64) ∨
        ((st.fpcr >>> 22) &&& 3#32 = 2#32 ∧ f.zero sign ≠ 0#64)) := by
  have hlt : ((st.fpcr >>> 22) &&& 3#32).toNat < 4 := by
    rw [toNat_and_field _ 0 2 rfl]
    omega
  rw [St.rmode]
  simp only [zero_eq_iff, Ne]
  generalize (st.fpcr >>> 22) &&& 3#32 = mode at hlt
  obtain rfl | rfl | rfl | rfl : mode = 0#32 ∨ mode = 1#32 ∨ mode = 2#32 ∨ mode = 3#32 := by
    simp only [← BitVec.toNat_inj]
    have h0 : (0#32).toNat = 0 := rfl
    have h1 : (1#32).toNat = 1 := rfl
    have h2 : (2#32).toNat = 2 := rfl
    have h3 : (3#32).toNat = 3 := rfl
    omega
  all_goals cases sign <;> rfl

theorem tinyBelow_toNat (hf : f ≠ .h) : (tinyBelow f).toNat = 2 ^ (f.fbits - 2) := by
  cases f
  case h => exact absurd rfl hf
  all_goals rfl

theorem hugeFrom_toNat (hf : f ≠ .h) : (hugeFrom f).toNat = (2 ^ f.ebits - 3) * 2 ^ f.fbits := by
  cases f
  case h => exact absurd rfl hf
  all_goals rfl

/-- **The reciprocal estimates agree.** -/
theorem reciprocalEstimate_eq (hf : f ≠ .h) (hx : f.Encodes x) (fuel : Nat) :
    reciprocalEstimate (fuel + 512) st x (.of f) = some (frecpe f x st) := by
  obtain ⟨hst, hcls⟩ := @unpack_flushIn f x st hf
  have hsign := @unpack_sign f x st
  have hx' := @encodes_flushIn f x st hx
  have hsign' := @sign_flushIn f x st
  have hlow := @flushIn_of_low f x st hf
  rw [reciprocalEstimate, input_eq hf hx, frecpe.eq_def]
  rcases hu : unpack f x st with ⟨u, st'⟩
  rcases hfl : flushIn f x st with ⟨x', st''⟩
  rw [hu] at hst hcls hsign
  rw [hfl] at hst hcls hx' hsign' hlow
  dsimp only at hst hcls hsign hx' hsign' hlow ⊢
  subst hst
  rw [nan_of hx', show (Format.of f).sign = f.signBit from rfl,
    show (Format.of f).infinity = f.inf false from rfl, abs_of_encodes hx', Fmt.and_signBit, hsign',
    hcls, hsign, classify]
  simp only [abs_eq_inf_iff, abs_eq_zero_iff]
  cases hnan : f.isNan x'
  case true =>
    have hne : f.low x' ≠ 0 := by
      rw [Fmt.isNan_iff] at hnan
      omega
    cases hlow hne
    rw [if_pos rfl, if_pos rfl, processNan_of hx]
    cases f.isSnan x <;> rfl
  cases hi : f.isInf x'
  case true => rfl
  by_cases hz : f.low x' = 0
  · simp only [Bool.false_eq_true, if_false, if_pos hz, zero_or_inf]
    rfl
  cases hlow hz
  -- A number, neither zero nor an infinity.
  have hfin : f.low x < f.infLow := by
    rw [← Bool.not_eq_true, Fmt.isNan_iff] at hnan
    rw [← Bool.not_eq_true, Fmt.isInf_iff] at hi
    omega
  obtain ⟨r, e, hn⟩ := exists_normalized f (Nat.pos_of_ne_zero hz)
  obtain ⟨hmin, hmax⟩ := hn.range hfin
  obtain ⟨hq, hfrac⟩ := magnitude_fields (toNat_abs f x)
  obtain ⟨w, hw, hunpacked⟩ := unpacked_eq hn hfrac
  have hrun := hunpacked (fuel + 448)
  rw [Nat.add_assoc, show 448 + 64 = 512 from rfl, ← hq] at hrun
  simp only [Bool.false_eq_true, if_false, if_neg hz]
  rw [show (Format.of f).fraction = f.fbits from rfl, hrun]
  simp only [Option.bind_eq_bind, Option.bind_some]
  have htiny : e - f.bias < -(Format.of f).bias - 1 ↔ f.low x < 2 ^ (f.fbits - 2) := by
    rw [← tiny_iff hn]
    simp only [Format.of]
    omega
  have hhuge : (Format.of f).bias - 1 ≤ e - f.bias ↔
      (2 ^ f.ebits - 3) * 2 ^ f.fbits ≤ f.low x := by
    have hc : (((2 ^ f.ebits - 3 : Nat) : Nat) : Int) = 2 * f.bias - 1 := by cases f <;> rfl
    rw [← huge_iff hn _ (by cases f <;> decide), hc]
    simp only [Format.of]
    omega
  have hleast : f.abs x < tinyBelow f ↔ f.low x < 2 ^ (f.fbits - 2) := by
    rw [BitVec.lt_def, toNat_abs, tinyBelow_toNat hf]
  have hmost : hugeFrom f ≤ f.abs x ↔ (2 ^ f.ebits - 3) * 2 ^ f.fbits ≤ f.low x := by
    rw [BitVec.le_def, toNat_abs, hugeFrom_toNat hf]
  simp only [htiny, hhuge, hleast, hmost]
  by_cases ht : f.low x < 2 ^ (f.fbits - 2)
  · rw [if_pos ht, if_pos ht, @overflow_eq f, ← zero_or_inf f (f.sign x), ← zero_or_max f (f.sign x)]
    simp only [decide_eq_true_iff]
    split <;> rfl
  rw [if_neg ht, if_neg ht]
  by_cases hz : st.fz = true ∧ (2 ^ f.ebits - 3) * 2 ^ f.fbits ≤ f.low x
  · rw [if_pos hz, if_pos ⟨bne_iff_ne.mp hz.1, hz.2⟩]
    rfl
  · rw [if_neg hz, if_neg (fun h => hz ⟨bne_iff_ne.mpr h.1, h.2⟩),
      reciprocalNormal_eq hf hn (by rw [← tiny_iff hn] at ht; omega) hmax hw]
    rfl

/-- **The square root estimates agree**, and their loops end. -/
theorem estimate_eq (hf : f ≠ .h) (hx : f.Encodes x) : ∃ r, ∀ fuel,
    estimate (fuel + 512) st x (.of f) = some r ∧ frsqrte (fuel + 512) f x st = some r := by
  obtain ⟨hst, hcls⟩ := @unpack_flushIn f x st hf
  have hsign := @unpack_sign f x st
  have hx' := @encodes_flushIn f x st hx
  have hsign' := @sign_flushIn f x st
  have hlow := @flushIn_of_low f x st hf
  simp only [estimate, input_eq hf hx, frsqrte]
  rcases hu : unpack f x st with ⟨u, st'⟩
  rcases hfl : flushIn f x st with ⟨x', st''⟩
  rw [hu] at hst hcls hsign
  rw [hfl] at hst hcls hx' hsign' hlow
  dsimp only at hst hcls hsign hx' hsign' hlow ⊢
  subst hst
  rw [nan_of hx', show (Format.of f).sign = f.signBit from rfl,
    show (Format.of f).infinity = f.inf false from rfl, abs_of_encodes hx', Fmt.and_signBit, hsign',
    hcls, hsign, classify]
  simp only [abs_eq_inf_iff, abs_eq_zero_iff, zero_eq_iff, Ne, Bool.not_eq_false]
  cases hnan : f.isNan x'
  case true =>
    have hne : f.low x' ≠ 0 := by
      rw [Fmt.isNan_iff] at hnan
      omega
    cases hlow hne
    rw [processNan_of hx]
    cases f.isSnan x <;> exact ⟨_, fun _ => ⟨rfl, rfl⟩⟩
  simp only [Bool.false_eq_true, if_false]
  by_cases hz : f.low x' = 0
  · have hi : f.isInf x' = false := by
      have hle := Fmt.fbits_pow_le_infLow f
      have hpos := Nat.two_pow_pos f.fbits
      rw [← Bool.not_eq_true, Fmt.isInf_iff]
      omega
    rw [hi, if_pos hz, BitVec.or_comm, zero_or_inf]
    simp only [hz, if_true, Bool.false_eq_true, if_false]
    exact ⟨_, fun _ => ⟨rfl, rfl⟩⟩
  cases hlow hz
  simp only [if_neg hz]
  cases hs : f.sign x
  case true =>
    rw [if_pos rfl, defaultNan_of]
    cases f.isInf x <;> exact ⟨_, fun _ => ⟨rfl, rfl⟩⟩
  cases hi : f.isInf x
  case true =>
    have hplus : f.zero false = 0#64 := (zero_eq_iff f false).mpr rfl
    simp only [Bool.false_eq_true, if_false, if_true, hplus]
    exact ⟨_, fun _ => ⟨rfl, rfl⟩⟩
  have hfin : f.low x < f.infLow := by
    rw [← Bool.not_eq_true, Fmt.isNan_iff] at hnan
    rw [← Bool.not_eq_true, Fmt.isInf_iff] at hi
    omega
  have hword : x.toNat = f.low x := by
    have := Fmt.toNat_split hx
    rwa [hs, if_neg Bool.false_ne_true, Nat.zero_add] at this
  obtain ⟨r, hr⟩ := estimateNormal_eq hf hword (Nat.pos_of_ne_zero hz) hfin
  refine ⟨(r, st), fun fuel => ?_⟩
  obtain ⟨h1, h2⟩ := hr fuel
  simp only [Bool.false_eq_true, if_false, h1, h2, Option.map_some, and_self]

end Agreement

/-- A single precision operand is the low half of its register. -/
def single (n : U64) : U64 := (n.setWidth 32).setWidth 64

theorem encodes_single (n : U64) : Fmt.s.Encodes (single n) := FpReduce.encodes_word (n.setWidth 32)

/-- **Both estimates agree with the reference** in both formats, results and status, and every loop
ends within 512 tests. -/
theorem reciprocal_agree (ctx : St) (n : U64) :
    (∀ fuel, reciprocalEstimateS (fuel + 512) ctx n = some (frecpe .s (single n) ctx) ∧
      reciprocalEstimateD (fuel + 512) ctx n = some (frecpe .d n ctx)) ∧
    (∃ r, ∀ fuel, estimateS (fuel + 512) ctx n = some r ∧
      frsqrte (fuel + 512) .s (single n) ctx = some r) ∧
    ∃ r, ∀ fuel, estimateD (fuel + 512) ctx n = some r ∧ frsqrte (fuel + 512) .d n ctx = some r := by
  have hs := encodes_single n
  have hd := FpMinmaxNumber.encodes n
  exact ⟨fun fuel => ⟨reciprocalEstimate_eq (by decide) hs fuel,
    reciprocalEstimate_eq (by decide) hd fuel⟩, estimate_eq (by decide) hs, estimate_eq (by decide) hd⟩

end Reciprocal
end Rustarmic
