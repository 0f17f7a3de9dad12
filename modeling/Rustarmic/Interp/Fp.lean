import Rustarmic.Arch

/-!
# Floating-point support of the instruction helpers

What `interp/fp.rs` gives to the helpers: FPCR and FPSR, the three binary formats and their
encodings, the classification of an operand, and the rules of Arm for NaNs and for denormals.

## Encodings

An encoding is a 64-bit word whatever its format, as in the source, where one function serves half,
single and double precision and the format is an argument.  So an operand of single precision could
have bits above bit 31.  The functions here do not look at them, though some pass them on (`quiet`,
`flushIn`), and `Fmt.Encodes` is the statement that there are none; it is a hypothesis where a
result has to be *equal* to another one and not merely to have the same fields.

The source takes fields out with shifts and masks.  For reasoning about values that is the wrong
form: that one magnitude is below another, or that a rounding carries into the exponent, is
arithmetic.  So the masks are turned into quotients and remainders once, in this file.  The number
`Fmt.low x` is the encoding without its sign, and it carries everything: magnitudes are ordered as
these numbers are, an infinity is `infLow`, NaNs are what is above it (`isNan_iff`), and denormals
are what is below `2 ^ fbits` (`isDenormal_iff`).  Later files use these and do not unfold a mask.

## Status

* **Status bits only accumulate.**  A helper gets `St` and returns it, and all it does to FPSR is
  `St.raise`.  Two raises commute and one that is repeated does nothing; that is all the algebra
  that comparing two orders of checks needs.
* **Half-precision operands are never flushed.**  `flushIn` and `unpack` test `f ≠ .h`, since
  FPCR.FZ does not speak of half precision.  `finish` has no such test.
* **There are two places that flush.**  `flushIn` turns a denormal operand into a zero, and `unpack`
  classifies it as one; `unpack_flushIn` says that they agree, in what they raise and in the class.
  After the first one the second one has nothing left to do (`unpack_status`), so that IDC is not
  raised for a second reason.
* **A NaN of the host is an invalid operation.**  `processNans` answers for operands that are NaNs
  before the host computes anything.  What is still a NaN afterwards was made by the operation
  itself, so that `finish` replaces it by the default NaN and raises IOC.
-/

set_option autoImplicit false

namespace Rustarmic
namespace Interp

/-! ## Registers -/

/-- Cumulative exception bits of FPSR. -/
def ioc : U32 := 1#32 <<< 0
def dzc : U32 := 1#32 <<< 1
def ofc : U32 := 1#32 <<< 2
def ufc : U32 := 1#32 <<< 3
def ixc : U32 := 1#32 <<< 4
def idc : U32 := 1#32 <<< 7

/-- FPSR.QC, saturation.  It is no exception and has a bit far from the others. -/
def qc : U32 := 1#32 <<< 27

structure St where
  fpcr : U32
  fpsr : U32
  deriving DecidableEq, Repr

inductive Round where
  | tieEven
  | posInf
  | negInf
  | zero
  | tieAway
  | odd
  deriving DecidableEq, Repr

namespace St

def fz (st : St) : Bool := st.fpcr &&& (1#32 <<< 24) != 0#32

def dn (st : St) : Bool := st.fpcr &&& (1#32 <<< 25) != 0#32

/-- The rounding mode of FPCR.  The two modes that it cannot select, `tieAway` and `odd`, are those
of single instructions. -/
def rmode (st : St) : Round :=
  match ((st.fpcr >>> 22) &&& 3#32).toNat with
  | 0 => .tieEven
  | 1 => .posInf
  | 2 => .negInf
  | _ => .zero

/-- `st.fpsr |= flags`, which is how the source writes it everywhere.  The control register does not
change. -/
def raise (st : St) (flags : U32) : St := { st with fpsr := st.fpsr ||| flags }

def sat (st : St) : St := st.raise qc

variable (st : St) (a b : U32)

@[simp] theorem raise_fpcr : (st.raise a).fpcr = st.fpcr := rfl

@[simp] theorem raise_fpsr : (st.raise a).fpsr = st.fpsr ||| a := rfl

@[simp] theorem raise_fz : (st.raise a).fz = st.fz := rfl

@[simp] theorem raise_dn : (st.raise a).dn = st.dn := rfl

@[simp] theorem raise_rmode : (st.raise a).rmode = st.rmode := rfl

theorem raise_raise : (st.raise a).raise b = st.raise (a ||| b) := by
  rw [raise, raise, raise, BitVec.or_assoc]

theorem raise_self : (st.raise a).raise a = st.raise a := by rw [raise_raise, BitVec.or_self]

theorem raise_comm : (st.raise a).raise b = (st.raise b).raise a := by
  rw [raise_raise, raise_raise, BitVec.or_comm]

end St

/-! ## Formats -/

/-- The low `bits` bits.  A shift by 64 would be none, hence the case. -/
def mask (bits : Nat) : U64 := if 64 ≤ bits then BitVec.allOnes 64 else (1#64 <<< bits) - 1#64

/-- `b as u64`. -/
def u64OfBool (b : Bool) : U64 := if b then 1#64 else 0#64

/-- A binary floating-point format. -/
inductive Fmt where
  | h
  | s
  | d
  deriving DecidableEq, Repr

namespace Fmt

def bits : Fmt → Nat
  | h => 16
  | s => 32
  | d => 64

def ebits : Fmt → Nat
  | h => 5
  | s => 8
  | d => 11

def fbits (f : Fmt) : Nat := f.bits - 1 - f.ebits

def bias (f : Fmt) : Int := 2 ^ (f.ebits - 1) - 1

/-- The exponent field of infinities and NaNs, all ones. -/
def emaxField (f : Fmt) : U64 := (1#64 <<< f.ebits) - 1#64

def signBit (f : Fmt) : U64 := 1#64 <<< (f.bits - 1)

def fracMask (f : Fmt) : U64 := (1#64 <<< f.fbits) - 1#64

/-- A quiet NaN with a clear sign and no payload. -/
def defaultNan (f : Fmt) : U64 := (f.emaxField <<< f.fbits) ||| (1#64 <<< (f.fbits - 1))

def inf (f : Fmt) (sign : Bool) : U64 :=
  (u64OfBool sign <<< (f.bits - 1)) ||| (f.emaxField <<< f.fbits)

def zero (f : Fmt) (sign : Bool) : U64 := u64OfBool sign <<< (f.bits - 1)

def maxNormal (f : Fmt) (sign : Bool) : U64 :=
  (u64OfBool sign <<< (f.bits - 1)) ||| ((f.emaxField - 1#64) <<< f.fbits) ||| f.fracMask

def expField (f : Fmt) (x : U64) : U64 := (x >>> f.fbits) &&& f.emaxField

def sign (f : Fmt) (x : U64) : Bool := (x >>> (f.bits - 1)) &&& 1#64 != 0#64

def isNan (f : Fmt) (x : U64) : Bool :=
  f.expField x == f.emaxField && x &&& f.fracMask != 0#64

/-- A signalling NaN has its quiet bit, the highest one of the fraction, clear. -/
def isSnan (f : Fmt) (x : U64) : Bool :=
  f.isNan x && x &&& (1#64 <<< (f.fbits - 1)) == 0#64

def quiet (f : Fmt) (x : U64) : U64 := x ||| (1#64 <<< (f.fbits - 1))

def isDenormal (f : Fmt) (x : U64) : Bool := f.expField x == 0#64 && x &&& f.fracMask != 0#64

def isInf (f : Fmt) (x : U64) : Bool :=
  f.expField x == f.emaxField && x &&& f.fracMask == 0#64

def abs (f : Fmt) (x : U64) : U64 := x &&& ~~~f.signBit &&& mask f.bits

end Fmt

/-! ## Operands and results -/

inductive Class where
  | zero
  | normal
  | inf
  | qnan
  | snan
  deriving DecidableEq, Repr

/-- An unpacked operand; a finite one is `(-1) ^ sign * mant * 2 ^ exp`. -/
structure Unpacked where
  cls : Class
  sign : Bool
  mant : U64
  exp : Int
  deriving DecidableEq, Repr

/-- Classify `x`, flushing a denormal when FPCR.FZ is set.  A denormal that is not flushed is
`normal` with a mantissa that lacks the leading bit: as a product of mantissa and power of two it is
a number like any other. -/
def unpack (f : Fmt) (x : U64) (st : St) : Unpacked × St :=
  let sign := f.sign x
  let e := f.expField x
  let frac := x &&& f.fracMask
  let fb := f.fbits
  if e = 0#64 then
    if frac = 0#64 ∨ (st.fz ∧ f ≠ .h) then
      (⟨.zero, sign, 0#64, 0⟩, if frac ≠ 0#64 then st.raise idc else st)
    else (⟨.normal, sign, frac, 1 - f.bias - fb⟩, st)
  else if e = f.emaxField then
    let cls :=
      if frac = 0#64 then .inf else if (frac >>> (fb - 1)) &&& 1#64 = 1#64 then .qnan else .snan
    (⟨cls, sign, frac, 0⟩, st)
  else (⟨.normal, sign, frac ||| (1#64 <<< fb), e.toNat - f.bias - fb⟩, st)

/-- One NaN operand: invalid when it is signalling; quieted, or the default NaN. -/
def processNan (f : Fmt) (x : U64) (st : St) : U64 × St :=
  let st := if f.isSnan x then st.raise ioc else st
  (if st.dn then f.defaultNan else f.quiet x, st)

/-- The first signalling NaN among the operands, else the first quiet one: a signalling NaN in the
last operand goes before a quiet one in the first.  The operands' order is the caller's, and differs
between instructions. -/
def processNans (f : Fmt) (ops : List U64) (st : St) : Option (U64 × St) :=
  match ops.find? f.isSnan with
  | some x => some (processNan f x st)
  | none => (ops.find? f.isNan).map fun x => processNan f x st

/-- Flush a denormal input to a signed zero under FPCR.FZ. -/
def flushIn (f : Fmt) (x : U64) (st : St) : U64 × St :=
  if f ≠ .h ∧ st.fz ∧ f.isDenormal x then (f.zero (f.sign x), st.raise idc) else (x, st)

/-- A host result: the default NaN for an invalid operation, and denormals flushed under FZ.  No
operand was a NaN, or `processNans` had given the result. -/
def finish (f : Fmt) (r : U64) (st : St) : U64 × St :=
  if f.isNan r then (f.defaultNan, st.raise ioc)
  else if st.fz ∧ f.isDenormal r then (f.zero (f.sign r), st.raise ufc)
  else (r, st)

/-! ## Fields -/

theorem toNat_mask {bits : Nat} (h : bits ≤ 64) : (mask bits).toNat = 2 ^ bits - 1 := by
  rcases Nat.lt_or_eq_of_le h with h | rfl
  · have hpow : 2 ^ bits < 2 ^ 64 := Nat.pow_lt_pow_right (by decide) h
    have hpos := Nat.two_pow_pos bits
    rw [mask, if_neg (by omega), BitVec.toNat_sub, BitVec.toNat_shiftLeft, BitVec.toNat_one (by decide),
      Nat.shiftLeft_eq, Nat.one_mul, Nat.mod_eq_of_lt hpow]
    omega
  · rfl

/-- A mask takes the remainder. -/
theorem toNat_and_mask {bits : Nat} (h : bits ≤ 64) (x : U64) :
    (x &&& mask bits).toNat = x.toNat % 2 ^ bits := by
  rw [BitVec.toNat_and, toNat_mask h, Nat.and_two_pow_sub_one_eq_mod]

/-- A field in its place, by dividing what is below away and cutting what is above off. -/
theorem nat_and_field (x lo len : Nat) :
    x &&& ((2 ^ len - 1) <<< lo) = x / 2 ^ lo % 2 ^ len * 2 ^ lo := by
  rw [← Nat.shiftRight_eq_div_pow, ← Nat.shiftLeft_eq]
  refine Nat.eq_of_testBit_eq fun i => ?_
  rw [Nat.testBit_and, Nat.testBit_shiftLeft, Nat.testBit_shiftLeft, Nat.testBit_mod_two_pow,
    Nat.testBit_two_pow_sub_one, Nat.testBit_shiftRight]
  by_cases h : lo ≤ i
  · simp [h, Bool.and_comm]
  · simp [h]

/-- A mask of `len` bits from `lo` on takes a field. -/
theorem toNat_and_field {w : Nat} (x : BitVec w) {c : BitVec w} (lo len : Nat)
    (hc : c.toNat = (2 ^ len - 1) <<< lo) :
    (x &&& c).toNat = x.toNat / 2 ^ lo % 2 ^ len * 2 ^ lo := by
  rw [BitVec.toNat_and, hc, nat_and_field]

namespace Fmt

variable (f : Fmt) (x : U64)

/-- Everything but the sign, as a number: the order of the magnitudes is the order of these, since
the exponent stands above the fraction and both grow with the magnitude. -/
def low : Nat := x.toNat % 2 ^ (f.bits - 1)

/-- The same of the infinities.  Below it are the finite numbers, above it are the NaNs. -/
def infLow : Nat := (2 ^ f.ebits - 1) * 2 ^ f.fbits

/-- `x` is an encoding of the format. -/
def Encodes : Prop := x.toNat < 2 ^ f.bits

instance : Decidable (f.Encodes x) := inferInstanceAs (Decidable (_ < _))

theorem toNat_fracMask : f.fracMask.toNat = 2 ^ f.fbits - 1 := by cases f <;> rfl

theorem toNat_emaxField : f.emaxField.toNat = 2 ^ f.ebits - 1 := by cases f <;> rfl

theorem toNat_frac : (x &&& f.fracMask).toNat = f.low x % 2 ^ f.fbits := by
  have hdvd : 2 ^ f.fbits ∣ 2 ^ (f.bits - 1) := Nat.pow_dvd_pow 2 (by cases f <;> decide)
  rw [BitVec.toNat_and, toNat_fracMask, Nat.and_two_pow_sub_one_eq_mod, low,
    Nat.mod_mod_of_dvd _ hdvd]

theorem bits_split : 2 ^ (f.bits - 1) = 2 ^ f.fbits * 2 ^ f.ebits := by
  rw [← Nat.pow_add]
  cases f <;> rfl

theorem toNat_expField : (f.expField x).toNat = f.low x / 2 ^ f.fbits := by
  rw [expField, BitVec.toNat_and, toNat_emaxField, Nat.and_two_pow_sub_one_eq_mod,
    BitVec.toNat_ushiftRight, Nat.shiftRight_eq_div_pow, low, bits_split, Nat.mod_mul_right_div_self]

theorem low_lt : f.low x < 2 ^ f.fbits * 2 ^ f.ebits := by
  rw [low, ← bits_split]
  exact Nat.mod_lt _ (Nat.two_pow_pos _)

variable {f x}

/-- A comparison with the infinities, by exponent and fraction.  The source tests the two fields,
and this is the step from that to an inequality. -/
theorem infLow_lt_iff {l : Nat} (h : l < 2 ^ f.fbits * 2 ^ f.ebits) :
    f.infLow < l ↔ l / 2 ^ f.fbits = 2 ^ f.ebits - 1 ∧ l % 2 ^ f.fbits ≠ 0 := by
  have hpos := Nat.two_pow_pos f.fbits
  have hq : l / 2 ^ f.fbits < 2 ^ f.ebits := Nat.div_lt_of_lt_mul h
  have hl := Nat.div_add_mod' l (2 ^ f.fbits)
  rw [infLow]
  constructor
  · intro hlt
    have hge : 2 ^ f.ebits - 1 ≤ l / 2 ^ f.fbits := (Nat.le_div_iff_mul_le hpos).mpr hlt.le
    have heq : l / 2 ^ f.fbits = 2 ^ f.ebits - 1 := by omega
    rw [heq] at hl
    exact ⟨heq, by omega⟩
  · rintro ⟨heq, hne⟩
    rw [heq] at hl
    omega

theorem isNan_iff : f.isNan x = true ↔ f.infLow < f.low x := by
  rw [isNan, Bool.and_eq_true, beq_iff_eq, bne_iff_ne, ← BitVec.toNat_inj, Ne, ← BitVec.toNat_inj,
    toNat_frac, toNat_expField, toNat_emaxField, infLow_lt_iff (f.low_lt x)]
  rfl

theorem isInf_iff : f.isInf x = true ↔ f.low x = f.infLow := by
  have hl := Nat.div_add_mod' (f.low x) (2 ^ f.fbits)
  rw [isInf, Bool.and_eq_true, beq_iff_eq, beq_iff_eq, ← BitVec.toNat_inj, ← BitVec.toNat_inj,
    toNat_frac, toNat_expField, toNat_emaxField, infLow]
  constructor
  · rintro ⟨heq, hzero⟩
    rw [heq, hzero] at hl
    exact hl.symm
  · intro heq
    rw [heq, Nat.mul_div_cancel _ (Nat.two_pow_pos _), Nat.mul_mod_left]
    exact ⟨rfl, rfl⟩

theorem isDenormal_iff : f.isDenormal x = true ↔ 0 < f.low x ∧ f.low x < 2 ^ f.fbits := by
  have hl := Nat.div_add_mod' (f.low x) (2 ^ f.fbits)
  rw [isDenormal, Bool.and_eq_true, beq_iff_eq, bne_iff_ne, ← BitVec.toNat_inj, Ne,
    ← BitVec.toNat_inj, toNat_frac, toNat_expField, BitVec.toNat_zero,
    Nat.div_eq_zero_iff_lt (Nat.two_pow_pos _)]
  constructor
  · rintro ⟨hlt, hne⟩
    rw [Nat.mod_eq_of_lt hlt] at hne
    exact ⟨by omega, hlt⟩
  · rintro ⟨hpos, hlt⟩
    rw [Nat.mod_eq_of_lt hlt]
    exact ⟨hlt, by omega⟩

/-- The test of the quiet bit, as a digit. -/
theorem quietBit_iff : (x &&& (1#64 <<< (f.fbits - 1)) == 0#64) = true ↔
    x.toNat / 2 ^ (f.fbits - 1) % 2 = 0 := by
  have hc : (1#64 <<< (f.fbits - 1)).toNat = (2 ^ 1 - 1) <<< (f.fbits - 1) := by cases f <;> rfl
  have hpos := Nat.two_pow_pos (f.fbits - 1)
  rw [beq_iff_eq, ← BitVec.toNat_inj, toNat_and_field x _ 1 hc, BitVec.toNat_zero, pow_one,
    Nat.mul_eq_zero]
  omega

theorem sign_iff : f.sign x = true ↔ x.toNat / 2 ^ (f.bits - 1) % 2 = 1 := by
  rw [sign, bne_iff_ne, Ne, ← BitVec.toNat_inj, BitVec.toNat_and, BitVec.toNat_ushiftRight,
    Nat.shiftRight_eq_div_pow, BitVec.toNat_one (by decide), Nat.and_one_is_mod, BitVec.toNat_zero]
  omega

/-- An encoding is its sign and the rest. -/
theorem toNat_split (h : f.Encodes x) :
    x.toNat = (if f.sign x then 2 ^ (f.bits - 1) else 0) + f.low x := by
  have hsplit : 2 ^ f.bits = 2 * 2 ^ (f.bits - 1) := by cases f <;> rfl
  have hl := Nat.div_add_mod' x.toNat (2 ^ (f.bits - 1))
  have hq : x.toNat / 2 ^ (f.bits - 1) < 2 := by
    refine Nat.div_lt_of_lt_mul ?_
    rw [Nat.mul_comm, ← hsplit]
    exact h
  rw [low]
  by_cases hs : f.sign x = true
  · rw [if_pos hs]
    rw [sign_iff] at hs
    generalize x.toNat / 2 ^ (f.bits - 1) = q at hq hs hl
    obtain rfl : q = 1 := by omega
    omega
  · rw [if_neg hs]
    rw [sign_iff] at hs
    generalize x.toNat / 2 ^ (f.bits - 1) = q at hq hs hl
    obtain rfl : q = 0 := by omega
    omega

/-- The sign and the rest determine an encoding. -/
theorem encoding_ext {y : U64} (hx : f.Encodes x) (hy : f.Encodes y) (hs : f.sign x = f.sign y)
    (hl : f.low x = f.low y) : x = y := by
  rw [← BitVec.toNat_inj, toNat_split hx, toNat_split hy, hs, hl]

theorem toNat_zero (s : Bool) : (f.zero s).toNat = if s then 2 ^ (f.bits - 1) else 0 := by
  cases f <;> cases s <;> rfl

@[simp] theorem low_zero (s : Bool) : f.low (f.zero s) = 0 := by
  cases f <;> cases s <;> rfl

@[simp] theorem sign_zero (s : Bool) : f.sign (f.zero s) = s := by
  cases f <;> cases s <;> rfl

theorem encodes_zero (s : Bool) : f.Encodes (f.zero s) := by
  cases f <;> cases s <;> decide

theorem low_inf (s : Bool) : f.low (f.inf s) = f.infLow := by
  cases f <;> cases s <;> rfl

@[simp] theorem sign_inf (s : Bool) : f.sign (f.inf s) = s := by
  cases f <;> cases s <;> rfl

theorem encodes_inf (s : Bool) : f.Encodes (f.inf s) := by
  cases f <;> cases s <;> decide

/-- The sign bit alone is a zero. -/
theorem and_signBit (f : Fmt) (x : U64) : x &&& f.signBit = f.zero (f.sign x) := by
  have hc : f.signBit.toNat = (2 ^ 1 - 1) <<< (f.bits - 1) := by cases f <;> rfl
  rw [← BitVec.toNat_inj, toNat_and_field x _ 1 hc, toNat_zero, pow_one]
  by_cases hs : f.sign x = true
  · rw [if_pos hs, sign_iff.mp hs, Nat.one_mul]
  · rw [if_neg hs]
    rw [sign_iff] at hs
    rw [show x.toNat / 2 ^ (f.bits - 1) % 2 = 0 by omega, Nat.zero_mul]

theorem isSnan_imp (h : f.isSnan x = true) : f.isNan x = true := by
  rw [isSnan, Bool.and_eq_true] at h
  exact h.1

theorem fbits_pow_le_infLow (f : Fmt) : 2 ^ f.fbits ≤ f.infLow := by
  cases f <;> decide

/-- A denormal is a number. -/
theorem not_isNan_of_isDenormal (h : f.isDenormal x = true) : f.isNan x = false := by
  rw [isDenormal_iff] at h
  have := fbits_pow_le_infLow f
  rw [← Bool.not_eq_true, isNan_iff]
  omega

theorem not_isNan_zero (s : Bool) : f.isNan (f.zero s) = false := by
  rw [← Bool.not_eq_true, isNan_iff, low_zero]
  omega

theorem not_isDenormal_zero (s : Bool) : f.isDenormal (f.zero s) = false := by
  rw [← Bool.not_eq_true, isDenormal_iff, low_zero]
  omega

theorem not_isNan_inf (s : Bool) : f.isNan (f.inf s) = false := by
  rw [← Bool.not_eq_true, isNan_iff, low_inf]
  omega

theorem not_isDenormal_inf (s : Bool) : f.isDenormal (f.inf s) = false := by
  have := fbits_pow_le_infLow f
  rw [← Bool.not_eq_true, isDenormal_iff, low_inf]
  omega

end Fmt

/-! ## Flushing -/

section Flush

variable {f : Fmt} {x : U64} {st : St}

/-- An operand that needs no flushing: FZ is clear, or it is no denormal. -/
theorem flushIn_of_not (h : st.fz = true → f.isDenormal x = false) : flushIn f x st = (x, st) := by
  rw [flushIn, if_neg]
  rintro ⟨-, hfz, hden⟩
  rw [h hfz] at hden
  exact absurd hden Bool.false_ne_true

theorem flushIn_of_fz (hz : st.fz = false) : flushIn f x st = (x, st) :=
  flushIn_of_not fun hfz => absurd (hz.symm.trans hfz) Bool.false_ne_true

theorem processNan_of_dn (hd : st.dn = false) : (processNan f x st).1 = f.quiet x := by
  rw [processNan]
  dsimp only
  split_ifs with hs hdn hdn
  · rw [St.raise_dn, hd] at hdn
    exact absurd hdn Bool.false_ne_true
  · rfl
  · rw [hd] at hdn
    exact absurd hdn Bool.false_ne_true
  · rfl

/-- With FPCR zero nothing is flushed and NaNs keep their payload.  Inline sequences that ignore
FPCR are compared with the helpers under this setting. -/
theorem clear_fz (fpsr : U32) : (⟨0, fpsr⟩ : St).fz = false ∧ (⟨0, fpsr⟩ : St).dn = false :=
  ⟨(by decide : (0#32 &&& (1#32 <<< 24) != 0#32) = false),
    (by decide : (0#32 &&& (1#32 <<< 25) != 0#32) = false)⟩

theorem flushIn_of_isNan (h : f.isNan x = true) : flushIn f x st = (x, st) := by
  refine flushIn_of_not fun _ => ?_
  rw [← Bool.not_eq_true]
  intro hden
  rw [Fmt.not_isNan_of_isDenormal hden] at h
  exact absurd h Bool.false_ne_true

@[simp] theorem flushIn_fpcr : (flushIn f x st).2.fpcr = st.fpcr := by
  rw [flushIn]
  split <;> rfl

@[simp] theorem flushIn_fz : (flushIn f x st).2.fz = st.fz := by
  rw [St.fz, flushIn_fpcr, ← St.fz]

/-- A flushed operand is no denormal under FZ. -/
theorem flushIn_denormal (hf : f ≠ .h) (hfz : st.fz = true) :
    f.isDenormal (flushIn f x st).1 = false := by
  rw [flushIn]
  split
  · exact Fmt.not_isDenormal_zero _
  case isFalse h =>
    rw [← Bool.not_eq_true]
    exact fun hden => h ⟨hf, hfz, hden⟩

@[simp] theorem isNan_flushIn : f.isNan (flushIn f x st).1 = f.isNan x := by
  rw [flushIn]
  split
  case isTrue h => rw [Fmt.not_isNan_zero, Fmt.not_isNan_of_isDenormal h.2.2]
  case isFalse => rfl

@[simp] theorem sign_flushIn : f.sign (flushIn f x st).1 = f.sign x := by
  rw [flushIn]
  split
  · exact Fmt.sign_zero _
  · rfl

theorem encodes_flushIn (h : f.Encodes x) : f.Encodes (flushIn f x st).1 := by
  rw [flushIn]
  split
  · exact Fmt.encodes_zero _
  · exact h

end Flush

/-! ## Classes -/

section Classes

variable {f : Fmt} {x : U64} {st : St}

/-- The class of an operand that has been flushed, by the conditions on `low`; a denormal counts as
a number. -/
def classify (f : Fmt) (x : U64) : Class :=
  if f.isNan x then if f.isSnan x then .snan else .qnan
  else if f.isInf x then .inf
  else if f.low x = 0 then .zero
  else .normal

theorem expField_eq_zero : f.expField x = 0#64 ↔ f.low x < 2 ^ f.fbits := by
  rw [← BitVec.toNat_inj, Fmt.toNat_expField, BitVec.toNat_zero,
    Nat.div_eq_zero_iff_lt (Nat.two_pow_pos f.fbits)]

theorem frac_eq_zero : x &&& f.fracMask = 0#64 ↔ f.low x % 2 ^ f.fbits = 0 := by
  rw [← BitVec.toNat_inj, Fmt.toNat_frac, BitVec.toNat_zero]

/-- The quiet bit, as the classification reads it. -/
theorem quietBit_of (x : U64) : ((x &&& f.fracMask) >>> (f.fbits - 1)) &&& 1#64 = 1#64 ↔
    (x &&& (1#64 <<< (f.fbits - 1)) == 0#64) = false := by
  have hpos : 0 < f.fbits := by cases f <;> decide
  have hdvd : 2 ^ f.fbits = 2 ^ (f.fbits - 1) * 2 := by
    rw [← pow_succ]
    congr 1
    omega
  rw [← Bool.not_eq_true, Fmt.quietBit_iff, ← BitVec.toNat_inj, BitVec.toNat_and,
    BitVec.toNat_ushiftRight, Nat.shiftRight_eq_div_pow, BitVec.toNat_and, Fmt.toNat_fracMask,
    Nat.and_two_pow_sub_one_eq_mod, BitVec.toNat_one (by decide), Nat.and_one_is_mod, hdvd,
    Nat.mod_mul_right_div_self]
  omega

theorem unpack_sign : (unpack f x st).1.sign = f.sign x := by
  rw [unpack]
  dsimp only
  split_ifs <;> rfl

/-- An operand that has been flushed raises nothing when it is unpacked. -/
theorem unpack_status (h : st.fz = true → f.isDenormal x = false) : (unpack f x st).2 = st := by
  rw [unpack]
  dsimp only
  split_ifs with he hz hne
  case pos =>
    have hfz : st.fz = true := by
      rcases hz with h0 | h0
      · exact absurd h0 hne
      · exact h0.1
    have hden := h hfz
    rw [Fmt.isDenormal, he, Bool.and_eq_false_iff] at hden
    simp [hne] at hden
  all_goals rfl

theorem unpack_zero (h : st.fz = true → f.isDenormal x = false) :
    (unpack f x st).1.cls = .zero ↔ f.low x = 0 := by
  have hfrac : f.low x < 2 ^ f.fbits → (x &&& f.fracMask = 0#64 ↔ f.low x = 0) := by
    intro hlt
    rw [frac_eq_zero, Nat.mod_eq_of_lt hlt]
  rw [unpack]
  dsimp only
  by_cases h1 : f.expField x = 0#64
  · rw [if_pos h1]
    rw [expField_eq_zero] at h1
    simp only [hfrac h1]
    by_cases h2 : f.low x = 0
    · rw [if_pos (Or.inl h2)]
      exact ⟨fun _ => h2, fun _ => rfl⟩
    · have hnot : ¬(st.fz = true ∧ f ≠ .h) := by
        rintro ⟨hfz, -⟩
        rw [← Bool.not_eq_true, Fmt.isDenormal_iff] at h
        exact h hfz ⟨Nat.pos_of_ne_zero h2, h1⟩
      rw [if_neg (fun h0 => h0.elim h2 hnot)]
      simp [h2]
  · have hlow : f.low x ≠ 0 := by
      rw [expField_eq_zero] at h1
      intro h0
      rw [h0] at h1
      exact h1 (Nat.two_pow_pos f.fbits)
    rw [if_neg h1]
    split_ifs <;> simp [hlow]

/-- The nested tests of `unpack` give the class: first the fields that are zero, then those that are
all ones. -/
theorem unpack_cls (h : st.fz = true → f.isDenormal x = false) :
    (unpack f x st).1.cls = classify f x := by
  have hzero := unpack_zero h
  rw [classify]
  by_cases hlow : f.low x < 2 ^ f.fbits
  · -- Zeros and denormals.
    have hnan : f.isNan x = false := by
      have := Fmt.fbits_pow_le_infLow f
      rw [← Bool.not_eq_true, Fmt.isNan_iff]
      omega
    have hinf : f.isInf x = false := by
      have := Fmt.fbits_pow_le_infLow f
      rw [← Bool.not_eq_true, Fmt.isInf_iff]
      omega
    rw [hnan, hinf, if_neg Bool.false_ne_true, if_neg Bool.false_ne_true]
    split
    case isTrue h0 => exact hzero.mpr h0
    case isFalse h0 =>
      rw [← hzero] at h0
      revert h0
      rw [unpack]
      dsimp only
      rw [if_pos (expField_eq_zero.mpr hlow)]
      split
      · intro h0
        exact absurd rfl h0
      · intro _
        rfl
  · have hne : f.expField x ≠ 0#64 := fun h0 => hlow (expField_eq_zero.mp h0)
    have hpos := Nat.two_pow_pos f.fbits
    rw [unpack]
    dsimp only
    rw [if_neg hne]
    by_cases hmax : f.expField x = f.emaxField
    · rw [if_pos hmax]
      by_cases hfrac : x &&& f.fracMask = 0#64
      · have hnan : f.isNan x = false := by simp [Fmt.isNan, hfrac]
        have hinf : f.isInf x = true := by simp [Fmt.isInf, hmax, hfrac]
        rw [if_pos hfrac, hnan, hinf, if_neg Bool.false_ne_true, if_pos rfl]
      · have hnan : f.isNan x = true := by simp [Fmt.isNan, hmax, hfrac]
        rw [if_neg hfrac, hnan, if_pos rfl, Fmt.isSnan, hnan, Bool.true_and]
        simp only [quietBit_of]
        cases (x &&& (1#64 <<< (f.fbits - 1)) == 0#64) <;> rfl
    · have hnan : f.isNan x = false := by simp [Fmt.isNan, hmax]
      have hinf : f.isInf x = false := by simp [Fmt.isInf, hmax]
      rw [if_neg hmax, hnan, hinf, if_neg Bool.false_ne_true, if_neg Bool.false_ne_true,
        if_neg (by omega)]

/-- **The two places that flush agree.**  Classifying an operand reports what flushing it reports,
and gives the class of the flushed operand. -/
theorem unpack_flushIn (hf : f ≠ .h) : (unpack f x st).2 = (flushIn f x st).2 ∧
    (unpack f x st).1.cls = classify f (flushIn f x st).1 := by
  by_cases h : st.fz = true ∧ f.isDenormal x = true
  · -- A denormal is flushed to a zero.
    have hden := Fmt.isDenormal_iff.mp h.2
    have hmod := Nat.mod_eq_of_lt hden.2
    have hinf := Fmt.fbits_pow_le_infLow f
    have hpos := Nat.two_pow_pos f.fbits
    have hzinf : f.isInf (f.zero (f.sign x)) = false := by
      rw [← Bool.not_eq_true, Fmt.isInf_iff, Fmt.low_zero]
      omega
    rw [flushIn, if_pos ⟨hf, h⟩, unpack, classify, Fmt.not_isNan_zero, hzinf, Fmt.low_zero]
    dsimp only
    rw [if_pos (expField_eq_zero.mpr hden.2), if_pos (Or.inr ⟨h.1, hf⟩), if_pos]
    · exact ⟨rfl, rfl⟩
    · rw [Ne, frac_eq_zero, hmod]
      omega
  · have hnot : st.fz = true → f.isDenormal x = false := by
      intro hz
      rw [← Bool.not_eq_true]
      exact fun hd => h ⟨hz, hd⟩
    rw [flushIn_of_not hnot]
    exact ⟨unpack_status hnot, unpack_cls hnot⟩

end Classes

end Interp
end Rustarmic
