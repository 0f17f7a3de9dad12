import Rustarmic.Backend.AbsoluteOps
import Rustarmic.Interp.MulAdd

/-!
# Fused multiply-add of the generated code

The out-of-line routine that sorts out NaNs and invalid operations before the host's `mul_add`,
against the instruction helper.

* `scalarFmaSpecial`, `scalarFmaS`, `scalarFmaD` — the routine.
* `specialWith_eq` — what it returns, by the classes of the operands.
* `scalarFma_agrees` — the two are the same.

Both sides leave valid operations on numbers to the host's fused multiply-add, which is a parameter
with the assumption `IsMulAdd`: the exact sum, rounded once.  So the theorem is about everything
else.

* **The order of operands.**  Arm looks for a signalling NaN first, and then for a quiet one, each
  time in the order addend, multiplicand, multiplier.  The host's order is another one, and this is
  why the routine exists.
* **Infinity times zero** with a quiet NaN as the addend is the default NaN and not the addend,
  which is quiet.
* **What reaches the host** is neither a NaN nor an invalid operation (`specialOf_eq_none`); the
  theorem says so, so that the assumption about the host need not cover them.

The routine works on masks of the format and the helper on fields.  `specialWith` is the routine
with the constants as arguments, and `specialOf` says what that means by classes; the proofs compare
the latter.
-/

set_option autoImplicit false

namespace Rustarmic
namespace FusedMulAdd

open Interp AbsoluteCompare AbsoluteDifference

/-! ## The routine -/

/-- Special values in the order addend, multiplicand, multiplier; signalling NaNs take
precedence. -/
def scalarFmaSpecial (n m a : U64) (double : Bool) : Option U64 :=
  let (exponent, fraction, quiet, sign) :=
    if double then
      (0x7ff0000000000000#64, 0x000fffffffffffff#64, 0x0008000000000000#64, 0x8000000000000000#64)
    else (0x7f800000#64, 0x007fffff#64, 0x00400000#64, 0x80000000#64)
  let nan := fun v : U64 => v &&& exponent == exponent && v &&& fraction != 0#64
  let infinity := fun v : U64 => v &&& ~~~sign == exponent
  let zero := fun v : U64 => v &&& ~~~sign == 0#64
  let invalidProduct := (infinity n && zero m) || (zero n && infinity m)
  match [a, n, m].find? (fun operand => nan operand && operand &&& quiet == 0#64) with
  | some operand => some (operand ||| quiet)
  | none =>
    -- Zero times infinity overrides a quiet NaN addend.
    if nan a && invalidProduct then some (exponent ||| quiet)
    else
      match [a, n, m].find? nan with
      | some operand => some (operand ||| quiet)
      | none =>
        let invalidSum :=
          infinity a && (infinity n || infinity m) && (n ^^^ m ^^^ a) &&& sign != 0#64
        if invalidProduct || invalidSum then some (exponent ||| quiet) else none

def scalarFmaS (fma : HostMulAdd) (n m a : U64) : U64 :=
  let n := (n.setWidth 32).setWidth 64
  let m := (m.setWidth 32).setWidth 64
  let a := (a.setWidth 32).setWidth 64
  match scalarFmaSpecial n m a false with
  | some value => value
  | none => (fma.op32 (n.setWidth 32) (m.setWidth 32) (a.setWidth 32)).setWidth 64

def scalarFmaD (fma : HostMulAdd) (n m a : U64) : U64 :=
  match scalarFmaSpecial n m a true with
  | some value => value
  | none => fma.op n m a

/-! ## Classes of operands -/

section classes

variable {f : Fmt} {n m a x : U64} {st : St}

theorem exponent_eq (f : Fmt) (x : U64) :
    (x &&& (f.emaxField <<< f.fbits) == f.emaxField <<< f.fbits) = (f.expField x == f.emaxField) := by
  have hc : (f.emaxField <<< f.fbits).toNat = (2 ^ f.ebits - 1) <<< f.fbits := by cases f <;> rfl
  have hpos := Nat.two_pow_pos f.fbits
  rw [Bool.eq_iff_iff, beq_iff_eq, beq_iff_eq, ← BitVec.toNat_inj, ← BitVec.toNat_inj,
    toNat_and_field x f.fbits f.ebits hc, hc, Nat.shiftLeft_eq, Nat.mul_left_inj hpos.ne', Fmt.expField,
    BitVec.toNat_and, Fmt.toNat_emaxField, Nat.and_two_pow_sub_one_eq_mod, BitVec.toNat_ushiftRight,
    Nat.shiftRight_eq_div_pow]

theorem infinity_eq (h : f.Encodes x) :
    (x &&& ~~~f.signBit == f.emaxField <<< f.fbits) = f.isInf x := by
  have hc : (f.emaxField <<< f.fbits).toNat = f.infLow := by cases f <;> rfl
  rw [abs_of_encodes h, Bool.eq_iff_iff, beq_iff_eq, ← BitVec.toNat_inj, toNat_abs, hc, Fmt.isInf_iff]

theorem isZero_iff : f.isZero x = true ↔ f.low x = 0 := by
  rw [Fmt.isZero, beq_iff_eq, ← BitVec.toNat_inj, BitVec.toNat_zero, ← toNat_abs, Fmt.abs]

theorem zero_eq (h : f.Encodes x) : (x &&& ~~~f.signBit == 0#64) = f.isZero x := by
  rw [abs_of_encodes h]
  rfl

/-- `scalarFmaSpecial` with the constants of the format. -/
def specialWith (f : Fmt) (n m a : U64) : Option U64 :=
  let exponent := f.emaxField <<< f.fbits
  let nan := fun v : U64 => v &&& exponent == exponent && v &&& f.fracMask != 0#64
  let infinity := fun v : U64 => v &&& ~~~f.signBit == exponent
  let zero := fun v : U64 => v &&& ~~~f.signBit == 0#64
  let invalidProduct := (infinity n && zero m) || (zero n && infinity m)
  match [a, n, m].find? (fun operand => nan operand && operand &&& (1#64 <<< (f.fbits - 1)) == 0#64) with
  | some operand => some (f.quiet operand)
  | none =>
    if nan a && invalidProduct then some f.defaultNan
    else
      match [a, n, m].find? nan with
      | some operand => some (f.quiet operand)
      | none =>
        let invalidSum :=
          infinity a && (infinity n || infinity m) && (n ^^^ m ^^^ a) &&& f.signBit != 0#64
        if invalidProduct || invalidSum then some f.defaultNan else none

theorem scalarFmaSpecial_eq_specialWith (double : Bool) :
    scalarFmaSpecial n m a double = specialWith (fmt double) n m a := by
  cases double <;> rfl

/-- What the routine returns, by the classes of the operands. -/
def specialOf (f : Fmt) (n m a : U64) : Option U64 :=
  match [a, n, m].find? f.isSnan with
  | some operand => some (f.quiet operand)
  | none =>
    if f.isNan a && ((f.isInf n && f.isZero m) || (f.isZero n && f.isInf m)) then some f.defaultNan
    else
      match [a, n, m].find? f.isNan with
      | some operand => some (f.quiet operand)
      | none => if invalidMulAdd f n m a then some f.defaultNan else none

theorem sign_xor (f : Fmt) (x y : U64) : f.sign (x ^^^ y) = (f.sign x ^^ f.sign y) := by
  rw [sign_eq_getLsbD, sign_eq_getLsbD, sign_eq_getLsbD, BitVec.getLsbD_xor]

theorem signBit_ne (f : Fmt) (x : U64) : (x &&& f.signBit != 0#64) = f.sign x := by
  rw [Fmt.and_signBit]
  cases f.sign x <;> cases f <;> rfl

theorem specialWith_eq (hn : f.Encodes n) (hm : f.Encodes m) (ha : f.Encodes a) :
    specialWith f n m a = specialOf f n m a := by
  have hnan : ∀ x : U64, ((x &&& (f.emaxField <<< f.fbits) == f.emaxField <<< f.fbits) &&
      x &&& f.fracMask != 0#64) = f.isNan x := fun x => by rw [exponent_eq, Fmt.isNan]
  have hsnan : ∀ x : U64, (f.isNan x && x &&& (1#64 <<< (f.fbits - 1)) == 0#64) = f.isSnan x :=
    fun _ => rfl
  rw [specialWith, specialOf]
  simp only [hnan, hsnan, infinity_eq hn, infinity_eq hm, infinity_eq ha, zero_eq hn, zero_eq hm,
    signBit_ne, sign_xor]
  rfl

end classes

/-! ## Agreement -/

section agreement

variable {f : Fmt} {n m a : U64} {st : St}

theorem find_triple {α : Type} (p : α → Bool) (a b c : α) : [a, b, c].find? p =
    if p a then some a else if p b then some b else if p c then some c else none := by
  cases ha : p a <;> cases hb : p b <;> cases hc : p c <;> simp [List.find?, ha, hb, hc]

/-- **No NaN and a valid operation** are all that is left to the host. -/
theorem specialOf_eq_none : specialOf f n m a = none ↔
    f.isNan a = false ∧ f.isNan n = false ∧ f.isNan m = false ∧ invalidMulAdd f n m a = false := by
  rw [specialOf, find_triple, find_triple]
  cases hsa : f.isSnan a
  case true => simp [Fmt.isSnan_imp hsa]
  cases hsn : f.isSnan n
  case true => simp [Fmt.isSnan_imp hsn]
  cases hsm : f.isSnan m
  case true => simp [Fmt.isSnan_imp hsm]
  cases f.isNan a
  case true =>
    simp only [Bool.false_eq_true, if_false, if_true, Bool.true_and]
    split_ifs <;> simp
  cases f.isNan n
  case true => simp
  cases f.isNan m
  case true => simp
  cases invalidMulAdd f n m a <;> simp

theorem infTimesZero_false (f : Fmt) (n m : U64) :
    infTimesZero f false n m = ((f.isInf n && f.isZero m) || (f.isZero n && f.isInf m)) := by
  simp [infTimesZero, flushQuiet]

/-- The helper, by the classes of the operands. -/
theorem fmuladd_eq (fma : HostMulAdd) (h : IsMulAdd fma) (hf : f ≠ .h) (hn : f.Encodes n)
    (hm : f.Encodes m) (ha : f.Encodes a) (hz : st.fz = false) (hd : st.dn = false) :
    (fmuladd fma f a n m st).1 = (specialOf f n m a).getD (mulAdd fma f n m a) := by
  have hflush : ∀ x, flushIn f x st = (x, st) := fun _ => flushIn_of_fz hz
  have hquiet : ∀ x, (processNan f x st).1 = f.quiet x := fun _ => processNan_of_dn hd
  rw [fmuladd, specialOf, processNans, find_triple, find_triple, hz, infTimesZero_false]
  dsimp only
  cases hsa : f.isSnan a
  case true => simp [hquiet]
  cases hsn : f.isSnan n
  case true => simp [hquiet]
  cases hsm : f.isSnan m
  case true => simp [hquiet]
  cases hna : f.isNan a
  case true =>
    -- An invalid product overrides the quiet NaN.
    cases (f.isInf n && f.isZero m) || (f.isZero n && f.isInf m) <;> simp [hquiet]
  cases hnn : f.isNan n
  case true => simp [hquiet]
  cases hnm : f.isNan m
  case true => simp [hquiet]
  have hhost := h.isNan hf ⟨⟨hn, hm, ha⟩, hnn, hnm, hna⟩
  simp only [Bool.false_eq_true, if_false, Bool.false_and, Option.map_none, hflush, finish, hhost, hz,
    false_and]
  cases invalidMulAdd f n m a <;> rfl

/-- **The two are the same**, for operands of the format, whatever FPSR is; and nothing but a valid
operation on numbers reaches the host. -/
theorem scalarFma_agrees (fma : HostMulAdd) (h : IsMulAdd fma) :
    (∀ (n m a fpsr : U32), scalarFmaS fma (n.setWidth 64) (m.setWidth 64) (a.setWidth 64) =
      (fmuladd fma .s (a.setWidth 64) (n.setWidth 64) (m.setWidth 64) ⟨0, fpsr⟩).1) ∧
    (∀ (n m a : U64) (fpsr : U32), scalarFmaD fma n m a = (fmuladd fma .d a n m ⟨0, fpsr⟩).1) ∧
    ∀ (double : Bool) (n m a : U64), (fmt double).Encodes n → (fmt double).Encodes m →
      (fmt double).Encodes a → scalarFmaSpecial n m a double = none →
      Numbers (fmt double) n m a ∧ invalidMulAdd (fmt double) n m a = false := by
  have hclear {fpsr : U32} := clear_fz fpsr
  refine ⟨fun n m a fpsr => ?_, fun n m a fpsr => ?_, fun double n m a hn hm ha hnone => ?_⟩
  · have hword : ∀ x : U32, Fmt.s.Encodes (x.setWidth 64) := fun x => FpReduce.encodes_word x
    rw [fmuladd_eq fma h (by decide) (hword n) (hword m) (hword a) hclear.1 hclear.2, scalarFmaS]
    simp only [setWidth_single (hword _)]
    rw [scalarFmaSpecial_eq_specialWith, fmt, if_neg Bool.false_ne_true,
      specialWith_eq (hword n) (hword m) (hword a)]
    cases specialOf .s (n.setWidth 64) (m.setWidth 64) (a.setWidth 64) <;> rfl
  · have hall : ∀ x : U64, Fmt.d.Encodes x := FpMinmaxNumber.encodes
    rw [fmuladd_eq fma h (by decide) (hall n) (hall m) (hall a) hclear.1 hclear.2, scalarFmaD,
      scalarFmaSpecial_eq_specialWith, fmt, if_pos rfl, specialWith_eq (hall n) (hall m) (hall a)]
    cases specialOf .d n m a <;> rfl
  · rw [scalarFmaSpecial_eq_specialWith, specialWith_eq hn hm ha, specialOf_eq_none] at hnone
    exact ⟨⟨⟨hn, hm, ha⟩, hnone.2.1, hnone.2.2.1, hnone.1⟩, hnone.2.2.2⟩

/-- A host that rounds once. -/
theorem scalarFma_agrees_infinity :
    IsMulAdd fusedHost ∧ scalarFmaD fusedHost 0x7FF0000000000000#64 0#64 0x7FF8000000000001#64 =
      (fmuladd fusedHost .d 0x7FF8000000000001#64 0x7FF0000000000000#64 0#64 ⟨0, 0⟩).1 :=
  ⟨isMulAdd_fusedHost, (scalarFma_agrees fusedHost isMulAdd_fusedHost).2.1 _ _ _ _⟩

end agreement

end FusedMulAdd
end Rustarmic
