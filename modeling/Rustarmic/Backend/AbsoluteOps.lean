import Rustarmic.Backend.FpMinMax
import Rustarmic.Interp.ThreeSame

/-!
# Absolute comparison and difference

The out-of-line helpers of the generated code for FACGE / FACGT, on integer encodings, and for FABD
with a NaN operand, against the instruction helpers.

* `absoluteCompare`, `AbsoluteDifference.special` — the helpers.
* `HostSub` — what is assumed of the host subtraction, which both sides use.
* `absolute_agree_iff` — where the two sides agree.

**Comparison.**  Without their signs, encodings are in the order of the numbers they stand for, so
the generated code compares integers.  The reference compares numbers, and the two masks are always
the same.  The status is not: under FPCR.FZ the helper flushes both operands before it looks for
NaNs, and reports IDC for a denormal; the reference answers a NaN first and never sees the denormal
of the other operand.  `missed` is that case, and the equivalence says that it is the only one, up
to an IDC that was set already.

**Difference.**  Here only the NaN path is out of line; numbers go to the host's subtraction in
both.  The reference takes the absolute value of whatever the subtraction gives, NaNs included,
while the helper selects the NaN operand and clears its sign then.  That is the same since selection
does not look at signs (`special_eq`).  The comparison is made with FZ clear: with FZ set the two
would have to agree on flushing as well.
-/

set_option autoImplicit false

namespace Rustarmic

open Interp

/-! ## The helpers -/

namespace AbsoluteCompare

/-- Flush a denormal magnitude. -/
def flush (exponent fraction : U64) (ctx : St) (value : U64) : U64 × St :=
  if value &&& exponent = 0#64 ∧ value &&& fraction ≠ 0#64 then (0#64, ctx.raise (1#32 <<< 7))
  else (value, ctx)

end AbsoluteCompare

open AbsoluteCompare in
/-- The mask of the comparison, all ones or zero; bit 1 of `mode` selects doubles, bit 0
"greater". -/
def absoluteCompare (ctx : St) (n m mode : U64) : U64 × St :=
  let double := mode &&& 2#64 != 0#64
  let greater := mode &&& 1#64 != 0#64
  let (sign, exponent, fraction, ones) :=
    if double then
      (1#64 <<< 63, 0x7ff0000000000000#64, 0x000fffffffffffff#64, BitVec.allOnes 64)
    else (1#64 <<< 31, 0x7f800000#64, 0x007fffff#64, 0xffffffff#64)
  let a := n &&& (ones ^^^ sign)
  let b := m &&& (ones ^^^ sign)
  let fz := ctx.fpcr &&& (1#32 <<< 24) != 0#32
  let (a, ctx) := if fz then flush exponent fraction ctx a else (a, ctx)
  let (b, ctx) := if fz then flush exponent fraction ctx b else (b, ctx)
  if exponent < a ∨ exponent < b then (0#64, ctx.raise 1#32)
  else (if (if greater then decide (b < a) else decide (b ≤ a)) then ones else 0#64, ctx)

namespace AbsoluteDifference

/-- The NaN of a subtraction, with its sign cleared after it is selected. -/
def special (sub : HostOp) (ctx : St) (n m : U64) (double : Bool) : U64 × St :=
  let (sign, infinity, quiet) :=
    if double then (1#64 <<< 63, 0x7ff0000000000000#64, 1#64 <<< 51)
    else (1#64 <<< 31, 0x7f800000#64, 1#64 <<< 22)
  let nan := fun bits : U64 => decide (infinity < bits &&& ~~~sign)
  match [n, m].find? (fun value => nan value && value &&& quiet == 0#64) with
  | some value =>
    (if ctx.fpcr &&& (1#32 <<< 25) ≠ 0#32 then infinity ||| quiet
      else (value ||| quiet) &&& ~~~sign, ctx.raise 1#32)
  | none =>
    match [n, m].find? nan with
    | some value =>
      (if ctx.fpcr &&& (1#32 <<< 25) ≠ 0#32 then infinity ||| quiet else value &&& ~~~sign, ctx)
    | none =>
      -- Same-sign infinities.
      if n &&& ~~~sign = infinity ∧ m = n then (infinity ||| quiet, ctx.raise 1#32)
      else if double then (sub.op n m &&& ~~~sign, ctx)
      else ((sub.op32 (n.setWidth 32) (m.setWidth 32)).setWidth 64 &&& ~~~sign, ctx)

end AbsoluteDifference

/-! ## Magnitudes -/

namespace AbsoluteCompare

variable {f : Fmt} {x : U64}

theorem toNat_abs (f : Fmt) (x : U64) : (f.abs x).toNat = f.low x := by
  have hc : (~~~f.signBit &&& mask f.bits).toNat = 2 ^ (f.bits - 1) - 1 := by cases f <;> rfl
  rw [Fmt.abs, BitVec.and_assoc, BitVec.toNat_and, hc, Nat.and_two_pow_sub_one_eq_mod, Fmt.low]

theorem low_abs : f.low (f.abs x) = f.low x := by
  have h := f.low_lt x
  rw [← Fmt.bits_split] at h
  rw [Fmt.low, toNat_abs, Nat.mod_eq_of_lt h]

theorem sign_abs : f.sign (f.abs x) = false := by
  have h := f.low_lt x
  rw [← Fmt.bits_split] at h
  rw [← Bool.not_eq_true, Fmt.sign_iff, toNat_abs, Nat.div_eq_of_lt h]
  omega

theorem isNan_abs : f.isNan (f.abs x) = f.isNan x := by
  rw [Bool.eq_iff_iff, Fmt.isNan_iff, Fmt.isNan_iff, low_abs]

theorem isDenormal_abs : f.isDenormal (f.abs x) = f.isDenormal x := by
  rw [Bool.eq_iff_iff, Fmt.isDenormal_iff, Fmt.isDenormal_iff, low_abs]

/-- The format a helper works on. -/
def fmt (double : Bool) : Fmt := if double then .d else .s

theorem fmt_ne_h (double : Bool) : fmt double ≠ .h := by cases double <;> decide

/-- The comparison, by the fields of the operands. -/
def compared (f : Fmt) (n m : U64) (greater : Bool) (st : St) : U64 × St :=
  let (a, st) := flushIn f (f.abs n) st
  let (b, st) := flushIn f (f.abs m) st
  if f.isNan n || f.isNan m then (0#64, st.raise ioc)
  else (Interp.ones (if greater then f.low b < f.low a else f.low b ≤ f.low a) f.bits, st)

theorem flush_single (ctx : St) :
    (if ctx.fz then flush 0x7f800000#64 0x007fffff#64 ctx (Fmt.s.abs x) else (Fmt.s.abs x, ctx)) =
      flushIn .s (Fmt.s.abs x) ctx := by
  have hden : Fmt.s.abs x &&& 0x7f800000#64 = 0#64 ∧ Fmt.s.abs x &&& 0x007fffff#64 ≠ 0#64 ↔
      Fmt.s.isDenormal (Fmt.s.abs x) = true := by
    rw [Fmt.isDenormal_iff, Ne, ← BitVec.toNat_inj, ← BitVec.toNat_inj,
      toNat_and_field _ 23 8 rfl, toNat_and_field _ 0 23 rfl, BitVec.toNat_zero, Fmt.low]
    simp only [Fmt.bits, Fmt.fbits, Fmt.ebits]
    omega
  rw [flush, flushIn, sign_abs]
  simp only [hden]
  split_ifs <;> simp_all [Fmt.zero, u64OfBool, idc]

theorem flush_double (ctx : St) :
    (if ctx.fz then flush 0x7ff0000000000000#64 0x000fffffffffffff#64 ctx (Fmt.d.abs x)
      else (Fmt.d.abs x, ctx)) = flushIn .d (Fmt.d.abs x) ctx := by
  have hden := FpMinmaxNumber.denormal_iff (Fmt.d.abs x)
  rw [FpMinmaxNumber.infinity, FpMinmaxNumber.fraction] at hden
  rw [flush, flushIn, sign_abs]
  simp only [hden]
  split_ifs <;> simp_all [Fmt.zero, u64OfBool, idc]

variable {n m mode : U64} {st : St}

theorem toNat_flushed : (flushIn f (f.abs x) st).1.toNat = f.low (flushIn f (f.abs x) st).1 := by
  rw [flushIn]
  split
  · rw [sign_abs, Fmt.toNat_zero, Fmt.low_zero, if_neg Bool.false_ne_true]
  · rw [toNat_abs, low_abs]

theorem flushed_nan {exponent : U64} (he : exponent.toNat = f.infLow) :
    exponent < (flushIn f (f.abs x) st).1 ↔ f.isNan x = true := by
  rw [BitVec.lt_def, he, toNat_flushed, ← Fmt.isNan_iff, isNan_flushIn, isNan_abs]

theorem absoluteCompare_eq : absoluteCompare st n m mode =
    compared (fmt (mode &&& 2#64 != 0#64)) n m (mode &&& 1#64 != 0#64) st := by
  have hfz : (st.fpcr &&& (1#32 <<< 24) != 0#32) = st.fz := rfl
  rw [absoluteCompare, hfz]
  dsimp only
  generalize (mode &&& 1#64 != 0#64) = greater
  cases hd : (mode &&& 2#64 != 0#64)
  · have hm := flush_single (x := m) (flushIn .s (Fmt.s.abs n) st).2
    rw [flushIn_fz] at hm
    have habs : ∀ x : U64, x &&& (0xffffffff#64 ^^^ 1#64 <<< 31) = Fmt.s.abs x := by
      intro x
      rw [Fmt.abs, BitVec.and_assoc]
      rfl
    simp only [Bool.false_eq_true, if_false, habs, flush_single, hm, compared, fmt,
      flushed_nan (show (0x7f800000#64 : U64).toNat = Fmt.s.infLow from rfl), BitVec.lt_def, BitVec.le_def,
      toNat_flushed, Bool.or_eq_true]
    rfl
  · have hm := flush_double (x := m) (flushIn .d (Fmt.d.abs n) st).2
    rw [flushIn_fz] at hm
    have habs : ∀ x : U64, x &&& (BitVec.allOnes 64 ^^^ 1#64 <<< 63) = Fmt.d.abs x := by
      intro x
      rw [Fmt.abs, BitVec.and_assoc]
      rfl
    simp only [if_true, habs, flush_double, hm, compared, fmt,
      flushed_nan (show (0x7ff0000000000000#64 : U64).toNat = Fmt.d.infLow from rfl), BitVec.lt_def,
      BitVec.le_def,
      toNat_flushed, Bool.or_eq_true]
    rfl

/-- The row of the reference for FACGE and FACGT: the mask of an absolute comparison. -/
def row (f : Fmt) (a b : U64) (kind : Cmp) (st : St) : U64 × St :=
  let (c, st) := fcmp f (f.abs a) (f.abs b) kind st
  (Interp.ones c f.bits, st)

/-- The comparison `mode` asks for. -/
def kind (greater : Bool) : Cmp := if greater then .gt else .ge

theorem fcmp_nan {a b : U64} {kind : Cmp} (h : f.isNan a = true ∨ f.isNan b = true)
    (hkind : kind ≠ .eq) : fcmp f a b kind st = (false, st.raise ioc) := by
  rw [fcmp.eq_def, if_pos h, if_pos (Or.inl hkind)]

theorem sign_flushed : f.sign (flushIn f (f.abs x) st).1 = false := by
  rw [sign_flushIn, sign_abs]

variable (hf : f ≠ .h)
include hf

theorem compared_nan (h : (f.isNan n || f.isNan m) = true) (greater : Bool) :
    compared f n m greater st = report (missed f n m false st) (row f n m (kind greater) st) := by
  have hkind : kind greater ≠ .eq := by cases greater <;> decide
  have hor : f.isNan (f.abs n) = true ∨ f.isNan (f.abs m) = true := by
    rwa [isNan_abs, isNan_abs, ← Bool.or_eq_true]
  rw [compared, row, fcmp_nan hor hkind, report, missed]
  dsimp only
  rw [if_pos h, flushIn_snd hf, flushIn_snd hf, isDenormal_abs, isDenormal_abs]
  cases hn : f.isNan n <;> cases hm : f.isNan m <;> rw [hn, hm] at h
  case false.false => exact absurd h Bool.false_ne_true
  case false.true =>
    rw [not_isDenormal_of_isNan hm]
    cases st.fz <;> cases f.isDenormal n <;> simp [Interp.ones, St.raise_comm]
  case true.false =>
    rw [not_isDenormal_of_isNan hn]
    cases hz : st.fz <;> cases f.isDenormal m <;> simp [Interp.ones, St.raise_comm, hz]
  case true.true =>
    rw [not_isDenormal_of_isNan hm, not_isDenormal_of_isNan hn]
    simp [Interp.ones]

/-- Numbers without a sign are in the order of their encodings. -/
theorem fcmp_numbers (h : (f.isNan n || f.isNan m) = false) (greater : Bool) :
    fcmp f (f.abs n) (f.abs m) (kind greater) st =
      let (a, st) := flushIn f (f.abs n) st
      let (b, st) := flushIn f (f.abs m) st
      (if greater then decide (f.low b < f.low a) else decide (f.low b ≤ f.low a), st) := by
  have hnan := Bool.or_eq_false_iff.mp h
  have hor : ¬(f.isNan (f.abs n) = true ∨ f.isNan (f.abs m) = true) := by
    rw [isNan_abs, isNan_abs, hnan.1, hnan.2]
    simp
  have hna : f.isNan (flushIn f (f.abs n) st).1 = false := by rw [isNan_flushIn, isNan_abs, hnan.1]
  have hnb : f.isNan (flushIn f (f.abs m) (flushIn f (f.abs n) st).2).1 = false := by
    rw [isNan_flushIn, isNan_abs, hnan.2]
  have hlt : ∀ a b, f.sign a = false → f.sign b = false →
      (f.units a < f.units b ↔ f.low a < f.low b) := by
    intro a b ha hb
    rw [Fmt.units_lt_iff, ha, hb]
  have hsa := @sign_flushed f n st
  have hsb := @sign_flushed f m (flushIn f (f.abs n) st).2
  rw [fcmp.eq_def, if_neg hor]
  dsimp only
  generalize (flushIn f (f.abs m) (flushIn f (f.abs n) st).2).2 = st'
  generalize (flushIn f (f.abs m) (flushIn f (f.abs n) st).2).1 = b at *
  generalize (flushIn f (f.abs n) st).1 = a at *
  have hab := hlt a b hsa hsb
  have hba := hlt b a hsb hsa
  cases f
  case h => exact absurd rfl hf
  all_goals
    cases greater
    · simp only [kind, Bool.false_eq_true, if_false, hostGe, hna, hnb, Bool.not_false, Bool.true_and,
        ← not_lt, hab]
    · simp only [kind, if_true, hostGt, hna, hnb, Bool.not_false, Bool.true_and, hba]

/-- **The integer comparison is the reference's**, and reports one denormal more. -/
theorem compared_eq (greater : Bool) :
    compared f n m greater st = report (missed f n m false st) (row f n m (kind greater) st) := by
  cases h : f.isNan n || f.isNan m
  case true => exact compared_nan hf h greater
  have hnan := Bool.or_eq_false_iff.mp h
  rw [compared, row, fcmp_numbers hf h, report, missed, hnan.1, hnan.2]
  dsimp only
  cases greater <;> simp

omit hf in
theorem report_row_iff (greater : Bool) :
    report (missed f n m false st) (row f n m (kind greater) st) = row f n m (kind greater) st ↔
      (missed f n m false st = true → st.fpsr &&& idc ≠ 0#32) := by
  cases hm : missed f n m false st
  · simp [report]
  · have hor : f.isNan (f.abs n) = true ∨ f.isNan (f.abs m) = true := by
      rw [isNan_abs, isNan_abs]
      simp only [missed, Bool.and_eq_true, Bool.or_eq_true] at hm
      rcases hm with ⟨-, ⟨⟨h, -⟩, -⟩ | ⟨⟨-, h⟩, -⟩⟩
      · exact Or.inl h
      · exact Or.inr h
    have hkind : kind greater ≠ .eq := by cases greater <;> decide
    rw [row, fcmp_nan hor hkind, report, ← or_ioc_and_idc, ← or_idc_eq_iff]
    simp [St.raise]

/-- The helper and the reference agree. -/
def Agrees (ctx : St) (n m mode : U64) : Prop :=
  absoluteCompare ctx n m mode =
    row (fmt (mode &&& 2#64 != 0#64)) n m (kind (mode &&& 1#64 != 0#64)) ctx

end AbsoluteCompare

/-! ## Differences -/

/-- What is assumed of the host subtraction of numbers: it is invalid for two infinities of one sign
and for nothing else. -/
def HostSub (sub : HostOp) : Prop :=
  ∀ f a b, f ≠ Fmt.h → f.Encodes a → f.Encodes b → f.isNan a = false → f.isNan b = false →
    (f.isNan (host2 f a b sub) = true ↔ f.isInf a = true ∧ b = a)

namespace AbsoluteDifference

open AbsoluteCompare

/-- The absolute difference, by the fields of the operands. -/
def differed (sub : HostOp) (f : Fmt) (n m : U64) (st : St) : U64 × St :=
  if f.isSnan n || f.isSnan m then
    (if st.dn then f.defaultNan else f.abs (f.quiet (if f.isSnan n then n else m)), st.raise ioc)
  else if f.isNan n || f.isNan m then
    (if st.dn then f.defaultNan else f.abs (if f.isNan n then n else m), st)
  else if f.isInf n ∧ m = n then (f.defaultNan, st.raise ioc)
  else (f.abs (host2 f n m sub), st)

variable {f : Fmt} {n m : U64} {st : St} {sub : HostOp}

theorem abs_defaultNan (f : Fmt) : f.abs f.defaultNan = f.defaultNan := by cases f <;> rfl

theorem fabd_eq (hf : f ≠ .h) (hsub : HostSub sub) (hn : f.Encodes n) (hm : f.Encodes m)
    (hz : st.fz = false) : fabd sub f n m st = differed sub f n m st := by
  have hflush : ∀ x, flushIn f x st = (x, st) := fun x =>
    flushIn_of_not fun h => absurd (hz.symm.trans h) Bool.false_ne_true
  rw [fabd, fsub, arith2, processNans_pair, differed]
  cases hsn : f.isSnan n
  case true =>
    simp only [if_true, Bool.true_or, processNan_snan hsn, apply_ite f.abs, abs_defaultNan]
  cases hsm : f.isSnan m
  case true =>
    simp only [Bool.false_eq_true, if_false, if_true, Bool.or_true, processNan_snan hsm,
      apply_ite f.abs, abs_defaultNan]
  cases hnn : f.isNan n
  case true =>
    simp only [Bool.false_eq_true, if_false, if_true, Bool.or_self, Bool.true_or,
      processNan_qnan hnn hsn, apply_ite f.abs, abs_defaultNan]
  cases hnm : f.isNan m
  case true =>
    simp only [Bool.false_eq_true, if_false, if_true, Bool.or_self, Bool.or_true,
      processNan_qnan hnm hsm, apply_ite f.abs, abs_defaultNan]
  have hinvalid := hsub f n m hf hn hm hnn hnm
  simp only [Bool.false_eq_true, if_false, Bool.or_self, hflush, finish, hinvalid, hz, false_and]
  split
  · rw [abs_defaultNan]
  · rfl

theorem abs_of_encodes (h : f.Encodes n) : n &&& ~~~f.signBit = f.abs n := by
  have hbits : f.bits ≤ 64 := by cases f <;> decide
  have hle : (n &&& ~~~f.signBit).toNat ≤ n.toNat := by
    rw [BitVec.toNat_and]
    exact Nat.and_le_left
  rw [Fmt.abs, ← BitVec.toNat_inj, toNat_and_mask hbits, Nat.mod_eq_of_lt (lt_of_le_of_lt hle h)]

/-- `special` with the constants of the format. -/
def specialOf (sub : HostOp) (f : Fmt) (st : St) (n m : U64) : U64 × St :=
  let nan := fun bits : U64 => decide (f.inf false < bits &&& ~~~f.signBit)
  match [n, m].find? (fun value => nan value && value &&& (1#64 <<< (f.fbits - 1)) == 0#64) with
  | some value =>
    (if st.dn then f.defaultNan else f.quiet value &&& ~~~f.signBit, st.raise ioc)
  | none =>
    match [n, m].find? nan with
    | some value => (if st.dn then f.defaultNan else value &&& ~~~f.signBit, st)
    | none =>
      if n &&& ~~~f.signBit = f.inf false ∧ m = n then (f.defaultNan, st.raise ioc)
      else (host2 f n m sub &&& ~~~f.signBit, st)

theorem special_eq_specialOf (double : Bool) :
    special sub st n m double = specialOf sub (fmt double) st n m := by
  have hdn : (st.fpcr &&& (1#32 <<< 25) ≠ 0#32) ↔ st.dn = true := bne_iff_ne.symm
  rw [special, specialOf]
  simp only [hdn]
  cases double <;> rfl

theorem nan_eq (h : f.Encodes n) : decide (f.inf false < n &&& ~~~f.signBit) = f.isNan n := by
  have hinf : (f.inf false).toNat = f.infLow := by cases f <;> rfl
  rw [abs_of_encodes h, Bool.eq_iff_iff, decide_eq_true_iff, BitVec.lt_def, toNat_abs, hinf,
    Fmt.isNan_iff]

theorem encodes_quiet (h : f.Encodes n) : f.Encodes (f.quiet n) := by
  have hq : (1#64 <<< (f.fbits - 1)).toNat < 2 ^ f.bits := by cases f <;> decide
  rw [Fmt.Encodes, Fmt.quiet, BitVec.toNat_or]
  exact Nat.or_lt_two_pow h hq

theorem find_pair {α : Type} (p : α → Bool) (a b : α) :
    [a, b].find? p = if p a then some a else if p b then some b else none := by
  cases ha : p a <;> cases hb : p b <;> simp [List.find?, ha, hb]

/-- **The helper selects the NaN before it clears the sign.** -/
theorem special_eq (double : Bool) (hf : fmt double = f) (hn : f.Encodes n) (hm : f.Encodes m)
    (hhost : f.Encodes (host2 f n m sub)) :
    special sub st n m double = differed sub f n m st := by
  have hsnan : ∀ x : U64, (f.isNan x && x &&& (1#64 <<< (f.fbits - 1)) == 0#64) = f.isSnan x :=
    fun _ => rfl
  have hinf : n &&& ~~~f.signBit = f.inf false ↔ f.isInf n = true := by
    have hlow : (f.inf false).toNat = f.infLow := by cases f <;> rfl
    rw [abs_of_encodes hn, Fmt.isInf_iff, ← BitVec.toNat_inj, toNat_abs, hlow]
  rw [special_eq_specialOf, hf, specialOf, differed]
  simp only [find_pair, nan_eq hn, nan_eq hm, hsnan, hinf, abs_of_encodes hhost]
  cases hsn : f.isSnan n
  case true => simp only [if_true, Bool.true_or, abs_of_encodes (encodes_quiet hn)]
  cases hsm : f.isSnan m
  case true =>
    simp only [Bool.false_eq_true, if_false, if_true, Bool.or_true,
      abs_of_encodes (encodes_quiet hm)]
  cases hnn : f.isNan n
  case true =>
    simp only [Bool.false_eq_true, if_false, if_true, Bool.or_self, Bool.true_or, abs_of_encodes hn]
  cases hnm : f.isNan m
  case true =>
    simp only [Bool.false_eq_true, if_false, if_true, Bool.or_self, Bool.or_true, abs_of_encodes hm]
  simp only [Bool.false_eq_true, if_false, Bool.or_self]

theorem encodes_host2 (hf : f ≠ .h) : f.Encodes (host2 f n m sub) := by
  cases f
  case h => exact absurd rfl hf
  case s =>
    rw [Fmt.Encodes, host2, BitVec.toNat_setWidth]
    have := (sub.op32 (n.setWidth 32) (m.setWidth 32)).isLt
    simp only [Fmt.bits]
    omega
  case d => exact BitVec.isLt _

end AbsoluteDifference

/-! ## Agreement -/

open AbsoluteCompare in
/-- **The comparisons agree** exactly where the reference misses no denormal or IDC was set already,
and the differences agree whenever FZ is clear. -/
theorem absolute_agree_iff (sub : HostOp) (hsub : HostSub sub) :
    (∀ (ctx : St) (n m mode : U64), AbsoluteCompare.Agrees ctx n m mode ↔
      (missed (fmt (mode &&& 2#64 != 0#64)) n m false ctx = true → ctx.fpsr &&& idc ≠ 0#32)) ∧
    ∀ (ctx : St) (n m : U64) (double : Bool), (fmt double).Encodes n → (fmt double).Encodes m →
      ctx.fz = false →
      AbsoluteDifference.special sub ctx n m double = fabd sub (fmt double) n m ctx := by
  constructor
  · intro ctx n m mode
    rw [Agrees, absoluteCompare_eq, compared_eq (fmt_ne_h _), report_row_iff]
  · intro ctx n m double hn hm hz
    rw [AbsoluteDifference.special_eq double rfl hn hm
      (AbsoluteDifference.encodes_host2 (fmt_ne_h double)),
      AbsoluteDifference.fabd_eq (fmt_ne_h double) hsub hn hm hz]

/-- Subtraction, right where the operands are equal. -/
def subEqual : HostOp where
  op a b := if Fmt.d.isInf a ∧ b = a then Fmt.d.defaultNan else 0#64
  op32 a b :=
    if Fmt.s.isInf (a.setWidth 64) ∧ b = a then Fmt.s.defaultNan.setWidth 32 else 0#32

theorem hostSub_subEqual : HostSub subEqual := by
  intro f a b hf ha hb _ _
  cases f
  case h => exact absurd rfl hf
  case s =>
    have hword : ∀ x : U64, Fmt.s.Encodes x → (x.setWidth 32).setWidth 64 = x := by
      intro x hx
      have hlt : x.toNat < 2 ^ 32 := hx
      rw [← BitVec.toNat_inj, BitVec.toNat_setWidth, BitVec.toNat_setWidth, Nat.mod_eq_of_lt hlt,
        Nat.mod_eq_of_lt x.isLt]
    have heq : b.setWidth 32 = a.setWidth 32 ↔ b = a := by
      refine ⟨fun h => ?_, fun h => by rw [h]⟩
      rw [← hword a ha, ← hword b hb, h]
    simp only [host2, subEqual, hword a ha, heq]
    split
    case isTrue h => simp only [h, and_self, iff_true]; decide
    case isFalse h => simp only [h, iff_false]; decide
  case d =>
    simp only [host2, subEqual]
    split
    case isTrue h => simp only [h, and_self, iff_true]; decide
    case isFalse h => simp only [h, iff_false]; decide

/-- Three less three. -/
theorem absolute_agree_three :
    HostSub subEqual ∧
      AbsoluteDifference.special subEqual ⟨0#32, 0#32⟩ 0x4008000000000000#64
          0x4008000000000000#64 true =
        fabd subEqual .d 0x4008000000000000#64 0x4008000000000000#64 ⟨0#32, 0#32⟩ :=
  ⟨hostSub_subEqual, (absolute_agree_iff subEqual hostSub_subEqual).2 _ _ _ true
    (by decide) (by decide) (by decide)⟩

/-- A quiet NaN and a denormal under FZ: only one side reports the denormal. -/
theorem absolute_disagree :
    ¬AbsoluteCompare.Agrees ⟨1#32 <<< 24, 0#32⟩ 0x7FC00000#64 1#64 0#64 := by
  rw [AbsoluteCompare.Agrees]
  decide

end Rustarmic
