import Rustarmic.Backend.FusedMulAdd
import Rustarmic.Backend.Reciprocal
import Rustarmic.Interp.NewtonStep

/-!
# Newton steps of the generated code

The out-of-line steps, which flush before they look for NaNs and halve the larger factor, against
the instruction helpers.

* `step` — the routine, with its four entry points.
* `isStep_numbers` — for numbers it is the step with one rounding.
* `newtonStep_agree_iff` — when the two agree.

FRECPS is `2 - n * m` and FRSQRTS is `(3 - n * m) / 2`, each rounded once.  The second one is no
operation of the host.  The halves of `3` and of one factor can be taken before, and
`1.5 + (-n / 2) * m` is a fused multiply-add; but halving is exact only if it does not make the
factor a denormal.  Both sides deal with that, each in its own way: the routine halves the factor of
the larger magnitude, and where even that one is tiny the product does not count beside the
constant.  `isStep_larger` is the argument, and it gives what the exact expression gives, rounded
once.

So the bits always agree.  The status differs as for the comparisons (`Backend.AbsoluteOps`): the
routine flushes before it looks for NaNs, so it reports a denormal beside a NaN, which the reference
misses.
-/

set_option autoImplicit false

namespace Rustarmic
namespace Reciprocal

open Interp hiding processNan

/-! ## The routine -/

/-- The host's `mul_add` in the precision of a format. -/
def hostMulAdd (fma : HostMulAdd) (f : Format) (a b : U64) (c32 : U32) (c : U64) : U64 :=
  if f.fraction = 23 then (fma.op32 (a.setWidth 32) (b.setWidth 32) c32).setWidth 64
  else fma.op a b c

def constant (f : Format) (squareRoot : Bool) : U64 :=
  if squareRoot then (BitVec.ofInt 64 f.bias <<< f.fraction) ||| (1#64 <<< (f.fraction - 1))
  else BitVec.ofInt 64 (f.bias + 1) <<< f.fraction

/-- The part of `step` after the NaNs. -/
def stepNumbers (fma : HostMulAdd) (n m : U64) (f : Format) (squareRoot : Bool) : U64 :=
  let na := n &&& ~~~f.sign
  let ma := m &&& ~~~f.sign
  if (na = f.infinity ∧ ma = 0#64) ∨ (ma = f.infinity ∧ na = 0#64) then constant f squareRoot
  else if na = f.infinity ∨ ma = f.infinity then f.infinity ||| ((n ^^^ m) &&& f.sign)
  else if squareRoot = false then hostMulAdd fma f n m 0x40000000#32 0x4000000000000000#64
  else
    let (a, b) := if ma ≤ na then (n, m) else (m, n)
    if a &&& ~~~f.sign < 2#64 <<< f.fraction then constant f squareRoot
    else hostMulAdd fma f (a - (1#64 <<< f.fraction)) b 0x3FC00000#32 0x3FF8000000000000#64

def step (fma : HostMulAdd) (ctx : St) (n m : U64) (f : Format) (squareRoot : Bool) : U64 × St :=
  let (n, ctx) := input ctx (n ^^^ f.sign) f
  let (m, ctx) := input ctx m f
  match [n, m].find? f.signaling with
  | some value => processNan ctx value f
  | none =>
    match [n, m].find? f.nan with
    | some value => processNan ctx value f
    | none => (stepNumbers fma n m f squareRoot, ctx)

def stepS (fma : HostMulAdd) (ctx : St) (n m : U64) : U64 × St :=
  step fma ctx ((n.setWidth 32).setWidth 64) ((m.setWidth 32).setWidth 64) .s true

def stepD (fma : HostMulAdd) (ctx : St) (n m : U64) : U64 × St := step fma ctx n m .d true

def reciprocalStepS (fma : HostMulAdd) (ctx : St) (n m : U64) : U64 × St :=
  step fma ctx ((n.setWidth 32).setWidth 64) ((m.setWidth 32).setWidth 64) .s false

def reciprocalStepD (fma : HostMulAdd) (ctx : St) (n m : U64) : U64 × St := step fma ctx n m .d false

/-! ## Numbers -/

open AbsoluteCompare AbsoluteDifference FusedMulAdd

section numbers

variable {f : Fmt} {squareRoot : Bool} {n m x : U64} {fma : HostMulAdd}

theorem constant_of (hf : f ≠ .h) : constant (.of f) squareRoot = stepConstant f squareRoot := by
  cases f
  · exact absurd rfl hf
  · cases squareRoot <;> rfl
  · cases squareRoot <;> rfl

theorem hostMulAdd_two (hf : f ≠ .h) (a b : U64) :
    hostMulAdd fma (.of f) a b 0x40000000#32 0x4000000000000000#64 = mulAdd fma f a b (two f false) := by
  cases f
  · exact absurd rfl hf
  · rfl
  · rfl

theorem hostMulAdd_onePointFive (hf : f ≠ .h) (a b : U64) :
    hostMulAdd fma (.of f) a b 0x3FC00000#32 0x3FF8000000000000#64 =
      mulAdd fma f a b (onePointFive f) := by
  cases f
  · exact absurd rfl hf
  · rfl
  · rfl

theorem toNat_two_shiftLeft (f : Fmt) : (2#64 <<< f.fbits).toNat = 2 * 2 ^ f.fbits := by
  cases f <;> rfl

/-- The larger factor halved, or the constant when even that one is tiny. -/
theorem isStep_larger (hfma : IsMulAdd fma) (hf : f ≠ .h) (hn : f.Encodes n) (hm : f.Encodes m)
    (hnn : f.isNan n = false) (hnm : f.isNan m = false) (hi : f.isInf n = false)
    (hv : invalidProduct f n m = false) (hle : f.low m ≤ f.low n) :
    IsStep f true n m (if f.low n < 2 * 2 ^ f.fbits then stepConstant f true
      else mulAdd fma f (n - (1#64 <<< f.fbits)) m (onePointFive f)) := by
  split_ifs with h2
  · exact isStep_tiny hf h2 (hle.trans_lt h2)
  · have h := halves_half hn hnn (Nat.not_lt.mp h2)
    rw [half, hi, if_neg Bool.false_ne_true] at h
    exact isStep_half_left hfma hf hm hnm hv h

theorem isZero_eq (f : Fmt) (x : U64) : f.isZero x = decide (f.abs x = 0#64) := rfl

/-- **For numbers the routine is the step with one rounding.** -/
theorem isStep_numbers (hfma : IsMulAdd fma) (hf : f ≠ .h) (hn : f.Encodes n) (hm : f.Encodes m)
    (hnn : f.isNan n = false) (hnm : f.isNan m = false) :
    IsStep f squareRoot n m (stepNumbers fma n m (.of f) squareRoot) := by
  have hinf {x : U64} : f.abs x = f.inf false ↔ f.isInf x = true := abs_eq_inf_iff
  have hzero {x : U64} : f.abs x = 0#64 ↔ f.isZero x = true := by rw [isZero_eq, decide_eq_true_iff]
  have hhalf {x : U64} : f.abs x < 2#64 <<< f.fbits ↔ f.low x < 2 * 2 ^ f.fbits := by
    rw [BitVec.lt_def, toNat_abs, toNat_two_shiftLeft]
  have hge {x y : U64} : f.abs x ≤ f.abs y ↔ f.low x ≤ f.low y := by
    rw [BitVec.le_def, toNat_abs, toNat_abs]
  have hprod : (f.isInf n = true ∧ f.isZero m = true) ∨ (f.isInf m = true ∧ f.isZero n = true) ↔
      invalidProduct f n m = true := by
    rw [invalidProduct, Bool.or_eq_true, Bool.and_eq_true, Bool.and_eq_true, @and_comm (f.isZero n = true)]
  rw [stepNumbers, constant_of hf, hostMulAdd_two hf]
  simp only [hostMulAdd_onePointFive hf]
  simp only [Format.of, abs_of_encodes hn, abs_of_encodes hm, hinf, hzero, hge, hprod,
    ← Bool.or_eq_true]
  split_ifs with hv hi hs hle h2 h2
  · rw [IsStep, if_pos hv]
  · rw [IsStep, if_neg hv, if_pos hi, Fmt.and_signBit, BitVec.or_comm, zero_or_inf, sign_xor]
  · rw [hs]
    exact isStep_two hfma hf hn hm hnn hnm (Bool.not_eq_true _ ▸ hv)
  all_goals
    rw [Bool.not_eq_true] at hv hi
    rw [Bool.or_eq_false_iff] at hi
    rw [Bool.not_eq_false] at hs
    rw [hs]
    dsimp only at h2 ⊢
  -- The larger factor is the first one, or the second.
  · have h := isStep_larger hfma hf hn hm hnn hnm hi.1 hv hle
    rw [abs_of_encodes hn, hhalf] at h2
    rwa [if_pos h2] at h
  · have h := isStep_larger hfma hf hn hm hnn hnm hi.1 hv hle
    rw [abs_of_encodes hn, hhalf] at h2
    rwa [if_neg h2] at h
  · have h := isStep_larger hfma hf hm hn hnm hnn hi.2 (invalidProduct_comm.trans hv) (by omega)
    rw [abs_of_encodes hm, hhalf] at h2
    rwa [if_pos h2, isStep_comm] at h
  · have h := isStep_larger hfma hf hm hn hnm hnn hi.2 (invalidProduct_comm.trans hv) (by omega)
    rw [abs_of_encodes hm, hhalf] at h2
    rwa [if_neg h2, isStep_comm] at h

end numbers

/-! ## NaNs -/

section nans

variable {f : Fmt} {squareRoot : Bool} {n m x : U64} {fma : HostMulAdd} {st : St}

theorem isSnan_flushIn_eq : f.isSnan (flushIn f x st).1 = f.isSnan x := by
  cases h : f.isSnan x with
  | false => exact isSnan_flushIn h
  | true => rw [flushIn_of_isNan (Fmt.isSnan_imp h), h]

theorem processNan_raise (flags : U32) : Interp.processNan f x (st.raise flags) =
    ((Interp.processNan f x st).1, (Interp.processNan f x st).2.raise flags) := by
  rw [Interp.processNan, Interp.processNan]
  cases f.isSnan x with
  | false => rfl
  | true =>
    dsimp only
    rw [if_pos rfl, if_pos rfl, St.raise_comm, St.raise_dn]

/-- **Flushing before the NaN rules** reports a denormal beside the NaN, and changes nothing
else. -/
theorem processNans_flushed (hf : f ≠ .h) :
    processNans f [(flushIn f n st).1, (flushIn f m (flushIn f n st).2).1]
        (flushIn f m (flushIn f n st).2).2 =
      (processNans f [n, m] st).map (report (missed f n m false st)) := by
  have hreport (x : U64) (b : Bool) : Interp.processNan f x (if b then st.raise Interp.idc else st) =
      report b (Interp.processNan f x st) := by
    cases b with
    | false => rfl
    | true => exact processNan_raise _
  rw [processNans_pair, processNans_pair, isSnan_flushIn_eq, isSnan_flushIn_eq, isNan_flushIn,
    isNan_flushIn]
  cases hnn : f.isNan n <;> cases hnm : f.isNan m
  case false.false => simp [not_isSnan_of_not_isNan hnn, not_isSnan_of_not_isNan hnm]
  case false.true =>
    rw [@flushIn_of_isNan f m _ hnm]
    simp only [not_isSnan_of_not_isNan hnn, Bool.false_eq_true, if_false, if_true, flushIn_snd hf, hreport,
      missed, hnn, hnm, not_isDenormal_of_isNan hnm]
    cases f.isSnan m <;> simp
  case true.false =>
    rw [@flushIn_of_isNan f n _ hnn]
    simp only [not_isSnan_of_not_isNan hnm, Bool.false_eq_true, if_false, if_true, flushIn_snd hf, hreport,
      missed, hnn, hnm, not_isDenormal_of_isNan hnn]
    cases f.isSnan n <;> simp
  case true.true =>
    have hm : missed f n m false st = false := by
      simp [missed, not_isDenormal_of_isNan hnn, not_isDenormal_of_isNan hnm]
    rw [@flushIn_of_isNan f n _ hnn, @flushIn_of_isNan f m _ hnm, hm]
    cases f.isSnan n <;> cases f.isSnan m <;> rfl

theorem neg_of_encodes (hn : f.Encodes n) : n ^^^ f.signBit = f.neg n := by
  have hbits : f.bits ≤ 64 := by cases f <;> decide
  have hsign : f.signBit.toNat < 2 ^ f.bits := by cases f <;> decide
  rw [Fmt.neg, ← BitVec.toNat_inj, toNat_and_mask hbits, BitVec.toNat_xor,
    Nat.mod_eq_of_lt (Nat.xor_lt_two_pow hn hsign)]

theorem missed_neg : missed f (f.neg n) m false st = missed f n m false st := by
  rw [missed, missed, isNan_neg, isDenormal_neg]
  simp

theorem signaling_of (hx : f.Encodes x) : (Format.of f).signaling x = f.isSnan x := by
  rw [Format.signaling, nan_of hx]
  rfl

/-- The NaN rules of the routine. -/
theorem step_nans (hn : f.Encodes n) (hm : f.Encodes m) (r : U64) :
    (match [n, m].find? (Format.of f).signaling with
      | some value => processNan st value (.of f)
      | none =>
        match [n, m].find? (Format.of f).nan with
        | some value => processNan st value (.of f)
        | none => (r, st)) = (processNans f [n, m] st).getD (r, st) := by
  rw [find_pair, find_pair, signaling_of hn, signaling_of hm, nan_of hn, nan_of hm, processNans_pair]
  cases f.isSnan n
  case true => exact processNan_of hn
  cases f.isSnan m
  case true => exact processNan_of hm
  cases f.isNan n
  case true => exact processNan_of hn
  cases f.isNan m
  case true => exact processNan_of hm
  rfl

/-- **The routine is the reference**, with the denormal that one misses. -/
theorem step_eq (hfma : IsMulAdd fma) (hf : f ≠ .h) (hn : f.Encodes n) (hm : f.Encodes m) :
    step fma st n m (.of f) squareRoot =
      report (missed f n m false st) (newtonStep fma f squareRoot n m st) := by
  have hn' := encodes_neg f n
  have hflush := @processNans_flushed f (f.neg n) m st hf
  have hen := @encodes_flushIn f (f.neg n) st hn'
  have hem := @encodes_flushIn f m (flushIn f (f.neg n) st).2 hm
  rw [missed_neg] at hflush
  rw [step, show (Format.of f).sign = f.signBit from rfl, neg_of_encodes hn, input_eq hf hn']
  dsimp only
  rw [input_eq hf hm, step_nans hen hem, hflush]
  cases hnans : processNans f [f.neg n, m] st with
  | some res => rw [Option.map_some, Option.getD_some, newtonStep_nan hnans]
  | none =>
    obtain ⟨hnn, hnm⟩ := not_isNan_of_none hnans
    have hmiss : missed f n m false st = false := by
      rw [isNan_neg] at hnn
      simp [missed, hnn, hnm]
    obtain ⟨hst, hstep⟩ := @newtonStep_numbers f squareRoot n m st fma hfma hf hn hm hnans
    have hnumbers : IsStep f squareRoot _ _ _ :=
      isStep_numbers hfma hf hen hem (isNan_flushIn.trans hnn) (isNan_flushIn.trans hnm)
    rw [flushIn_neg hn] at hnumbers ⊢
    rw [hmiss, Option.map_none, Option.getD_none, hnumbers.unique hstep, report, ← hst]
    rfl

/-- The status of a NaN result keeps IDC. -/
theorem report_newtonStep_iff : report (missed f n m false st) (newtonStep fma f squareRoot n m st) =
      newtonStep fma f squareRoot n m st ↔
    (missed f n m false st = true → st.fpsr &&& Interp.idc ≠ 0#32) := by
  cases hmiss : missed f n m false st with
  | false => simp [report]
  | true =>
    have hnans : ∃ res, processNans f [f.neg n, m] st = some res := by
      rw [← Option.ne_none_iff_exists']
      intro hnone
      obtain ⟨hnn, hnm⟩ := not_isNan_of_none hnone
      rw [isNan_neg] at hnn
      simp [missed, hnn, hnm] at hmiss
    obtain ⟨res, hres⟩ := hnans
    have hidc : res.2.fpsr &&& Interp.idc = st.fpsr &&& Interp.idc := by
      rw [processNans_pair] at hres
      split_ifs at hres <;> cases hres <;> exact processNan_status
    rw [newtonStep_nan hres, report, if_pos rfl, ← hidc, ← or_idc_eq_iff]
    obtain ⟨r, ⟨fpcr, fpsr⟩⟩ := res
    simp [St.raise]

end nans

/-! ## Agreement -/

/-- The entry point of a format and an instruction. -/
def entryPoint (fma : HostMulAdd) (double squareRoot : Bool) : St → U64 → U64 → U64 × St :=
  match double, squareRoot with
  | false, true => stepS fma
  | true, true => stepD fma
  | false, false => reciprocalStepS fma
  | true, false => reciprocalStepD fma

/-- The encoding in a register. -/
def operand (double : Bool) (n : U64) : U64 := if double then n else single n

theorem encodes_operand (double : Bool) (n : U64) : (fmt double).Encodes (operand double n) := by
  cases double with
  | false => exact encodes_single n
  | true => exact FpMinmaxNumber.encodes n

theorem entryPoint_eq {fma : HostMulAdd} (hfma : IsMulAdd fma) (double squareRoot : Bool) (ctx : St)
    (n m : U64) : entryPoint fma double squareRoot ctx n m =
      report (missed (fmt double) (operand double n) (operand double m) false ctx)
        (newtonStep fma (fmt double) squareRoot (operand double n) (operand double m) ctx) := by
  rw [← step_eq hfma (fmt_ne_h double) (encodes_operand double n) (encodes_operand double m)]
  cases double <;> cases squareRoot <;> rfl

/-- **The bits always agree, and FPSR** exactly where the reference misses no denormal or IDC was
set already.  A factor with an exponent of at least 2 is halved exactly, and either of two may be
halved. -/
theorem newtonStep_agree_iff (fma : HostMulAdd) (hfma : IsMulAdd fma) :
    (∀ (double squareRoot : Bool) (ctx : St) (n m : U64),
      let reference :=
        newtonStep fma (fmt double) squareRoot (operand double n) (operand double m) ctx
      (entryPoint fma double squareRoot ctx n m).1 = reference.1 ∧
      (entryPoint fma double squareRoot ctx n m = reference ↔
        (missed (fmt double) (operand double n) (operand double m) false ctx = true →
          ctx.fpsr &&& Interp.idc ≠ 0#32))) ∧
    (∀ (f : Fmt) (x : U64), f.Encodes x → f.isNan x = false → 2#64 ≤ f.expField x →
      Halves f x (half f x)) ∧
    ∀ (f : Fmt) (n m : U64), f ≠ .h → f.Encodes n → f.Encodes m → f.isNan n = false →
      f.isNan m = false → 2#64 ≤ f.expField n → 2#64 ≤ f.expField m → invalidProduct f n m = false →
      mulAdd fma f (half f n) m (onePointFive f) = mulAdd fma f n (half f m) (onePointFive f) := by
  refine ⟨fun double squareRoot ctx n m => ?_, fun f x hx hnx h2 => ?_,
    fun f n m hf hn hm hnn hnm h2n h2m hv => ?_⟩
  · rw [entryPoint_eq hfma]
    exact ⟨rfl, report_newtonStep_iff⟩
  · exact halves_half hx hnx (halvable_iff.mp h2)
  · have hl := isStep_half_left hfma hf hm hnm hv (halves_half hn hnn (halvable_iff.mp h2n))
    have hr := isStep_half_right hfma hf hn hnn hv (halves_half hm hnm (halvable_iff.mp h2m))
    exact hl.unique hr

/-- Three and a half, with a host that rounds once. -/
theorem newtonStep_agree_double : IsMulAdd fusedHost ∧
    entryPoint fusedHost true true ⟨0#32, 0#32⟩ 0x4008000000000000#64 0x3FE0000000000000#64 =
      frsqrts fusedHost .d 0x4008000000000000#64 0x3FE0000000000000#64 ⟨0#32, 0#32⟩ :=
  ⟨isMulAdd_fusedHost, ((newtonStep_agree_iff fusedHost isMulAdd_fusedHost).1 true true _ _ _).2.mpr
    (by decide)⟩

/-- A quiet NaN and a denormal under FZ: only one side reports the denormal. -/
theorem newtonStep_disagree : (entryPoint fusedHost false false ⟨1#32 <<< 24, 0#32⟩ 0x7FC00000#64 1#64).2 ≠
    (frecps fusedHost .s 0x7FC00000#64 1#64 ⟨1#32 <<< 24, 0#32⟩).2 := by
  decide

end Reciprocal
end Rustarmic
