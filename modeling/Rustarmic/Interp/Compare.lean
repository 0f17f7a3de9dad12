import Rustarmic.Interp.Fp
import Rustarmic.Lib.BinaryFormat

/-!
# Comparisons of the instruction helpers

Maximum and minimum, comparisons, and the absolute difference, as the out-of-line helpers compute
them.  A host comparison of two numbers compares their values, here in units of the least subnormal,
and is false when one operand is a NaN.  Host subtraction is an argument.

* `units` — the value of an encoding; `units_lt_iff` compares two of them by sign and `low`.
* `fmaxmin`, `fcmp`, `fabd` — the operations.

The source reinterprets bits as `f32` or `f64` and uses `>`, `>=` and `==`.  In units of the least
subnormal every finite value of a format is an integer, and so the host's comparison is one of
integers, with infinity as the next one after the largest number; nothing has to be assumed of the
host for that.  Subtraction is different, since its result is rounded, and it stays a parameter.

* **The two zeros** have the same value and are different encodings; they are the only such pair
  (`eq_of_units_eq`).  `fmaxmin` treats them apart, by the sign.
* **NaNs come first.**  `processNans` answers for them before anything is flushed, so that a
  denormal beside a NaN is not reported.
* **With number preference** a quiet NaN is replaced by the infinity that loses to every number.
-/

set_option autoImplicit false

namespace Rustarmic
namespace Interp

open BinaryFormat

/-- The value of an encoding, in units of the least subnormal. -/
def Fmt.units (f : Fmt) (x : U64) : Int :=
  if f.sign x then -(mag f.fbits (f.low x) : Int) else mag f.fbits (f.low x)

/-! ## Host comparisons -/

/-- `a > b` on the host; a word is reinterpreted as a single or a double. -/
def hostGt (f : Fmt) (a b : U64) : Bool := !f.isNan a && !f.isNan b && f.units b < f.units a

def hostGe (f : Fmt) (a b : U64) : Bool := !f.isNan a && !f.isNan b && f.units b ≤ f.units a

def hostEq (f : Fmt) (a b : U64) : Bool := !f.isNan a && !f.isNan b && f.units a = f.units b

/-- Ordered "a > b" on non-NaN values. -/
def fgt (f : Fmt) (a b : U64) : Bool :=
  match f with
  | .s => hostGt .s a b
  | _ => hostGt .d a b

/-! ## Maximum and minimum -/

/-- The larger or smaller operand (`max` selects which); with `nm` a number is preferred to a quiet
NaN. -/
def fmaxmin (f : Fmt) (a b : U64) (max nm : Bool) (st : St) : U64 × St :=
  let qa := f.isNan a && !f.isSnan a
  let qb := f.isNan b && !f.isSnan b
  -- A single quiet NaN becomes the infinity that the comparison never picks.
  let a' := if nm && (qa && !qb) then f.inf max else a
  let b' := if nm && (!qa && qb) then f.inf max else b
  match processNans f [a', b'] st with
  | some r => r
  | none =>
    let (a, st) := flushIn f a' st
    let (b, st) := flushIn f b' st
    let (ua, st) := unpack f a st
    let (ub, st) := unpack f b st
    if ua.cls = .zero ∧ ub.cls = .zero ∧ ua.sign ≠ ub.sign then (f.zero (!max), st)
    else
      let gt := fgt f a b
      let pickA := if max then gt else !gt
      let r := if pickA then a else b
      if st.fz ∧ f.isDenormal r then (f.zero (f.sign r), st.raise ufc) else (r, st)

/-! ## Comparison -/

inductive Cmp where
  | eq
  | ge
  | gt
  deriving DecidableEq, Repr

/-- Unordered comparisons are false.  A single is compared as the double of its value. -/
def fcmp (f : Fmt) (a b : U64) (kind : Cmp) (st : St) : Bool × St :=
  if f.isNan a ∨ f.isNan b then
    (false, if kind ≠ .eq ∨ f.isSnan a ∨ f.isSnan b then st.raise ioc else st)
  else
    let (a, st) := flushIn f a st
    let (b, st) := flushIn f b st
    let g : Fmt := match f with | .s => .s | _ => .d
    (match kind with
      | .eq => hostEq g a b
      | .ge => hostGe g a b
      | .gt => hostGt g a b, st)

/-! ## Arithmetic -/

/-- A host operation on singles and on doubles. -/
structure HostOp where
  op : U64 → U64 → U64
  op32 : U32 → U32 → U32

/-- The operation on the bits of the operands. -/
def host2 (f : Fmt) (a b : U64) (op : HostOp) : U64 :=
  match f with
  | .s => (op.op32 (a.setWidth 32) (b.setWidth 32)).setWidth 64
  | _ => op.op a b

/-- A binary operation with the Arm rules for NaNs and denormals around it. -/
def arith2 (f : Fmt) (a b : U64) (op : HostOp) (st : St) : U64 × St :=
  match processNans f [a, b] st with
  | some r => r
  | none =>
    let (a, st) := flushIn f a st
    let (b, st) := flushIn f b st
    finish f (host2 f a b op) st

def fsub (sub : HostOp) (f : Fmt) (a b : U64) (st : St) : U64 × St := arith2 f a b sub st

/-- The absolute difference; the sign is cleared even on a NaN. -/
def fabd (sub : HostOp) (f : Fmt) (a b : U64) (st : St) : U64 × St :=
  let (d, st) := fsub sub f a b st
  (f.abs d, st)

/-! ## The order of the values -/

namespace Fmt

variable {f : Fmt} {a b : U64}

theorem mag_pos_iff (p l : Nat) : 0 < mag p l ↔ 0 < l := by
  have h := (mag_strictMono p).lt_iff_lt (a := 0) (b := l)
  rwa [mag_zero] at h

/-- Numbers compare by their signs, then by magnitude. -/
theorem units_lt_iff :
    f.units a < f.units b ↔
      match f.sign a, f.sign b with
      | false, false => f.low a < f.low b
      | true, true => f.low b < f.low a
      | true, false => 0 < f.low a ∨ 0 < f.low b
      | false, true => False := by
  have hab := (mag_strictMono f.fbits).lt_iff_lt (a := f.low a) (b := f.low b)
  have hba := (mag_strictMono f.fbits).lt_iff_lt (a := f.low b) (b := f.low a)
  have ha := mag_pos_iff f.fbits (f.low a)
  have hb := mag_pos_iff f.fbits (f.low b)
  rw [units, units]
  cases f.sign a <;> cases f.sign b <;> dsimp only <;>
    simp only [Bool.false_eq_true, if_false, if_true, iff_false, not_lt] <;> omega

/-- Only the two zeros share a value. -/
theorem eq_of_units_eq (ha : f.Encodes a) (hb : f.Encodes b) (h : f.units a = f.units b)
    (hz : ¬(f.low a = 0 ∧ f.low b = 0)) : a = b := by
  have hab := units_lt_iff (f := f) (a := a) (b := b)
  have hba := units_lt_iff (f := f) (a := b) (b := a)
  have hinj : mag f.fbits (f.low a) = mag f.fbits (f.low b) → f.low a = f.low b :=
    fun h => (mag_strictMono f.fbits).injective h
  rw [h] at hab hba
  simp only [lt_irrefl, false_iff] at hab hba
  cases hsa : f.sign a <;> cases hsb : f.sign b <;> simp only [hsa, hsb] at hab hba
  case false.true | true.false => omega
  all_goals exact encoding_ext ha hb (hsa.trans hsb.symm) (by omega)

theorem units_le_inf (h : f.isNan a = false) : f.units a ≤ f.units (f.inf false) := by
  rw [← not_lt, units_lt_iff, sign_inf, low_inf]
  rw [← Bool.not_eq_true, isNan_iff] at h
  cases f.sign a <;> simp only [not_lt, not_false_iff]
  omega

theorem inf_le_units (h : f.isNan a = false) : f.units (f.inf true) ≤ f.units a := by
  rw [← not_lt, units_lt_iff, sign_inf, low_inf]
  rw [← Bool.not_eq_true, isNan_iff] at h
  cases f.sign a <;> simp only [not_lt, not_false_iff]
  omega

end Fmt

theorem fgt_eq {f : Fmt} {a b : U64} (hf : f ≠ .h) (ha : f.isNan a = false)
    (hb : f.isNan b = false) : fgt f a b = decide (f.units b < f.units a) := by
  cases f
  case h => exact absurd rfl hf
  all_goals
    simp only [fgt, hostGt, ha, hb, Bool.not_false, Bool.true_and]

/-! ## The numbers among the operands -/

/-- The selection between two numbers. -/
def pick (f : Fmt) (a b : U64) (max : Bool) : U64 :=
  if f.low a = 0 ∧ f.low b = 0 then
    f.zero (if max then f.sign a && f.sign b else f.sign a || f.sign b)
  else if decide (f.units a < f.units b) = !max then a
  else b

/-- What `fmaxmin` does once no operand is a NaN. -/
def fmaxminNumbers (f : Fmt) (a b : U64) (max : Bool) (st : St) : U64 × St :=
  let (a, st) := flushIn f a st
  let (b, st) := flushIn f b st
  let (ua, st) := unpack f a st
  let (ub, st) := unpack f b st
  if ua.cls = .zero ∧ ub.cls = .zero ∧ ua.sign ≠ ub.sign then (f.zero (!max), st)
  else
    let gt := fgt f a b
    let pickA := if max then gt else !gt
    let r := if pickA then a else b
    if st.fz ∧ f.isDenormal r then (f.zero (f.sign r), st.raise ufc) else (r, st)

section Numbers

variable {f : Fmt} {a b : U64} {max : Bool} {st : St}

/-- **Without a NaN the operands are flushed and one of them is picked.** -/
theorem fmaxminNumbers_eq (hf : f ≠ .h) (hae : f.Encodes a) (hbe : f.Encodes b)
    (ha : f.isNan a = false) (hb : f.isNan b = false) :
    fmaxminNumbers f a b max st =
      (pick f (flushIn f a st).1 (flushIn f b (flushIn f a st).2).1 max,
        (flushIn f b (flushIn f a st).2).2) := by
  have hae' := @encodes_flushIn f a st hae
  have hbe' := @encodes_flushIn f b (flushIn f a st).2 hbe
  have ha' := (@isNan_flushIn f a st).trans ha
  have hb' := (@isNan_flushIn f b (flushIn f a st).2).trans hb
  have hda := fun h => @flushIn_denormal f a st hf h
  have hdb := fun h => @flushIn_denormal f b (flushIn f a st).2 hf h
  have hfz : (flushIn f b (flushIn f a st).2).2.fz = st.fz := by rw [flushIn_fz, flushIn_fz]
  rw [flushIn_fz] at hdb
  rw [fmaxminNumbers]
  dsimp only
  generalize (flushIn f b (flushIn f a st).2).2 = st' at *
  generalize (flushIn f a st).1 = a' at *
  generalize (flushIn f b (flushIn f a st).2).1 = b' at *
  rw [← hfz] at hda hdb
  rw [unpack_status hda, unpack_status hdb, unpack_sign, unpack_sign, fgt_eq hf ha' hb', pick]
  simp only [unpack_zero hda, unpack_zero hdb]
  have hflush : ∀ c : Prop, [Decidable c] →
      ¬(st'.fz = true ∧ f.isDenormal (if c then a' else b') = true) := by
    rintro c _ ⟨h1, h2⟩
    split at h2
    · rw [hda h1] at h2
      exact absurd h2 Bool.false_ne_true
    · rw [hdb h1] at h2
      exact absurd h2 Bool.false_ne_true
  rw [if_neg (hflush _)]
  by_cases hz : f.low a' = 0 ∧ f.low b' = 0
  · -- Zeros: of different signs, or the same word.
    rw [if_pos hz]
    by_cases hs : f.sign a' = f.sign b'
    · have hsame : a' = b' := Fmt.encoding_ext hae' hbe' hs (hz.1.trans hz.2.symm)
      have hzero : b' = f.zero (f.sign b') :=
        Fmt.encoding_ext hbe' (Fmt.encodes_zero _) (Fmt.sign_zero _).symm
          (hz.2.trans (Fmt.low_zero _).symm)
      rw [if_neg (fun h => h.2.2 hs), hsame, ite_self, Bool.and_self, Bool.or_self, ite_self,
        ← hzero]
    · rw [if_pos ⟨hz.1, hz.2, hs⟩]
      revert hs
      cases f.sign a' <;> cases f.sign b' <;> cases max <;> simp
  · rw [if_neg hz, if_neg (fun h => hz ⟨h.1, h.2.1⟩)]
    rcases lt_trichotomy (f.units a') (f.units b') with hlt | heq | hgt
    · rw [decide_eq_true hlt, decide_eq_false hlt.not_gt]
      cases max <;> rfl
    · rw [Fmt.eq_of_units_eq hae' hbe' heq hz, ite_self, ite_self]
    · rw [decide_eq_false hgt.not_gt, decide_eq_true hgt]
      cases max <;> rfl

end Numbers

end Interp
end Rustarmic
