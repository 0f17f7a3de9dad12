import Rustarmic.Interp.Rounded

/-!
# Fused operations of the instruction helpers

The multiply-add and the steps of the Newton iterations.  `mul_add` of the host is an argument.

* `fmuladd`, `frecps`, `frsqrts` — the operations.
* `IsMulAdd` — what is assumed of the host: one rounding, and a NaN for an invalid operation.
* `isMulAdd_fusedHost` — there is such a host.

Rust's `mul_add` is the fused operation of IEEE 754, and what it does with numbers and infinities is
documented, so that is what `IsMulAdd` says.  It says nothing of NaN operands: the helpers answer
these themselves, before they call the host, and by rules that are not the host's.

**An invalid operation comes before a quiet NaN.**  Infinity times zero with a quiet NaN as the
addend is the default NaN on Arm.  The helper has a test for it (`invalidQnanCase`), which looks at
the operands as FPCR.FZ would flush them, without reporting that it did: `flushQuiet` is for the
test only, and the operands are flushed with a report later.

**Halving.**  `frsqrts` needs `(3 - a * b) / 2` with one rounding.  It halves a factor whose
exponent field is at least two, by subtracting one from the field, and when neither factor has that
much the product is too small to show.  A factor of infinity stays one.
-/

set_option autoImplicit false

namespace Rustarmic
namespace Interp

/-! ## The operations -/

/-- `mul_add` on doubles and on singles. -/
structure HostMulAdd where
  op : U64 → U64 → U64 → U64
  op32 : U32 → U32 → U32 → U32

/-- `a * b + c` on the bits of the operands. -/
def mulAdd (fma : HostMulAdd) (f : Fmt) (a b c : U64) : U64 :=
  match f with
  | .s => (fma.op32 (a.setWidth 32) (b.setWidth 32) (c.setWidth 32)).setWidth 64
  | _ => fma.op a b c

namespace Fmt

def isZero (f : Fmt) (x : U64) : Bool := x &&& ~~~f.signBit &&& mask f.bits == 0#64

def neg (f : Fmt) (x : U64) : U64 := (x ^^^ f.signBit) &&& mask f.bits

end Fmt

def flushQuiet (f : Fmt) (x : U64) (fz : Bool) : U64 :=
  if fz ∧ f ≠ .h ∧ f.isDenormal x then f.zero (f.sign x) else x

def infTimesZero (f : Fmt) (fz : Bool) (a b : U64) : Bool :=
  (f.isInf a && f.isZero (flushQuiet f b fz)) || (f.isZero (flushQuiet f a fz) && f.isInf b)

/-- `addend + a * b` with one rounding. -/
def fmuladd (fma : HostMulAdd) (f : Fmt) (addend a b : U64) (st : St) : U64 × St :=
  let invalidQnanCase := f.isNan addend && !f.isSnan addend && infTimesZero f st.fz a b
  match processNans f [addend, a, b] st with
  | some (n, nst) =>
    if invalidQnanCase && !f.isSnan a && !f.isSnan b then (f.defaultNan, nst.raise ioc) else (n, nst)
  | none =>
    let (c, st) := flushIn f addend st
    let (a, st) := flushIn f a st
    let (b, st) := flushIn f b st
    finish f (mulAdd fma f a b c) st

/-- `2.0` with a sign. -/
def two (f : Fmt) (sign : Bool) : U64 :=
  f.zero sign ||| ((BitVec.ofInt 64 f.bias + 1#64) <<< f.fbits)

/-- `1.5` in the format. -/
def onePointFive (f : Fmt) : U64 :=
  match f with
  | .s => 0x3FC00000#64
  | _ => 0x3FF8000000000000#64

/-- `2.0 - a * b`, with infinity times zero giving 2.0. -/
def frecps (fma : HostMulAdd) (f : Fmt) (a b : U64) (st : St) : U64 × St :=
  match processNans f [f.neg a, b] st with
  | some r => r
  | none =>
    let (a, st) := flushIn f a st
    let (b, st) := flushIn f b st
    if (f.isInf a && f.isZero b) || (f.isZero a && f.isInf b) then (two f false, st)
    else finish f (mulAdd fma f (f.neg a) b (two f false)) st

/-- `x / 2` for a value whose exponent field is at least 2. -/
def half (f : Fmt) (x : U64) : U64 := if f.isInf x then x else x - (1#64 <<< f.fbits)

/-- The factors of `a * b / 2`: one of them is halved, unless both are tiny. -/
def halved (f : Fmt) (a b : U64) : Option (U64 × U64) :=
  let halvable x := decide (2#64 ≤ f.expField x)
  if halvable a then some (half f a, b)
  else if halvable b then some (a, half f b)
  else none

/-- `(3.0 - a * b) / 2`, with infinity times zero giving 1.5. -/
def frsqrts (fma : HostMulAdd) (f : Fmt) (a b : U64) (st : St) : U64 × St :=
  match processNans f [f.neg a, b] st with
  | some r => r
  | none =>
    let (a, st) := flushIn f a st
    let (b, st) := flushIn f b st
    if (f.isInf a && f.isZero b) || (f.isZero a && f.isInf b) then (onePointFive f, st)
    else
      match halved f a b with
      | none => (onePointFive f, st)
      | some (x, y) => finish f (mulAdd fma f (f.neg x) y (onePointFive f)) st

/-! ## The host -/

/-- Infinity times zero, or infinities of opposite signs. -/
def invalidMulAdd (f : Fmt) (a b c : U64) : Bool :=
  (f.isInf a && f.isZero b) || (f.isZero a && f.isInf b) ||
    (f.isInf c && (f.isInf a || f.isInf b) && ((f.sign a ^^ f.sign b) ^^ f.sign c))

/-- The operands are numbers or infinities of the format. -/
structure Numbers (f : Fmt) (a b c : U64) : Prop where
  encodes : f.Encodes a ∧ f.Encodes b ∧ f.Encodes c
  notNan : f.isNan a = false ∧ f.isNan b = false ∧ f.isNan c = false

/-- The exact sum. -/
def exactMulAdd (f : Fmt) (a b c : U64) : ℚ := f.value a * f.value b + f.value c

/-- The sign of the sum; zero is negative only if it is a sum of negative zeros. -/
def mulAddSign (f : Fmt) (a b c : U64) : Bool :=
  if exactMulAdd f a b c = 0 then (f.sign a ^^ f.sign b) && f.sign c
  else decide (exactMulAdd f a b c < 0)

/-- What is assumed of the host: a NaN for an invalid operation, the infinities of the arithmetic,
and otherwise the exact sum rounded once to nearest. -/
structure IsMulAdd (fma : HostMulAdd) : Prop where
  invalid : ∀ f a b c, f ≠ Fmt.h → Numbers f a b c → invalidMulAdd f a b c = true →
    f.isNan (mulAdd fma f a b c) = true
  infinite : ∀ f a b c, f ≠ Fmt.h → Numbers f a b c → invalidMulAdd f a b c = false →
    (f.isInf a || f.isInf b) = true → mulAdd fma f a b c = f.inf (f.sign a ^^ f.sign b)
  addend : ∀ f a b c, f ≠ Fmt.h → Numbers f a b c → (f.isInf a || f.isInf b) = false →
    f.isInf c = true → mulAdd fma f a b c = c
  rounded : ∀ f a b c, f ≠ Fmt.h → Numbers f a b c → (f.isInf a || f.isInf b) = false →
    f.isInf c = false →
    f.Rounded .tieEven (mulAddSign f a b c) |exactMulAdd f a b c| (mulAdd fma f a b c)

/-- There is a NaN exactly for an invalid operation. -/
theorem IsMulAdd.isNan {fma : HostMulAdd} (h : IsMulAdd fma) {f : Fmt} (hf : f ≠ .h) {a b c : U64}
    (hn : Numbers f a b c) : f.isNan (mulAdd fma f a b c) = invalidMulAdd f a b c := by
  cases hinv : invalidMulAdd f a b c with
  | true => exact h.invalid f a b c hf hn hinv
  | false =>
    cases hprod : f.isInf a || f.isInf b with
    | true =>
      rw [h.infinite f a b c hf hn hinv hprod]
      exact Fmt.not_isNan_inf _
    | false =>
      cases hc : f.isInf c with
      | true =>
        rw [h.addend f a b c hf hn hprod hc]
        exact hn.notNan.2.2
      | false => exact (h.rounded f a b c hf hn hprod hc).isNan

/-! ## There is such a host -/

theorem exists_rounded (f : Fmt) (neg : Bool) {x : ℚ} (hx : 0 ≤ x) : ∃ r, f.Rounded .tieEven neg x r := by
  have hu := f.unit_pos
  obtain ⟨l, hl⟩ := @BinaryFormat.exists_rounds f.fbits (x / f.unit) (Round.tieEven.Rounds neg)
    (close_rounds _ _) BinaryFormat.exists_nearestEven (by positivity)
  exact ⟨_, l, hl, rfl⟩

/-- The result of one rounding. -/
noncomputable def fused (f : Fmt) (a b c : U64) : U64 :=
  if invalidMulAdd f a b c then f.defaultNan
  else if f.isInf a || f.isInf b then f.inf (f.sign a ^^ f.sign b)
  else if f.isInf c then c
  else (exists_rounded f (mulAddSign f a b c) (abs_nonneg (exactMulAdd f a b c))).choose

noncomputable def fusedHost : HostMulAdd where
  op a b c := fused .d a b c
  op32 a b c := (fused .s (a.setWidth 64) (b.setWidth 64) (c.setWidth 64)).setWidth 32

variable {f : Fmt} {a b c : U64}

theorem encodes_fused (hc : f.Encodes c) : f.Encodes (fused f a b c) := by
  rw [fused]
  split_ifs
  · cases f <;> decide
  · exact Fmt.encodes_inf _
  · exact hc
  · exact (exists_rounded f _ (abs_nonneg _)).choose_spec.encodes

theorem setWidth_single {x : U64} (h : Fmt.s.Encodes x) : (x.setWidth 32).setWidth 64 = x := by
  have hlt : x.toNat < 2 ^ 32 := h
  rw [← BitVec.toNat_inj, BitVec.toNat_setWidth, BitVec.toNat_setWidth, Nat.mod_eq_of_lt hlt,
    Nat.mod_eq_of_lt x.isLt]

theorem mulAdd_fusedHost (hf : f ≠ .h) (h : Numbers f a b c) :
    mulAdd fusedHost f a b c = fused f a b c := by
  cases f with
  | h => exact absurd rfl hf
  | s =>
    obtain ⟨ha, hb, hc⟩ := h.encodes
    rw [mulAdd, fusedHost]
    simp only [setWidth_single ha, setWidth_single hb, setWidth_single hc,
      setWidth_single (encodes_fused hc)]
  | d => rfl

/-- **The assumptions are met.** -/
theorem isMulAdd_fusedHost : IsMulAdd fusedHost where
  invalid f a b c hf hn h := by
    rw [mulAdd_fusedHost hf hn, fused, if_pos h]
    cases f <;> decide
  infinite f a b c hf hn hv h := by
    rw [mulAdd_fusedHost hf hn, fused, hv, if_neg Bool.false_ne_true, if_pos h]
  addend f a b c hf hn h hc := by
    have hv : invalidMulAdd f a b c = false := by
      rw [Bool.or_eq_false_iff] at h
      simp [invalidMulAdd, h.1, h.2]
    rw [mulAdd_fusedHost hf hn, fused, hv, if_neg Bool.false_ne_true, h, if_neg Bool.false_ne_true,
      if_pos hc]
  rounded f a b c hf hn h hc := by
    have hv : invalidMulAdd f a b c = false := by
      rw [Bool.or_eq_false_iff] at h
      simp [invalidMulAdd, h.1, h.2]
    rw [mulAdd_fusedHost hf hn, fused, hv, if_neg Bool.false_ne_true, h, if_neg Bool.false_ne_true,
      hc, if_neg Bool.false_ne_true]
    exact (exists_rounded f _ (abs_nonneg _)).choose_spec

end Interp
end Rustarmic
