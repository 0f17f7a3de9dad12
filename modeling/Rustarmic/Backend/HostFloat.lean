import Rustarmic.Interp.MulAdd

/-!
# The processor's arithmetic

The floating point arithmetic that the generated code relies on, as an argument and what is assumed
of it: one rounding to nearest, and the rules for infinities.

* `HostFloat` — the operations.
* `IsHostFloat` — what is assumed of them.
* `isHostFloat_exactHost` — there is such a processor.

Lean's own floating point numbers are opaque, so a proof could not use them.  An operation of the
host is a function of encodings (`HostOp`), and `IsHostFloat` is what its manual documents: a sum or
a product of numbers is the exact one, rounded to the nearest, ties to even; an infinity less itself
is invalid; rounding to an integer goes by the mode it is told.  Nothing is assumed of NaN
operands.  What an instruction gives then is written out in `Backend.FloatCode`, as it differs from
one instruction to the next.

Assumptions may contradict each other, and then everything follows from them.  `exactHost` is a
processor that computes with rationals and rounds, and it has all of the assumed properties.
-/

set_option autoImplicit false

namespace Rustarmic

open Interp Rounding

/-- The arithmetic on numbers; `round` rounds to integers. -/
structure HostFloat where
  add : HostOp
  sub : HostOp
  mul : HostOp
  round : Round → Fmt → U64 → U64

namespace Interp

/-- The sign of a sum of numbers with these signs. -/
def sumSign (x : ℚ) (s t : Bool) : Bool := if x = 0 then s && t else decide (x < 0)

/-- What is assumed of the processor. -/
structure IsHostFloat (host : HostFloat) : Prop where
  add : ∀ f a b, f ≠ Fmt.h → f.Finite a → f.Finite b →
    f.Rounded .tieEven (sumSign (f.value a + f.value b) (f.sign a) (f.sign b)) |f.value a + f.value b|
      (host2 f a b host.add)
  add_inf : ∀ f a b, f ≠ Fmt.h → f.Encodes a → f.isInf a = true → f.Finite b → host2 f a b host.add = a
  sub : ∀ f a b, f ≠ Fmt.h → f.Finite a → f.Finite b →
    f.Rounded .tieEven (sumSign (f.value a - f.value b) (f.sign a) (!f.sign b)) |f.value a - f.value b|
      (host2 f a b host.sub)
  /-- The difference of an infinity and itself is invalid. -/
  sub_inf : ∀ f a, f ≠ Fmt.h → f.Encodes a → f.isInf a = true →
    f.isNan (host2 f a a host.sub) = true
  mul : ∀ f a b, f ≠ Fmt.h → f.Finite a → f.Finite b →
    f.Rounded .tieEven (f.sign a ^^ f.sign b) |f.value a * f.value b| (host2 f a b host.mul)
  mul_inf : ∀ f a b, f ≠ Fmt.h → f.Encodes a → f.isInf a = true → f.Finite b → f.isZero b = false →
    host2 f a b host.mul = f.inf (f.sign a ^^ f.sign b)
  round : ∀ mode f x, f ≠ Fmt.h → f.Finite x → ∃ n : ℕ, mode.Rounds (f.sign x) |f.value x| n ∧
    f.Rounded .tieEven (f.sign x) n (host.round mode f x)
  round_inf : ∀ mode f x, f ≠ Fmt.h → f.isInf x = true → host.round mode f x = x

/-! ## There is such a processor -/

theorem exists_mode_rounds (mode : Round) (neg : Bool) {q : ℚ} (hq : 0 ≤ q) :
    ∃ n : ℕ, mode.Rounds neg q n := by
  obtain ⟨k, half, sticky, h⟩ := BinaryFormat.exists_guarded hq
  cases mode with
  | tieEven => exact ⟨_, h.nearestEven⟩
  | tieAway => exact ⟨_, h.nearestAway⟩
  | zero => exact ⟨_, h.towardZero⟩
  | odd => exact ⟨_, h.toOdd⟩
  | posInf =>
    cases neg
    · exact ⟨_, h.upward⟩
    · exact ⟨_, h.downward⟩
  | negInf =>
    cases neg
    · exact ⟨_, h.downward⟩
    · exact ⟨_, h.upward⟩

/-- The encoding that a number is rounded to. -/
noncomputable def nearest (f : Fmt) (neg : Bool) (q : ℚ) : U64 :=
  (exists_rounded f neg (abs_nonneg q)).choose

theorem rounded_nearest (f : Fmt) (neg : Bool) (q : ℚ) : f.Rounded .tieEven neg |q| (nearest f neg q) :=
  (exists_rounded f neg (abs_nonneg q)).choose_spec

/-- A function on encodings as an operation of the host. -/
def hostOp (g : Fmt → U64 → U64 → U64) : HostOp where
  op := g .d
  op32 a b := (g .s (a.setWidth 64) (b.setWidth 64)).setWidth 32

theorem host2_hostOp {f : Fmt} (hf : f ≠ .h) {a b : U64} (g : Fmt → U64 → U64 → U64) (ha : f.Encodes a)
    (hb : f.Encodes b) (hg : f.Encodes (g f a b)) : host2 f a b (hostOp g) = g f a b := by
  cases f with
  | h => exact absurd rfl hf
  | s =>
    rw [host2, hostOp]
    simp only [setWidth_single ha, setWidth_single hb, setWidth_single hg]
  | d => rfl

noncomputable def exactSum (f : Fmt) (a b : U64) : U64 :=
  if f.isInf a then a
  else nearest f (sumSign (f.value a + f.value b) (f.sign a) (f.sign b)) (f.value a + f.value b)

noncomputable def exactDifference (f : Fmt) (a b : U64) : U64 :=
  if f.isInf a then f.defaultNan
  else nearest f (sumSign (f.value a - f.value b) (f.sign a) (!f.sign b)) (f.value a - f.value b)

noncomputable def exactProduct (f : Fmt) (a b : U64) : U64 :=
  if f.isInf a then f.inf (f.sign a ^^ f.sign b)
  else nearest f (f.sign a ^^ f.sign b) (f.value a * f.value b)

noncomputable def exactInteger (mode : Round) (f : Fmt) (x : U64) : U64 :=
  if f.isInf x then x
  else nearest f (f.sign x) (exists_mode_rounds mode (f.sign x) (abs_nonneg (f.value x))).choose

noncomputable def exactHost : HostFloat where
  add := hostOp exactSum
  sub := hostOp exactDifference
  mul := hostOp exactProduct
  round := exactInteger

theorem encodes_defaultNan (f : Fmt) : f.Encodes f.defaultNan := by cases f <;> decide

/-- **The assumptions are met.** -/
theorem isHostFloat_exactHost : IsHostFloat exactHost where
  add f a b hf ha hb := by
    have h := rounded_nearest f (sumSign (f.value a + f.value b) (f.sign a) (f.sign b))
      (f.value a + f.value b)
    have heq : exactSum f a b = _ := if_neg (Bool.not_eq_true _ ▸ ha.isInf)
    rw [exactHost, host2_hostOp hf _ ha.encodes hb.encodes (heq ▸ h.encodes), heq]
    exact h
  add_inf f a b hf ha hi hb := by
    have heq : exactSum f a b = a := if_pos hi
    rw [exactHost, host2_hostOp hf _ ha hb.encodes (heq.symm ▸ ha), heq]
  sub f a b hf ha hb := by
    have h := rounded_nearest f (sumSign (f.value a - f.value b) (f.sign a) (!f.sign b))
      (f.value a - f.value b)
    have heq : exactDifference f a b = _ := if_neg (Bool.not_eq_true _ ▸ ha.isInf)
    rw [exactHost, host2_hostOp hf _ ha.encodes hb.encodes (heq ▸ h.encodes), heq]
    exact h
  sub_inf f a hf ha hi := by
    have heq : exactDifference f a a = f.defaultNan := if_pos hi
    rw [exactHost, host2_hostOp hf _ ha ha (heq.symm ▸ encodes_defaultNan f), heq]
    cases f <;> decide
  mul f a b hf ha hb := by
    have h := rounded_nearest f (f.sign a ^^ f.sign b) (f.value a * f.value b)
    have heq : exactProduct f a b = _ := if_neg (Bool.not_eq_true _ ▸ ha.isInf)
    rw [exactHost, host2_hostOp hf _ ha.encodes hb.encodes (heq ▸ h.encodes), heq]
    exact h
  mul_inf f a b hf ha hi hb _ := by
    have heq : exactProduct f a b = f.inf (f.sign a ^^ f.sign b) := if_pos hi
    rw [exactHost, host2_hostOp hf _ ha hb.encodes (heq.symm ▸ Fmt.encodes_inf _), heq]
  round mode f x hf hx := by
    have hn := (exists_mode_rounds mode (f.sign x) (abs_nonneg (f.value x))).choose_spec
    refine ⟨_, hn, ?_⟩
    have h := rounded_nearest f (f.sign x)
      (exists_mode_rounds mode (f.sign x) (abs_nonneg (f.value x))).choose
    rw [Nat.abs_cast] at h
    have heq : exactInteger mode f x = _ := if_neg (Bool.not_eq_true _ ▸ hx.isInf)
    rw [exactHost]
    dsimp only
    rw [heq]
    exact h
  round_inf mode f x _ hi := if_pos hi

end Interp
end Rustarmic
