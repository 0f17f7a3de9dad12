import Mathlib.Data.BitVec

/-!
# Arithmetic of a binary field

Polynomials over the two-element field with `w` coefficients, modulo a polynomial of degree `w` that
is given by its lower coefficients.

* `mul` — the product, added up coefficient by coefficient of the second factor.
* `pow` — the power, by squaring.
* `Linear` — additive maps; `Linear.ext` compares two of them on the powers of the variable.

Nothing here needs the modulus to be irreducible, so that the name promises more than is used: what
is proved holds in the ring as well, and it is about the operations as programs write them.
Multiplying by the variable is a shift and a conditional exclusive or; a product is a sum of such
multiples; a power is found by squaring along the bits of the exponent.

Comparing two implementations on all bytes would be a large computation for each identity.  Products
are additive in each factor, though, and an additive map is known when it is known on `w` words,
those with a single bit.  An identity between additive maps is thus checked on `w` values, and one
between maps that are additive in two arguments on `w * w`.
-/

set_option autoImplicit false

namespace BinaryField

variable {w : Nat} (poly : BitVec w)

/-- Multiplication by the variable. -/
def xtime (a : BitVec w) : BitVec w := (a <<< 1) ^^^ (if a.msb then poly else 0)

/-- The product of `a` and the polynomial of the `n` low coefficients of `b`. -/
def mul : Nat → BitVec w → BitVec w → BitVec w
  | 0, _, _ => 0
  | n + 1, a, b => (if b.getLsbD 0 then a else 0) ^^^ mul n (xtime poly a) (b >>> 1)

/-- `r` times the power of `base` whose exponent is the number of the `n` low bits of `e`. -/
def pow (width : Nat) : Nat → BitVec w → BitVec w → Nat → BitVec w
  | 0, r, _, _ => r
  | n + 1, r, base, e =>
    pow width n (if e % 2 = 1 then mul poly width r base else r) (mul poly width base base) (e / 2)

variable (n : Nat) (a b c : BitVec w)

@[simp] theorem mul_zero : mul poly n a 0#w = 0#w := by
  induction n generalizing a with
  | zero => rfl
  | succ n ih => simp [mul, ih]

/-- **The product is linear in the second factor.** -/
theorem mul_xor : mul poly n a (b ^^^ c) = mul poly n a b ^^^ mul poly n a c := by
  induction n generalizing a b c with
  | zero => simp [mul]
  | succ n ih =>
    have hbit : (if (b ^^^ c).getLsbD 0 then a else 0) =
        (if b.getLsbD 0 then a else 0) ^^^ (if c.getLsbD 0 then a else 0) := by
      rw [BitVec.getLsbD_xor]
      cases b.getLsbD 0 <;> cases c.getLsbD 0 <;> simp
    rw [mul, mul, mul, hbit, BitVec.ushiftRight_xor_distrib, ih]
    ac_rfl

theorem xtime_xor : xtime poly (a ^^^ b) = xtime poly a ^^^ xtime poly b := by
  have hbit : (if a.msb ^^ b.msb then poly else 0) =
      (if a.msb then poly else 0) ^^^ (if b.msb then poly else 0) := by
    cases a.msb <;> cases b.msb <;> simp
  rw [xtime, xtime, xtime, BitVec.shiftLeft_xor_distrib, BitVec.msb_xor, hbit]
  ac_rfl

/-- **The product is linear in the first factor.** -/
theorem xor_mul : mul poly n (a ^^^ b) c = mul poly n a c ^^^ mul poly n b c := by
  induction n generalizing a b c with
  | zero => simp [mul]
  | succ n ih =>
    have hbit : (if c.getLsbD 0 then a ^^^ b else 0) =
        (if c.getLsbD 0 then a else 0) ^^^ (if c.getLsbD 0 then b else 0) := by
      cases c.getLsbD 0 <;> simp
    rw [mul, mul, mul, hbit, xtime_xor, ih]
    ac_rfl

theorem pow_zero (width : Nat) (r base : BitVec w) : pow poly width n r base 0 = r := by
  induction n generalizing base with
  | zero => rfl
  | succ n ih => rw [pow, if_neg (by decide), Nat.zero_div, ih]

/-! ## Additive maps -/

/-- A map that commutes with addition. -/
def Linear (f : BitVec w → BitVec w) : Prop := ∀ x y, f (x ^^^ y) = f x ^^^ f y

variable {f g : BitVec w → BitVec w}

theorem Linear.mul : Linear (mul poly n a) := mul_xor poly n a

theorem Linear.comp (hf : Linear f) (hg : Linear g) : Linear fun x => f (g x) := fun x y => by
  dsimp only
  rw [hg, hf]

theorem Linear.add (hf : Linear f) (hg : Linear g) : Linear fun x => f x ^^^ g x := fun x y => by
  dsimp only
  rw [hf, hg]
  ac_rfl

theorem Linear.id : Linear fun x : BitVec w => x := fun _ _ => rfl

theorem Linear.zero (hf : Linear f) : f 0#w = 0#w := by
  have h := hf 0#w 0#w
  rwa [BitVec.xor_self, BitVec.xor_self] at h

/-- The polynomial of the `n` low coefficients. -/
def low (x : BitVec w) : Nat → BitVec w
  | 0 => 0#w
  | n + 1 => low x n ^^^ (if x.getLsbD n then 1#w <<< n else 0#w)

theorem getLsbD_low (x : BitVec w) (n i : Nat) :
    (low x n).getLsbD i = (decide (i < n) && x.getLsbD i) := by
  induction n with
  | zero => simp [low]
  | succ n ih =>
    have hbit : (if x.getLsbD n then 1#w <<< n else 0#w).getLsbD i =
        (decide (i = n) && x.getLsbD n) := by
      by_cases hx : x.getLsbD n = true
      · have hn := BitVec.lt_of_getLsbD hx
        rw [if_pos hx, hx, BitVec.getLsbD_shiftLeft, BitVec.getLsbD_one]
        grind
      · simp [hx]
    rw [low, BitVec.getLsbD_xor, ih, hbit]
    grind

theorem low_width (x : BitVec w) : low x w = x := by
  refine BitVec.eq_of_getLsbD_eq fun i hi => ?_
  rw [getLsbD_low, decide_eq_true hi, Bool.true_and]

/-- **Additive maps are equal when they agree on the powers of the variable.** -/
theorem Linear.ext (hf : Linear f) (hg : Linear g) (h : ∀ n < w, f (1#w <<< n) = g (1#w <<< n)) :
    f = g := by
  have hlow : ∀ x n, n ≤ w → f (low x n) = g (low x n) := by
    intro x n hn
    induction n with
    | zero => rw [low, hf.zero, hg.zero]
    | succ n ih =>
      rw [low, hf, hg, ih (Nat.le_of_succ_le hn)]
      split
      · rw [h n hn]
      · rw [hf.zero, hg.zero]
  funext x
  rw [← low_width x]
  exact hlow x w le_rfl

end BinaryField
