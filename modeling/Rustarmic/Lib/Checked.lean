import Mathlib.Tactic.NormNum

/-!
# Checked integer operations

Arithmetic of signed machine integers without wrapping: an operation is computed exactly and has no
value when the result does not fit.  A function written with it that always has a value computes on
unbounded integers what it computes on machine integers, and none of its operations overflows.

That is how a proof of such a function goes.  The result is an `Option`, and the theorem says that
it is `some` of an exact expression: in one statement the function does not panic where overflow is
checked, does not wrap where it is not, and returns the right number.  What has to be shown at each
step is a range, which is the side condition of `int_eq_some`.  The two widths have lemmas of their
own with the bounds written out, so that linear arithmetic can close them.
-/

set_option autoImplicit false

namespace Checked

/-- The result of an operation on signed `n`-bit integers, if it fits. -/
def int (n : Nat) (x : Int) : Option Int :=
  if -2 ^ (n - 1) ≤ x ∧ x < 2 ^ (n - 1) then some x else none

abbrev i32 : Int → Option Int := int 32

abbrev i128 : Int → Option Int := int 128

theorem int_eq_some {n : Nat} {x : Int} (hlo : -2 ^ (n - 1) ≤ x) (hhi : x < 2 ^ (n - 1)) :
    int n x = some x := if_pos ⟨hlo, hhi⟩

theorem i32_eq_some {x : Int} (hlo : -2147483648 ≤ x) (hhi : x < 2147483648) : i32 x = some x :=
  int_eq_some (by norm_num; exact hlo) (by norm_num; exact hhi)

theorem i128_eq_some {x : Int} (hlo : -170141183460469231731687303715884105728 ≤ x)
    (hhi : x < 170141183460469231731687303715884105728) : i128 x = some x :=
  int_eq_some (by norm_num; exact hlo) (by norm_num; exact hhi)

end Checked
