import Mathlib.Logic.Function.Iterate

/-!
# While loops

A loop `while cond s { s = body s }`, run for a bounded number of tests: `none` when they are used
up first.

* `run_eq_some` — the loop ends after the first iterate at which the condition fails.
* `run_of_measure` — a measure that the body decreases bounds the number of tests.

A function of a program with a loop in it need not end, so its model has the number of tests as an
argument and a result that may be missing.  That keeps it a structural recursion, which computes,
and it puts off the question.  The question is answered by a theorem about the function, in the form
that for *every* number from some bound on there is a result, and always the same one: a result for
one bound alone would leave open whether the loop had been cut short somewhere.  Both lemmas are of
this form, with `fuel` for what is left over.

The first one is for loops whose number of rounds is known, where an invariant gives the iterates;
the second one is for those where only something gets smaller.
-/

set_option autoImplicit false

namespace WhileLoop

variable {σ : Type} (cond : σ → Bool) (body : σ → σ)

/-- The final state, when at most `fuel` tests of the condition are made. -/
def run : Nat → σ → Option σ
  | 0, _ => none
  | fuel + 1, s => if cond s then run fuel (body s) else some s

variable {cond body} {s : σ}

/-- **The loop ends after its first `n` rounds** when `n` is the first iterate to fail the test. -/
theorem run_eq_some {n : Nat} (hend : cond (body^[n] s) = false)
    (hgo : ∀ j < n, cond (body^[j] s) = true) (fuel : Nat) :
    run cond body (fuel + n + 1) s = some (body^[n] s) := by
  induction n generalizing s with
  | zero =>
    rw [run, if_neg]
    · rfl
    · exact fun h => Bool.false_ne_true (hend.symm.trans h)
  | succ n ih =>
    have hfirst : cond s = true := hgo 0 n.succ_pos
    rw [run, if_pos hfirst]
    exact ih hend fun j hj => hgo (j + 1) (Nat.succ_lt_succ hj)

/-- A loop whose body decreases a measure ends within that many rounds. -/
theorem run_of_measure (measure : σ → Nat)
    (hdec : ∀ s, cond s = true → measure (body s) < measure s) (s : σ) :
    ∃ r, ∀ fuel, run cond body (fuel + measure s + 1) s = some r := by
  induction hm : measure s using Nat.strongRecOn generalizing s with
  | ind m ih =>
    cases hc : cond s
    · refine ⟨s, fun fuel => ?_⟩
      rw [run, if_neg]
      exact fun h => Bool.false_ne_true (hc.symm.trans h)
    · have hlt := hdec s hc
      rw [hm] at hlt
      obtain ⟨r, hr⟩ := ih (measure (body s)) hlt (body s) rfl
      refine ⟨r, fun fuel => ?_⟩
      have hfuel : fuel + m = fuel + (m - measure (body s) - 1) + measure (body s) + 1 := by omega
      rw [run, if_pos hc, hfuel]
      exact hr _

end WhileLoop
