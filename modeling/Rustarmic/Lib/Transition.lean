import Mathlib.Tactic.TypeStar

/-!
# Labelled transition systems

A system is an initial predicate and a labelled step relation.  A property of every reachable state
is proved by the invariant rule: it holds initially and every step preserves it.

* `System.Reachable` is the set of states some finite run reaches.
* `System.guarded` keeps the steps whose label meets a condition on the state before the step; its
  runs are the runs all of whose steps meet the condition.
* `System.startAt` fixes the initial state; its runs are the continuations of a run that led there.
* `Reachable.invariant` is the invariant rule, with what is already known of the state before the
  step at hand.

A label says what was asked of the system, and the step relation what came of it.  Keeping the two
apart is what makes `guarded` useful: a component that works as long as its callers respect some
order is the guarded system, and a theorem about its reachable states has the condition built in,
step by step, instead of as a hypothesis about a whole list of calls.  `Reachable.of_guarded`
carries what is known without the condition over.

The rule hands the step lemma that the state before is reachable, and not only that it satisfies the
property.  So an invariant can be proved after others and use them, without being conjoined with
them.
-/

set_option autoImplicit false

/-- Initial states and labelled steps. -/
structure System (σ α : Type*) where
  init : σ → Prop
  step : σ → α → σ → Prop

namespace System

variable {σ α : Type*} {S : System σ α}

/-- The states a finite run reaches. -/
inductive Reachable (S : System σ α) : σ → Prop where
  | init {s : σ} (h : S.init s) : Reachable S s
  | step {s t : σ} (a : α) (h : Reachable S s) (hstep : S.step s a t) : Reachable S t

/-- The system whose steps also meet `g` in the state they start from. -/
def guarded (S : System σ α) (g : σ → α → Prop) : System σ α where
  init := S.init
  step s a t := g s a ∧ S.step s a t

/-- The system that starts in the state `s₀` only. -/
def startAt (S : System σ α) (s₀ : σ) : System σ α where
  init s := s = s₀
  step := S.step

/-- **The invariant rule.** -/
theorem Reachable.invariant {P : σ → Prop} (hinit : ∀ s, S.init s → P s)
    (hstep : ∀ s a t, S.Reachable s → P s → S.step s a t → P t) {s : σ} (h : S.Reachable s) :
    P s := by
  induction h with
  | init h => exact hinit _ h
  | step a h hs ih => exact hstep _ a _ h ih hs

/-- A run of the guarded system is a run of the system. -/
theorem Reachable.of_guarded {g : σ → α → Prop} {s : σ} (h : (S.guarded g).Reachable s) :
    S.Reachable s := by
  induction h with
  | init h => exact .init h
  | step a _ hs ih => exact .step a ih hs.2

end System
