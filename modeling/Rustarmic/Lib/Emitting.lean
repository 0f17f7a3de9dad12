import Mathlib.Logic.Basic

/-!
# Emitters of straight-line code

An emitter pushes nodes one after another and goes on with the indices they get: `Prog` is the type
of such programs, `nodes` the code one of them emits when the next free index is `n`, and `result`
how it ends.

The code is run node by node (`exec`), a node being free to change the whole state.  `wp` computes
what the emitted code does along the emitter itself, so that a proof about the code follows the text
that emits it: `wp_iff` says that the two are the same.

* `wp_bind`, `wp_emit`, `wp_mono` are the rules for the constructs.
* `wp_mono_step`, `wp_rule_mono` carry them to another way to run the code, `wp_rule_lift` to one on
  larger states, `wp_congr_step` to one that agrees on the nodes of the program.
* `wp_foldlM` is the rule for a loop that emits a piece of code for every element of a list.
-/

set_option autoImplicit false

namespace Emitting

/-- An emitter of nodes `N` that returns an `α` or fails with an `ε`. -/
inductive Prog (N ε α : Type) where
  | done (a : α)
  | fail (e : ε)
  | push (node : N) (k : Nat → Prog N ε α)

namespace Prog

variable {N ε α β γ S : Type}

def bind : Prog N ε α → (α → Prog N ε β) → Prog N ε β
  | done a, f => f a
  | fail e, _ => fail e
  | push node k, f => push node fun n => (k n).bind f

instance : Monad (Prog N ε) where
  pure := done
  bind := bind

/-- Push one node and return its index. -/
def emit (node : N) : Prog N ε Nat := push node done

/-- The nodes that are pushed, the first one at index `n`. -/
def nodes : Prog N ε α → Nat → List N
  | done _, _ => []
  | fail _, _ => []
  | push node k, n => node :: (k n).nodes (n + 1)

/-- How the emitter ends when its first node is at index `n`. -/
def result : Prog N ε α → Nat → Except ε α
  | done a, _ => .ok a
  | fail e, _ => .error e
  | push _ k, n => (k n).result (n + 1)

/-! ## Running the code -/

/-- Run nodes one after another, the first one at index `n`. -/
def exec (step : Nat → N → S → Option S) : Nat → List N → S → Option S
  | _, [], s => some s
  | n, node :: l, s => (step n node s).bind (exec step (n + 1) l)

theorem exec_append {step : Nat → N → S → Option S} (l l' : List N) (n : Nat) (s : S) :
    exec step n (l ++ l') s = (exec step n l s).bind (exec step (n + l.length) l') := by
  induction l generalizing n s with
  | nil => rfl
  | cons node l ih =>
    rw [List.cons_append, exec, exec, Option.bind_assoc, List.length_cons, Nat.add_comm l.length,
      ← Nat.add_assoc]
    exact congrArg _ (funext fun s => ih (n + 1) s)

/-- The emitter ends well, its code runs, and what it returns, the next free index and the state
after the code satisfy `Q`. -/
def wp (step : Nat → N → S → Option S) : Prog N ε α → Nat → S → (α → Nat → S → Prop) → Prop
  | done a, n, s, Q => Q a n s
  | fail _, _, _, _ => False
  | push node k, n, s, Q => ∃ s', step n node s = some s' ∧ (k n).wp step (n + 1) s' Q

variable {step : Nat → N → S → Option S} {n : Nat} {s : S} {Q : α → Nat → S → Prop}

/-- **What is computed along the emitter is what its code does.** -/
theorem wp_iff (p : Prog N ε α) : p.wp step n s Q ↔
    ∃ a s', p.result n = .ok a ∧ exec step n (p.nodes n) s = some s' ∧
      Q a (n + (p.nodes n).length) s' := by
  induction p generalizing n s with
  | done a =>
    constructor
    · exact fun h => ⟨a, s, rfl, rfl, h⟩
    · rintro ⟨_, _, ⟨rfl⟩, ⟨rfl⟩, h⟩
      exact h
  | fail e =>
    constructor
    · exact False.elim
    · rintro ⟨_, _, h, -, -⟩
      cases h
  | push node k ih =>
    simp only [wp, result, nodes, exec, List.length_cons]
    constructor
    · rintro ⟨s', hstep, h⟩
      obtain ⟨a, s'', ha, hrun, hQ⟩ := (ih n).mp h
      refine ⟨a, s'', ha, ?_, ?_⟩
      · rw [hstep]
        exact hrun
      · rwa [Nat.add_right_comm, Nat.add_assoc] at hQ
    · rintro ⟨a, s'', ha, hrun, hQ⟩
      obtain ⟨s', hstep, hrun⟩ := Option.bind_eq_some_iff.mp hrun
      refine ⟨s', hstep, (ih n).mpr ⟨a, s'', ha, hrun, ?_⟩⟩
      rwa [Nat.add_right_comm, Nat.add_assoc]

/-- An emitter that does not fail, and whose code runs, has only one outcome. -/
theorem wp_and {Q' : α → Nat → S → Prop} {p : Prog N ε α} (h : p.wp step n s Q)
    (h' : p.wp step n s Q') : p.wp step n s fun a m t => Q a m t ∧ Q' a m t := by
  induction p generalizing n s with
  | done a => exact ⟨h, h'⟩
  | fail e => exact h
  | push node k ih =>
    obtain ⟨s', hstep, h⟩ := h
    obtain ⟨t, hstep', h'⟩ := h'
    obtain rfl := Option.some.inj (hstep.symm.trans hstep')
    exact ⟨s', hstep, ih n h h'⟩

/-- Two things said of the outcome are said of the same one. -/
theorem wp_common {Q' : α → Nat → S → Prop} {p : Prog N ε α} (h : p.wp step n s Q)
    (h' : p.wp step n s Q') : ∃ a m t, Q a m t ∧ Q' a m t := by
  obtain ⟨a, t, -, -, hQ⟩ := (wp_iff p).mp (wp_and h h')
  exact ⟨a, _, t, hQ⟩

theorem wp_mono {Q' : α → Nat → S → Prop} {p : Prog N ε α} (h : p.wp step n s Q)
    (hQ : ∀ a m t, Q a m t → Q' a m t) : p.wp step n s Q' := by
  induction p generalizing n s with
  | done a => exact hQ a n s h
  | fail e => exact h
  | push node k ih =>
    obtain ⟨s', hstep, h⟩ := h
    exact ⟨s', hstep, ih n h⟩

/-! ## Two ways to run the code -/

section steps

variable {step' : Nat → N → S → Option S}

/-- What runs one way runs in every way that agrees where the first is defined. -/
theorem wp_mono_step (hstep : ∀ n node s s', step n node s = some s' → step' n node s = some s')
    {p : Prog N ε α} (h : p.wp step n s Q) : p.wp step' n s Q := by
  induction p generalizing n s with
  | done a => exact h
  | fail e => exact h
  | push node k ih =>
    obtain ⟨s', hs', h⟩ := h
    exact ⟨s', hstep n node s s' hs', ih n h⟩

/-- Only the nodes of the program matter. -/
theorem wp_congr_step {p : Prog N ε α}
    (h : ∀ i node, (p.nodes n)[i]? = some node → ∀ s, step (n + i) node s = step' (n + i) node s) :
    p.wp step n s Q ↔ p.wp step' n s Q := by
  induction p generalizing n s with
  | done a => exact Iff.rfl
  | fail e => exact Iff.rfl
  | push node k ih =>
    have hnode : step n node s = step' n node s := h 0 node rfl s
    have hrest (s' : S) : (k n).wp step (n + 1) s' Q ↔ (k n).wp step' (n + 1) s' Q := by
      refine ih n fun i node' hi s => ?_
      have hi' := h (i + 1) node' (by simpa [nodes] using hi) s
      rwa [← Nat.add_assoc, Nat.add_right_comm] at hi'
    simp only [wp, hnode, hrest]

end steps

/-! ## Running the code on larger states -/

section lift

variable {T : Type} {lift : S → T} {step' : Nat → N → T → Option T}
  (hstep : ∀ n node s s', step n node s = some s' → step' n node (lift s) = some (lift s'))
include hstep

/-- What runs on a state runs on every state it is a part of, if the steps do. -/
theorem wp_lift_step {p : Prog N ε α} (h : p.wp step n s Q) :
    p.wp step' n (lift s) fun a m t => ∃ s', t = lift s' ∧ Q a m s' := by
  induction p generalizing n s with
  | done a => exact ⟨s, rfl, h⟩
  | fail e => exact h
  | push node k ih =>
    obtain ⟨s', hs', h⟩ := h
    exact ⟨lift s', hstep n node s s' hs', ih n h⟩

/-- A rule that names the outcome is a rule there. -/
theorem wp_rule_lift {p : Prog N ε α} {r : α} {m : Nat} {t : S}
    (h : ∀ R : α → Nat → S → Prop, p.wp step n s R ↔ R r m t) (R : α → Nat → T → Prop) :
    p.wp step' n (lift s) R ↔ R r m (lift t) := by
  have hend := wp_lift_step hstep ((h fun a k u => a = r ∧ k = m ∧ u = t).mpr ⟨rfl, rfl, rfl⟩)
  constructor
  · intro hR
    obtain ⟨_, _, _, hR, _, rfl, rfl, rfl, rfl⟩ := wp_common hR hend
    exact hR
  · intro hR
    refine wp_mono hend ?_
    rintro _ _ _ ⟨_, rfl, rfl, rfl, rfl⟩
    exact hR

end lift

/-- A rule that names the outcome is a rule in every way of running that agrees where the first is
defined. -/
theorem wp_rule_mono {step' : Nat → N → S → Option S}
    (hstep : ∀ n node s s', step n node s = some s' → step' n node s = some s')
    {p : Prog N ε α} {r : α} {m : Nat} {t : S}
    (h : ∀ R : α → Nat → S → Prop, p.wp step n s R ↔ R r m t) (R : α → Nat → S → Prop) :
    p.wp step' n s R ↔ R r m t :=
  show p.wp step' n (id s) R ↔ R r m (id t) from wp_rule_lift hstep h R

/-! ## Rules -/

@[simp] theorem wp_pure (a : α) : (pure a : Prog N ε α).wp step n s Q ↔ Q a n s := Iff.rfl

@[simp] theorem wp_fail (e : ε) : (fail e : Prog N ε α).wp step n s Q ↔ False := Iff.rfl

@[simp] theorem wp_bind (p : Prog N ε α) (f : α → Prog N ε β) {Q : β → Nat → S → Prop} :
    (p >>= f).wp step n s Q ↔ p.wp step n s fun a m t => (f a).wp step m t Q := by
  change (p.bind f).wp step n s Q ↔ _
  induction p generalizing n s with
  | done a => exact Iff.rfl
  | fail e => exact Iff.rfl
  | push node k ih => simp only [bind, wp, ih]

/-- A program that ends well has a part that does. -/
theorem result_bind {p : Prog N ε α} {f : α → Prog N ε β} {b : β} (h : (p >>= f).result n = .ok b) :
    ∃ a m, (f a).result m = .ok b := by
  change (p.bind f).result n = _ at h
  induction p generalizing n with
  | done a => exact ⟨a, n, h⟩
  | fail e => cases h
  | push node k ih => exact ih n h

theorem wp_emit (node : N) {Q : Nat → Nat → S → Prop} :
    (emit node : Prog N ε Nat).wp step n s Q ↔
      ∃ s', step n node s = some s' ∧ Q n (n + 1) s' := Iff.rfl

/-- A loop over a list: what holds of the part that is done and of what is carried along is kept by
every round. -/
theorem wp_foldlM {f : β → γ → Prog N ε β} {l : List γ} {b : β} {Q : β → Nat → S → Prop}
    (inv : List γ → β → Nat → S → Prop) (h : inv [] b n s)
    (hstep : ∀ done c rest, l = done ++ c :: rest → ∀ b m t, inv done b m t →
      (f b c).wp step m t (inv (done ++ [c])))
    (hQ : ∀ b m t, inv l b m t → Q b m t) : (l.foldlM f b).wp step n s Q := by
  suffices hrun : ∀ rest done, l = done ++ rest → ∀ b n s, inv done b n s →
      (rest.foldlM f b).wp step n s Q from hrun l [] rfl b n s h
  intro rest
  induction rest with
  | nil =>
    intro done hl b n s h
    rw [List.append_nil] at hl
    subst hl
    exact hQ b n s h
  | cons c rest ih =>
    intro done hl b n s h
    rw [List.foldlM_cons, wp_bind]
    refine wp_mono (hstep done c rest hl b n s h) fun b m t h => ?_
    exact ih (done ++ [c]) (by rw [hl, List.append_assoc]; rfl) b m t h

end Prog

end Emitting
