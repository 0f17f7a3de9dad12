import Rustarmic.Lib.Emitting

/-!
# Code wherever it stands

Two emitters run side by side, the second one `d` places further on: `Alike` says that they push
related nodes one by one and end alike.  An emitter that is alike itself pushes the same code
wherever it stands, if the relation says so.

* `Alike.bind`, `alike_emit`, `alike_foldlM` — the rules for the constructs.
* `Alike.nodes`, `Alike.result` — what is said of the code.

The index of a node is all that an emitter gets back from pushing it, and so it may end up in later
nodes, in a result, or nowhere; what it may not do is decide the course of the emitter.  `Alike` is
the invariant that makes this a statement about one piece of code at a time.  Its postcondition
relates the two results and the index behind the code, since the code that comes next is run from
there, and the rule for `bind` is as easy as that of any program logic.

The relation on nodes is a parameter, with the index at which the nodes stand.  So arguments may be
compared as distances from there, or by how they were moved, and the library does not need to know
what a node is.
-/

namespace Emitting.Prog

variable {N ε α β γ : Type}

/-- The programs push related nodes, from the indices `n` and `n + d` on.  They end with the same
error, one that is `ok`, or what they return and the next index of the first one satisfy `Q`. -/
def Alike (d : Nat) (rel : Nat → N → N → Prop) (ok : ε → Prop) :
    Prog N ε α → Prog N ε α → Nat → (α → α → Nat → Prop) → Prop
  | done a, done a', n, Q => Q a a' n
  | fail e, fail e', _, _ => e = e' ∧ ok e
  | push node k, push node' k', n, Q => rel n node node' ∧ Alike d rel ok (k n) (k' (n + d)) (n + 1) Q
  | _, _, _, _ => False

variable {d n : Nat} {rel : Nat → N → N → Prop} {ok : ε → Prop} {p p' : Prog N ε α} {Q R : α → α → Nat → Prop}

/-- Programs that are alike are of one form, push after push. -/
theorem Alike.lockstep {motive : Prog N ε α → Prog N ε α → Nat → Prop} (h : Alike d rel ok p p' n Q)
    (hdone : ∀ a a' n, Q a a' n → motive (done a) (done a') n)
    (hfail : ∀ e n, ok e → motive (fail e) (fail e) n)
    (hpush : ∀ node node' k k' n, rel n node node' → Alike d rel ok (k n) (k' (n + d)) (n + 1) Q →
      motive (k n) (k' (n + d)) (n + 1) → motive (push node k) (push node' k') n) : motive p p' n := by
  induction p generalizing p' n with
  | done a =>
    cases p' with
    | done a' => exact hdone a a' n h
    | _ => exact h.elim
  | fail e =>
    cases p' with
    | fail e' =>
      obtain ⟨rfl, hok⟩ := h
      exact hfail e n hok
    | _ => exact h.elim
  | push node k ih =>
    cases p' with
    | push node' k' => exact hpush node node' k k' n h.1 h.2 (ih n h.2)
    | _ => exact h.elim

/-! ## Rules -/

/-- Indices only grow. -/
theorem Alike.mono (h : Alike d rel ok p p' n R) (hQ : ∀ a a' m, n ≤ m → R a a' m → Q a a' m) :
    Alike d rel ok p p' n Q := by
  refine Alike.lockstep (motive := fun p p' m => n ≤ m → Alike d rel ok p p' m Q) h ?_ ?_ ?_ (Nat.le_refl n)
  · exact fun a a' m h hle => hQ a a' m hle h
  · exact fun e m hok _ => ⟨rfl, hok⟩
  · exact fun node node' k k' m hrel _ ih hle => ⟨hrel, ih (Nat.le_succ_of_le hle)⟩

theorem alike_emit {node node' : N} {Q : Nat → Nat → Nat → Prop} (h : rel n node node')
    (hQ : Q n (n + d) (n + 1)) :
    Alike d rel ok (emit node) (emit node') n Q := ⟨h, hQ⟩

theorem Alike.bind {f f' : α → Prog N ε β} {Q : β → β → Nat → Prop} (h : Alike d rel ok p p' n R)
    (hf : ∀ a a' m, n ≤ m → R a a' m → Alike d rel ok (f a) (f' a') m Q) :
    Alike d rel ok (p >>= f) (p' >>= f') n Q := by
  refine Alike.lockstep (motive := fun p p' m => n ≤ m → Alike d rel ok (p.bind f) (p'.bind f') m Q) h ?_ ?_ ?_
    (Nat.le_refl n)
  · exact fun a a' m h hle => hf a a' m hle h
  · exact fun e m hok _ => ⟨rfl, hok⟩
  · exact fun node node' k k' m hrel _ ih hle => ⟨hrel, ih (Nat.le_succ_of_le hle)⟩

/-- A loop over a list. -/
theorem alike_foldlM {f f' : β → γ → Prog N ε β} {l : List γ} {b b' : β} (inv : β → β → Nat → Prop)
    (h : inv b b' n)
    (hstep : ∀ c b b' m, n ≤ m → inv b b' m → Alike d rel ok (f b c) (f' b' c) m inv) :
    Alike d rel ok (l.foldlM f b) (l.foldlM f' b') n inv := by
  induction l generalizing b b' n with
  | nil => exact h
  | cons c l ih =>
    rw [List.foldlM_cons, List.foldlM_cons]
    refine (hstep c b b' n (Nat.le_refl n) h).bind fun b b' m hle h => ?_
    exact ih h fun c b b' m' hle' => hstep c b b' m' (Nat.le_trans hle hle')

/-! ## What it says -/

theorem Alike.length (h : Alike d rel ok p p' n Q) : (p'.nodes (n + d)).length = (p.nodes n).length := by
  refine Alike.lockstep (motive := fun p p' n => (p'.nodes (n + d)).length = (p.nodes n).length) h ?_ ?_ ?_
  · exact fun a a' n _ => rfl
  · exact fun e n _ => rfl
  · intro node node' k k' n _ _ ih
    rw [Nat.add_right_comm] at ih
    exact congrArg (· + 1) ih

/-- Node by node. -/
theorem Alike.nodes (h : Alike d rel ok p p' n Q) : ∀ {i : Nat} {a a' : N}, (p.nodes n)[i]? = some a →
    (p'.nodes (n + d))[i]? = some a' → rel (n + i) a a' := by
  refine Alike.lockstep (motive := fun p p' n => ∀ {i : Nat} {a a' : N}, (p.nodes n)[i]? = some a →
    (p'.nodes (n + d))[i]? = some a' → rel (n + i) a a') h ?_ ?_ ?_
  · rintro a a' n - i _ _ ⟨⟩
  · rintro e n - i _ _ ⟨⟩
  · intro node node' k k' n hrel _ ih i a a' ha ha'
    cases i with
    | zero =>
      cases ha
      cases ha'
      exact hrel
    | succ i =>
      have hrest := ih (i := i) ha (by rw [Nat.add_right_comm]; exact ha')
      rwa [Nat.add_right_comm, Nat.add_assoc] at hrest

/-- The ends. -/
theorem Alike.result (h : Alike d rel ok p p' n Q) :
    (∃ a a', p.result n = .ok a ∧ p'.result (n + d) = .ok a' ∧ Q a a' (n + (p.nodes n).length)) ∨
      ∃ e, p.result n = .error e ∧ p'.result (n + d) = .error e ∧ ok e := by
  refine Alike.lockstep (motive := fun p p' n => (∃ a a', p.result n = .ok a ∧ p'.result (n + d) = .ok a' ∧
    Q a a' (n + (p.nodes n).length)) ∨ ∃ e, p.result n = .error e ∧ p'.result (n + d) = .error e ∧
    ok e) h ?_ ?_ ?_
  · exact fun a a' n h => .inl ⟨a, a', rfl, rfl, h⟩
  · exact fun e n hok => .inr ⟨e, rfl, rfl, hok⟩
  · intro node node' k k' n _ _ ih
    rw [Nat.add_right_comm n 1 d] at ih
    rcases ih with ⟨a, a', ha, ha', hQ⟩ | ⟨e, he, he', hok⟩
    · refine .inl ⟨a, a', ha, ha', ?_⟩
      rwa [Nat.add_assoc, Nat.add_comm 1] at hQ
    · exact .inr ⟨e, he, he', hok⟩

end Emitting.Prog
