import Rustarmic.Jit.RunBounded

/-!
# What a run has executed

`runBounded` keeps a log of what its blocks charged, and a log by itself proves nothing: a
dispatcher that enters no block at all would keep an empty one.  This file ties the log to the
machine.

`Ran ops budget ctx₀ l ctx at?` describes a run from the outside, as steps from the context `ctx₀`:
the dispatcher looks for a block at the PC and, with nothing executed so far, for a capped one;
generated code is entered with a budget of the slice that is left; a block that is there, with no
halt or fault pending and a charge that does not go negative, is charged and its body runs; its exit
leads to another entry or back to the dispatcher.  The list `l` grows where a body runs and nowhere
else, by what was charged, and the context changes only by the bodies, by the searches, and in the
fields that belong to the dispatcher.  `at?` is the entry the machine is about to go through, if it
is not in the dispatcher.

* `ran_enterBlock` follows one call of the thunk, through chained blocks, to where it comes back.
* `ran_runTurn` is one turn of the loop, `ran_runTurns` any number of them.
* `runBounded_executes` is the result: the log that `runBounded` ends with is that of such a run to
  the context that it ends with.

Nothing here is said about which PC the dispatcher goes on at; `Jit.ExitValue` is about that.
-/

set_option autoImplicit false

namespace Rustarmic

variable {σ : Type}

open JitOps (slice cap afterSlice)

/-- From `ctx₀` a run with the given budget has come to `ctx`; the bodies of blocks that ran on the
way were charged the numbers of the list, in this order. -/
inductive Ran (ops : JitOps σ) (budget : U64) (ctx₀ : CpuContext σ) :
    List Nat → CpuContext σ → Option Nat → Prop where
  | start : Ran ops budget ctx₀ [] ctx₀ none
  /-- The dispatcher writes the PC and the halt flag. -/
  | dispatch {l : List Nat} {ctx : CpuContext σ} (h : Ran ops budget ctx₀ l ctx none) (pc : U64)
      (shouldHalt : U8) : Ran ops budget ctx₀ l { ctx with pc, shouldHalt } none
  /-- It finds or compiles the block at the PC, and enters it with what is left. -/
  | found {l : List Nat} {ctx : CpuContext σ} {rest : σ} {host : Nat}
      (h : Ran ops budget ctx₀ l ctx none) (hentry : ops.entry ctx.rest ctx.pc = (rest, .ok host)) :
      Ran ops budget ctx₀ l
        { ctx with rest, budgetRemaining := slice (budget - BitVec.ofNat 64 l.sum) } (some host)
  | notFound {l : List Nat} {ctx : CpuContext σ} {rest : σ} {e : Error}
      (h : Ran ops budget ctx₀ l ctx none) (hentry : ops.entry ctx.rest ctx.pc = (rest, .error e)) :
      Ran ops budget ctx₀ l { ctx with rest } none
  /-- Before anything was executed, it finds or compiles a capped block. -/
  | foundCapped {ctx : CpuContext σ} {rest : σ} {host : Nat} (h : Ran ops budget ctx₀ [] ctx none)
      (hentry : ops.cappedEntry ctx.rest ctx.pc (cap budget) = (rest, .ok host)) :
      Ran ops budget ctx₀ [] { ctx with rest, budgetRemaining := slice budget } (some host)
  | notFoundCapped {ctx : CpuContext σ} {rest : σ} {e : Error}
      (h : Ran ops budget ctx₀ [] ctx none)
      (hentry : ops.cappedEntry ctx.rest ctx.pc (cap budget) = (rest, .error e)) :
      Ran ops budget ctx₀ [] { ctx with rest } none
  /-- An admitted block runs. -/
  | body {l : List Nat} {ctx ctx' : CpuContext σ} {host : Nat} {b : HostBlock σ} {exit : BlockExit}
      (h : Ran ops budget ctx₀ l ctx (some host)) (hcode : ops.code ctx.rest host = some b)
      (hhalt : ctx.shouldHalt = 0) (hfault : ctx.memFault = 0)
      (hfits : (ctx.charge b.insns).budgetRemaining.msb = false)
      (hbody : b.body (ctx.charge b.insns) = (ctx', exit)) :
      Ran ops budget ctx₀ (l ++ [b.insns]) ctx' exit.host?
  /-- An entry that admits nothing comes back. -/
  | back {l : List Nat} {ctx : CpuContext σ} {host : Nat}
      (h : Ran ops budget ctx₀ l ctx (some host)) : Ran ops budget ctx₀ l ctx none

namespace JitOps

variable (ops : JitOps σ) {budget : U64} {ctx₀ : CpuContext σ}

/-- **A call of the thunk.**  What it charged is what the bodies that ran charged. -/
theorem ran_enterBlock (host : Nat) (ctx : CpuContext σ) : ∀ l,
    Ran ops budget ctx₀ l ctx (some host) →
      Ran ops budget ctx₀ (l ++ (enterBlock ops.code ops.stubRax host ctx).charged)
        (enterBlock ops.code ops.stubRax host ctx).ctx none := by
  fun_induction enterBlock ops.code ops.stubRax host ctx with
  | case1 host ctx hcode =>
    intro l h
    simpa using h.back
  | case2 host ctx b hcode hbail =>
    intro l h
    simpa using h.back
  | case3 host ctx b hcode hbail hneg =>
    intro l h
    simpa using h.back
  | case4 host ctx b hcode hbail hfits ctx' rax hbody =>
    intro l h
    rw [not_or, not_not, not_not] at hbail
    exact h.body hcode hbail.1 hbail.2 (Bool.not_eq_true _ ▸ hfits) hbody
  | case5 host ctx b hcode hbail hfits ctx' host' hbody r ih =>
    intro l h
    rw [not_or, not_not, not_not] at hbail
    have hrest := ih _ (h.body hcode hbail.1 hbail.2 (Bool.not_eq_true _ ▸ hfits) hbody)
    rwa [List.append_assoc] at hrest

/-- **A slice.**  The log grows by what came back from the thunk. -/
theorem ran_afterSlice {s : RunState σ} {slice : U64} {host : Nat} {ctx : CpuContext σ}
    (h : Ran ops budget ctx₀ s.ran { ctx with budgetRemaining := slice } (some host)) :
    Ran ops budget ctx₀ (afterSlice s slice (ops.enterSlice slice host ctx)).ran
      (afterSlice s slice (ops.enterSlice slice host ctx)).ctx none :=
  ops.ran_enterBlock host _ _ h

/-- What the dispatcher does with the number that came back. -/
theorem ran_afterEntry {s : RunState σ} (h : Ran ops budget ctx₀ s.ran s.ctx none) (nextPc : U64) :
    Ran ops budget ctx₀ (ops.afterEntry s nextPc).state.ran (ops.afterEntry s nextPc).state.ctx
      none := by
  rw [afterEntry]
  split
  · exact h.dispatch _ s.ctx.shouldHalt
  · cases decodeExit nextPc with
    | stop reason => exact h
    | goto pc => exact h.dispatch pc s.ctx.shouldHalt

/-- The capped retry, before anything was executed. -/
theorem ran_cappedTurn {s : RunState σ} (h : Ran ops budget ctx₀ s.ran s.ctx none)
    (hran : s.ran = []) :
    Ran ops budget ctx₀ (ops.cappedTurn s s.ctx.pc budget).state.ran
      (ops.cappedTurn s s.ctx.pc budget).state.ctx none := by
  rw [hran] at h
  rw [cappedTurn]
  dsimp only
  split
  · rename_i rest e hentry
    rw [Turn.state, hran]
    exact h.notFoundCapped hentry
  · rename_i rest host hentry
    refine ops.ran_afterEntry (ops.ran_afterSlice ?_) _
    rw [hran]
    exact h.foundCapped hentry

/-- What is left of the budget, counted by the log. -/
theorem Inv.remaining_eq {s : RunState σ} (h : Inv budget s) :
    budget - s.retired = budget - BitVec.ofNat 64 s.ran.sum := by
  rw [← h.retired_eq, BitVec.ofNat_toNat, BitVec.setWidth_eq]

theorem Inv.ran_eq_nil {s : RunState σ} (h : Inv budget s) (h0 : s.retired = 0) : s.ran = [] := by
  by_contra hne
  have hpos := sum_pos_of_ne_nil h.ran_pos hne
  rw [← h.retired_eq, h0, toNat_zero_u64] at hpos
  exact absurd hpos (lt_irrefl 0)

/-- A turn from a block that was found.  Where the slice refuses the block nothing was charged, so
the capped retry starts from an empty log if it starts at all. -/
theorem ran_entryTurn {s : RunState σ} {host : Nat} (hinv : Inv budget s)
    (hle : s.retired ≤ budget)
    (h : Ran ops budget ctx₀ s.ran { s.ctx with budgetRemaining := slice (budget - s.retired) }
      (some host)) :
    Ran ops budget ctx₀ (ops.entryTurn s (budget - s.retired) host).state.ran
      (ops.entryTurn s (budget - s.retired) host).state.ctx none := by
  have hslice := ops.ran_afterSlice h
  have hinv' := hinv.afterSlice ops hle host s.ctx
  obtain ⟨hex, -, hpos, hnil⟩ :=
    ops.enterSlice_spec (slice (budget - s.retired)) host s.ctx (slice_msb _)
  rw [entryTurn]
  generalize ops.enterSlice (slice (budget - s.retired)) host s.ctx = r at *
  split
  · rename_i hrefused
    split
    · exact hslice
    · rename_i hret
      have h0 : s.retired = 0 := by
        apply BitVec.eq_of_toNat_eq
        rw [BitVec.lt_def] at hret
        simpa using hret
      have hcharged : r.charged = [] := by
        by_contra hne
        have hsum := sum_pos_of_ne_nil hpos hne
        rw [← hex, hrefused.1] at hsum
        exact absurd hsum (lt_irrefl 0)
      have hran : (afterSlice s (slice (budget - s.retired)) r).ran = [] := by
        rw [afterSlice, hinv.ran_eq_nil h0, hcharged]
        rfl
      have hpc : s.ctx.pc = (afterSlice s (slice (budget - s.retired)) r).ctx.pc := by
        rw [afterSlice, (hnil hcharged).1]
      have hall : budget - s.retired = budget := by
        rw [h0]
        exact BitVec.sub_zero budget
      rw [hpc, hall]
      rw [hall] at hslice hran
      exact ops.ran_cappedTurn hslice hran
  · exact ops.ran_afterEntry hslice _

/-- **One turn.** -/
theorem ran_runTurn {s : RunState σ} (hinv : Inv budget s)
    (h : Ran ops budget ctx₀ s.ran s.ctx none) :
    Ran ops budget ctx₀ (ops.runTurn budget s).state.ran (ops.runTurn budget s).state.ctx none := by
  rw [runTurn]
  split
  · exact h.dispatch s.ctx.pc 0
  · split
    · exact h
    · rename_i hspent
      split
      · rename_i rest e hentry
        exact h.notFound hentry
      · rename_i rest host hentry
        have hfound := h.found hentry
        rw [← hinv.remaining_eq] at hfound
        exact ops.ran_entryTurn (s := { s with ctx := { s.ctx with rest } }) (hinv.of_eq rfl rfl rfl)
          (BitVec.le_of_lt (BitVec.not_le.mp hspent)) hfound

/-- **Any number of turns.** -/
theorem ran_runTurns {fuel : Nat} {s s' : RunState σ} {result : Except Error RunOutcome}
    (hinv : Inv budget s) (hfault : s.ctx.memFault = 0)
    (h : Ran ops budget ctx₀ s.ran s.ctx none)
    (hrun : ops.runTurns budget fuel s = some (s', result)) :
    Ran ops budget ctx₀ s'.ran s'.ctx none := by
  induction fuel generalizing s with
  | zero => cases hrun
  | succ fuel ih =>
    have hturn := (runTurn_spec ops hinv hfault).1
    have hran := ops.ran_runTurn hinv h
    rw [runTurns] at hrun
    split at hrun
    · rename_i s₁ result₁ heq
      obtain ⟨rfl, rfl⟩ := Prod.mk.inj (Option.some.inj hrun)
      rwa [heq] at hran
    · rename_i s₁ heq
      rw [heq] at hturn hran
      exact ih hturn.1 hturn.2.1 hran hrun

/-- **The log is that of a run** of the machine from the context the call starts from, with the
fault state of earlier calls cleared, to the context it ends with. -/
theorem runBounded_executes {ctx : CpuContext σ} {s : RunState σ} {result : Except Error RunOutcome}
    (hrun : ops.runBounded ctx budget = some (s, result)) :
    Ran ops budget { ctx with memFault := 0, memFaultSkipPc := 0 } s.ran s.ctx none :=
  ops.ran_runTurns ⟨rfl, by simp, by simp, by simp⟩ rfl .start hrun

end JitOps

end Rustarmic
