import Rustarmic.Jit.Compile

/-!
# The budget of a run

`run_bounded` promises to execute at most `budget` guest instructions and to return how many it
executed.  `Honoured` spells the promise out for one call: the log of the run is a run of the
machine (`Ran`), it adds up to at most the budget and to the count that is returned, a capped block
is asked for only while nothing is executed, nothing is executed for a budget of zero, and where the
call owes an instruction, one is executed.

It owes one when there is something to spend, no halt is pending, and code can be had at the PC
(`Compilable`): the block in the hash map, or else the block that `compile` publishes, and, if this
block is longer than the slice, one under the cap that the budget asks for.  The dispatch slots do
not enter into that; they are only there to find the same block faster.

One PC breaks the promise.  An empty slot is marked by the PC `u64::MAX`, and a lookup of this very
PC in a slot that is empty answers with the miss stub.  The dispatcher enters the stub, nothing is
charged, and what it gets back is whatever `RAX` held.  `runBounded_honours_iff` is exact about it:
for every JIT, context and budget, the call keeps the promise whatever `RAX` holds if and only if,
where it owes an instruction, its PC is not the mark of an empty slot sitting in one.
-/

set_option autoImplicit false

namespace Rustarmic

namespace Jit

variable {ω : Type} (J : Jit ω)

/-! ## The promise -/

/-- One call of `run_bounded`, on a machine whose `RAX` reads as `stubRax` at the miss stub. -/
def runBounded (stubRax : Guest BlockCache ω → U64) (ctx : GuestContext BlockCache ω) (budget : U64) :
    Option (RunState (Guest BlockCache ω) × Except Error RunOutcome) :=
  (J.guestJit stubRax).ops.runBounded ctx budget

/-- The block at a PC: the one in the hash map, or else the one that is compiled. -/
def blockAt (s : Guest BlockCache ω) (pc : U64) : Guest BlockCache ω × Except Error Nat :=
  match s.cache.cache.table pc with
  | some e => ({ s with cache := (s.cache.lookupDispatchMeta pc).1 }, .ok e.hostPtr)
  | none => J.compileIn s pc none

/-- The block at a PC under a cap. -/
def cappedAt (s : Guest BlockCache ω) (pc : U64) (cap : U32) : Guest BlockCache ω × Except Error Nat :=
  match s.cache.cache.lookupCapped pc cap with
  | some host => (s, .ok host)
  | none => J.compileIn s pc (some cap)

/-- Code can be had at the PC, and under the cap if the block is longer than the slice. -/
def Compilable (s : Guest BlockCache ω) (pc budget : U64) : Prop :=
  ∃ s₁ host b, J.blockAt s pc = (s₁, .ok host) ∧ s₁.cache.blocks host = some b ∧
    ((JitOps.slice budget).toNat < ((J.nodeBlock b).hostBlock J.cb J.mode).insns →
      ∃ s₂ host₂, J.cappedAt s₁ pc (JitOps.cap budget) = (s₂, .ok host₂))

/-- There is something to spend, no halt is pending, and code can be had. -/
structure Owes (ctx : GuestContext BlockCache ω) (budget : U64) : Prop where
  budget_pos : 1 ≤ budget.toNat
  no_halt : ctx.shouldHalt = 0
  compilable : J.Compilable ctx.rest ctx.pc budget

/-- What `run_bounded` promises of a call that came back. -/
structure Honoured (stubRax : Guest BlockCache ω → U64) (ctx : GuestContext BlockCache ω)
    (budget : U64) (s : RunState (Guest BlockCache ω)) (result : Except Error RunOutcome) : Prop where
  ran : Ran (J.guestJit stubRax).ops budget { ctx with memFault := 0, memFaultSkipPc := 0 } s.ran
    s.ctx none
  charged_pos : ∀ n ∈ s.ran, 1 ≤ n
  sum_le : s.ran.sum ≤ budget.toNat
  retired_eq : ∀ o, result = .ok o → o.retired.toNat = s.ran.sum
  capped_first : ∀ retired ∈ s.cappedAt, retired = 0
  zero : budget = 0 → s.ran = []
  progress : J.Owes ctx budget → 1 ≤ s.ran.sum

/-! ## Away from the mark -/

/-- Where a lookup answers with what the hash map has, the dispatcher finds the block there is. -/
theorem entry_eq (stubRax : Guest BlockCache ω → U64) {s : Guest BlockCache ω} {pc : U64}
    (h : ¬ s.cache.Marked pc) : (J.guestJit stubRax).ops.entry s pc = J.blockAt s pc := by
  have hlookup := s.cache.lookupDispatchMeta_snd h
  rw [JitOps.entry, blockAt]
  simp only [guestJit, hlookup]
  cases htable : s.cache.cache.table pc with
  | some e => rfl
  | none =>
    -- Nothing is filled in, so the compiler starts from the same state.
    simp only [s.cache.lookupDispatchMeta_fst htable]
    rfl

theorem compilable_ops (stubRax : Guest BlockCache ω → U64) {s : Guest BlockCache ω} {pc budget : U64}
    (h : ¬ s.cache.Marked pc) (hcomp : J.Compilable s pc budget) :
    (J.guestJit stubRax).ops.Compilable s pc budget := by
  obtain ⟨s₁, host, b, hblock, hb, hcap⟩ := hcomp
  refine ⟨s₁, host, _, (J.entry_eq stubRax h).trans hblock,
    Option.map_eq_some_iff.mpr ⟨b, hb, rfl⟩, fun hlong => ?_⟩
  obtain ⟨s₂, host₂, hcapped⟩ := hcap hlong
  exact ⟨s₂, host₂, hcapped⟩

/-- What holds of every call, on the mark and away from it. -/
theorem runBounded_honoured (stubRax : Guest BlockCache ω → U64) (ctx : GuestContext BlockCache ω)
    (budget : U64) (h : J.Owes ctx budget → ¬ ctx.rest.cache.Marked ctx.pc) :
    ∃ s result, J.runBounded stubRax ctx budget = some (s, result) ∧
      J.Honoured stubRax ctx budget s result := by
  obtain ⟨s, result, hrun, hsum, hpos, hret, hcapped, hzero, hprogress⟩ :=
    JitOps.runBounded_sound (J.guestJit stubRax).ops ctx budget
  refine ⟨s, result, hrun, JitOps.runBounded_executes _ hrun, hpos, hsum, hret, hcapped, hzero, ?_⟩
  intro howes
  exact hprogress howes.budget_pos howes.no_halt
    (J.compilable_ops stubRax (h howes) howes.compilable)

/-! ## On the mark -/

/-- What `RAX` may hold: an exit value of the kind that stops a run. -/
def stopRax : U64 := 0xE0000000000000FF

theorem decodeExit_stopRax : decodeExit stopRax = .stop .stopped := by decide

/-- A turn that enters the miss stub runs nothing, and ends the call if an exit value comes back. -/
theorem entryTurn_stub {σ : Type} (ops : JitOps σ) {s : RunState σ} (remaining : U64) {host : Nat}
    {reason : ExitReason} (hcode : ops.code s.ctx.rest host = none)
    (hpc : ops.stubRax s.ctx.rest ≠ s.ctx.pc) (hfault : s.ctx.memFault = 0) (hret : s.retired = 0)
    (hexit : decodeExit (ops.stubRax s.ctx.rest) = .stop reason) :
    ∃ s', ops.entryTurn s remaining host = .done s' (.ok (.fromReason reason 0)) ∧
      s'.ran = s.ran := by
  have hslice : ops.enterSlice (JitOps.slice remaining) host s.ctx =
      ⟨{ s.ctx with budgetRemaining := JitOps.slice remaining }, ops.stubRax s.ctx.rest, []⟩ := by
    rw [JitOps.enterSlice, enterBlock, hcode]
  have hexecuted : (JitOps.afterSlice s (JitOps.slice remaining)
      ⟨{ s.ctx with budgetRemaining := JitOps.slice remaining }, ops.stubRax s.ctx.rest, []⟩).retired
        = 0 := by
    simp only [JitOps.afterSlice, JitOps.executed, JitOps.slice_msb, hret]
    rw [if_neg Bool.false_ne_true, BitVec.sub_self]
    rfl
  have hquiet : ¬ (JitOps.afterSlice s (JitOps.slice remaining)
      ⟨{ s.ctx with budgetRemaining := JitOps.slice remaining }, ops.stubRax s.ctx.rest, []⟩).ctx.memFault
        ≠ 0 := not_not.mpr hfault
  rw [JitOps.entryTurn, hslice, if_neg fun h => hpc h.2.1, JitOps.afterEntry, if_neg hquiet, hexit,
    hexecuted]
  exact ⟨_, rfl, List.append_nil _⟩

/-- **On the mark** the miss stub is entered, nothing runs, and if `RAX` holds an exit value the
call returns at once. -/
theorem runBounded_marked (ctx : GuestContext BlockCache ω) (budget : U64)
    (hmark : ctx.rest.cache.Marked ctx.pc) (hbudget : 1 ≤ budget.toNat) (hhalt : ctx.shouldHalt = 0) :
    ∃ s, J.runBounded (fun _ => stopRax) ctx budget = some (s, .ok ⟨.stopped, .halted, 0⟩) ∧
      s.ran = [] := by
  generalize hops : (J.guestJit fun _ => stopRax).ops = ops
  generalize hs : ({ ctx.rest with cache := (ctx.rest.cache.lookupDispatchMeta ctx.pc).1 } :
    Guest BlockCache ω) = rest
  have hentry : ops.entry ctx.rest ctx.pc = (rest, .ok ctx.rest.cache.cache.missStub) := by
    have hlookup : ops.lookupDispatchMeta ctx.rest ctx.pc =
        (rest, some ctx.rest.cache.cache.missStub) := by
      rw [← hops, ← hs, ← ctx.rest.cache.lookupDispatchMeta_marked hmark]
      rfl
    rw [JitOps.entry, hlookup]
  have hcode : ops.code rest ctx.rest.cache.cache.missStub = none := by
    rw [← hops, ← hs]
    exact Option.map_eq_none_iff.mpr ctx.rest.cache.blocks_missStub
  have hpc : ops.stubRax rest ≠ ctx.pc := by
    rw [← hops, hmark.1]
    exact (by decide : stopRax ≠ emptyPc)
  have hexit : decodeExit (ops.stubRax rest) = .stop .stopped := by
    rw [← hops]
    exact decodeExit_stopRax
  obtain ⟨s, hturn, hran⟩ := entryTurn_stub ops (budget - 0)
    (s := ⟨{ ctx with memFault := 0, memFaultSkipPc := 0, rest }, 0, [], []⟩) hcode hpc rfl rfl hexit
  have hspent : ¬ budget ≤ (0 : U64) := by
    rw [BitVec.le_def, JitOps.toNat_zero_u64]
    omega
  refine ⟨s, ?_, hran⟩
  rw [runBounded, hops, JitOps.runBounded, JitOps.runTurns, JitOps.runTurn,
    if_neg (not_not.mpr hhalt), if_neg hspent]
  simp only [hentry]
  rw [hturn]
  rfl

/-- **The budget is honoured** whatever `RAX` holds at the miss stub, if and only if the PC of a
call that owes an instruction is not the mark of an empty slot, sitting in one. -/
theorem runBounded_honours_iff (ctx : GuestContext BlockCache ω) (budget : U64) :
    (∀ stubRax, ∃ s result, J.runBounded stubRax ctx budget = some (s, result) ∧
        J.Honoured stubRax ctx budget s result) ↔
      (J.Owes ctx budget →
        ¬ (ctx.pc = emptyPc ∧ ctx.rest.cache.cache.dispatch (dispatchIndex ctx.pc)
          = ctx.rest.cache.cache.emptySlot)) := by
  refine ⟨fun h howes hmark => ?_, fun h stubRax => J.runBounded_honoured stubRax ctx budget h⟩
  obtain ⟨s, result, hrun, hs⟩ := h fun _ => stopRax
  obtain ⟨s', hrun', hnil⟩ := J.runBounded_marked ctx budget hmark howes.budget_pos howes.no_halt
  rw [hrun', Option.some.injEq, Prod.mk.injEq] at hrun
  have hpos := hs.progress howes
  rw [← hrun.1, hnil] at hpos
  exact absurd hpos (by decide)

/-! ## A call on the mark -/

/-- A guest whose memory is full of `NOP`s, translated one at a time. -/
def nopJit : Jit Unit where
  translate := ⟨1, true⟩
  linkBlocks := true
  resumeAfterFault := false
  lowering := .branches
  fetchInst _ g := (some 0xD503201F, g)
  emit _ := .ok (CodeCache.plainBlock [0xC3] .full)
  nodes _ := []
  leave b _ := (none, .ret b.endPc)
  sort := CodeCache.stableSort
  cb _ g := ⟨g, none, false, id⟩
  mode := .off
  decodedClass _ := "decode"

/-- A new cache, and a PC that is the mark of its empty slots. -/
def markedCtx : GuestContext BlockCache Unit :=
  ⟨emptyPc, 0, 0, 0, 0, 0, 0, 0, 0, 0,
    ⟨.new CodeCache.sampleMemory CodeCache.sampleStubs (fun _ => 0) rfl, fun _ => 0,
      ⟨fun _ => 0, ⟨0, 0, 0⟩, 0, 0, ⟨0, 0, 0, fun _ => 0⟩, ⟨fun _ => 0, fun _ _ => false⟩, ()⟩, []⟩⟩

/-- The `NOP` at that PC can be compiled, and one instruction may be spent. -/
theorem owes_markedCtx : nopJit.Owes markedCtx 1 := by
  refine ⟨by decide, rfl, ?_⟩
  have hfits : (markedCtx.rest.cache.cache.appendRaw [0xC3]).2 = .ok 0x10000020 := rfl
  obtain ⟨⟨c, g⟩, hcompile⟩ := nopJit.compile_isOk emptyPc none markedCtx.rest.cache
    markedCtx.rest.state rfl (fun _ => rfl) hfits
  obtain ⟨b, hb, -, hle⟩ := nopJit.compile_block hcompile
  refine ⟨{ markedCtx.rest with cache := c, state := g }, 0x10000020, b, ?_, hb, fun hlong => ?_⟩
  · have hcompiled : nopJit.compileIn markedCtx.rest emptyPc none =
        ({ markedCtx.rest with cache := c, state := g }, .ok 0x10000020) := by
      rw [compileIn, hcompile]
    exact hcompiled
  · have hinsns := ((nopJit.nodeBlock b).hostBlock nopJit.cb nopJit.mode).insns_le_max_cycles
    have hone : b.cycles.toNat ≤ 1 := hle
    have hslice : (JitOps.slice 1).toNat = 1 := by decide
    rw [hslice] at hlong
    exact absurd (hlong.trans_le (hinsns.trans (max_le hone le_rfl))) (lt_irrefl 1)

/-- **Nothing is executed on the mark**: the call enters the miss stub and returns what `RAX`
held. -/
theorem runBounded_markedCtx : nopJit.Owes markedCtx 1 ∧
    ∃ s, nopJit.runBounded (fun _ => stopRax) markedCtx 1 = some (s, .ok ⟨.stopped, .halted, 0⟩) ∧
      s.ran = [] ∧ ∀ result, ¬ nopJit.Honoured (fun _ => stopRax) markedCtx 1 s result := by
  obtain ⟨s, hrun, hnil⟩ := nopJit.runBounded_marked markedCtx 1 ⟨rfl, rfl⟩ (by decide) rfl
  refine ⟨owes_markedCtx, s, hrun, hnil, fun result h => ?_⟩
  have hpos := h.progress owes_markedCtx
  rw [hnil] at hpos
  exact absurd hpos (by decide)

end Jit

end Rustarmic
