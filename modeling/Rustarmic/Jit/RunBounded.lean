import Rustarmic.Error
import Rustarmic.Jit.ExitValue

/-!
# The dispatcher loop and its instruction budget

`run_bounded` executes at most `budget` guest instructions.  It enters generated code with
`ctx.budget_remaining` set to the slice that is left; every block charges its instruction count on
entry and refuses to run (returning its own PC, the budget restored) when it does not fit, so that
blocks chained to one another honour the budget without the dispatcher's help.

* `HostBlock` and `enterBlock` are the entry protocol of generated code: the halt and fault test,
  the charge, the refusal, and the jump to a chained block.
* `JitOps` is what the loop asks of the rest of the JIT: the dispatch lookup, the capped lookup and
  the compiler.  Its fields carry what the loop relies on: the block found for a PC starts there, a
  block compiled under a cap has no more instructions than the cap.  The loop knows nothing else of
  the code cache and the compiler, so neither does this file; `Jit.Compile` puts the two together
  and proves the fields of them.
* `runTurn` is one turn of the outer loop and `runBounded` the whole call.

The run keeps a log of what was charged and of when a capped block was asked for; no code reads it.
`runBounded_sound` relates the returned count to it, and `Jit.RunPath` the log to what was executed.
-/

set_option autoImplicit false

namespace Rustarmic

/-! ## Generated code, seen from its entry point -/

/-- The fields of the guest context the dispatcher reads or writes.  `rest` stands for everything
else that changes during a run: guest registers, guest memory, the embedder behind the callbacks,
the code cache. -/
structure CpuContext (σ : Type) where
  pc : U64
  shouldHalt : U8
  memFault : U8
  memFaultAccess : U8
  memFaultSize : U8
  memFaultCause : U8
  memFaultAddr : U64
  memFaultPc : U64
  memFaultSkipPc : U64
  /-- An `i64`. -/
  budgetRemaining : U64
  rest : σ

/-- How the body of a block ends: it returns a number to the dispatcher, or jumps to the entry of
another block through a linked chain site or a dispatch-table hit. -/
inductive BlockExit where
  | ret (rax : U64)
  | jump (host : Nat)
  deriving DecidableEq, Repr

/-- The entry a block is left for, unless it returns. -/
def BlockExit.host? : BlockExit → Option Nat
  | ret _ => none
  | jump host => some host

/-- A published block: where it starts in the guest, how many guest instructions it covers, and
what it does once it has been admitted.  Only block entries change the budget. -/
structure HostBlock (σ : Type) where
  startPc : U64
  cycles : U32
  body : CpuContext σ → CpuContext σ × BlockExit
  body_budget : ∀ ctx, (body ctx).1.budgetRemaining = ctx.budgetRemaining

namespace HostBlock

variable {σ : Type}

/-- The immediate of the entry charge: `block.cycles.max(1).min(i32::MAX)`. -/
def insns (b : HostBlock σ) : Nat := min (max b.cycles.toNat 1) i32Max

theorem one_le_insns (b : HostBlock σ) : 1 ≤ b.insns := by
  simp only [insns, i32Max]
  omega

theorem insns_le (b : HostBlock σ) : b.insns ≤ i32Max := Nat.min_le_right _ _

theorem insns_le_max_cycles (b : HostBlock σ) : b.insns ≤ max b.cycles.toNat 1 :=
  Nat.min_le_left _ _

theorem budgetRemaining_of_body {b : HostBlock σ} {ctx ctx' : CpuContext σ} {e : BlockExit}
    (h : b.body ctx = (ctx', e)) : ctx'.budgetRemaining = ctx.budgetRemaining := by
  rw [← b.body_budget ctx, h]

end HostBlock

/-- What one call of the thunk leaves: the context, the returned number, and the instruction counts
of the blocks that ran, in order. -/
structure Entered (σ : Type) where
  ctx : CpuContext σ
  rax : U64
  charged : List Nat

variable {σ : Type}

/-- A charge that does not make the budget negative makes it smaller. -/
theorem toNat_charge {b : U64} {n : Nat} (hn : n ≤ i32Max)
    (h : (b - BitVec.ofNat 64 n).msb = false) :
    (b - BitVec.ofNat 64 n).toNat + n = b.toNat := by
  have hb := b.isLt
  rw [BitVec.msb_eq_false_iff_two_mul_lt, BitVec.toNat_sub, BitVec.toNat_ofNat] at h
  rw [BitVec.toNat_sub, BitVec.toNat_ofNat]
  simp only [i32Max] at hn
  omega

/-- The context after the entry charge. -/
def CpuContext.charge (ctx : CpuContext σ) (n : Nat) : CpuContext σ :=
  { ctx with budgetRemaining := ctx.budgetRemaining - BitVec.ofNat 64 n }

/-- The context after the charge was given back. -/
def CpuContext.restore (ctx : CpuContext σ) (n : Nat) : CpuContext σ :=
  { ctx with budgetRemaining := ctx.budgetRemaining + BitVec.ofNat 64 n }

@[simp] theorem CpuContext.charge_restore (ctx : CpuContext σ) (n : Nat) :
    (ctx.charge n).restore n = ctx := by
  simp [charge, restore]

theorem CpuContext.charge_budgetRemaining (ctx : CpuContext σ) (n : Nat) :
    (ctx.charge n).budgetRemaining = ctx.budgetRemaining - BitVec.ofNat 64 n := rfl

/-- Enter the code at `host`: bail when a halt or a fault is pending, charge the budget, bail with
the budget restored when it went negative, run the body, follow it into the next block.  Where
there is no block, `host` is the miss stub, which returns what `RAX` happens to hold. -/
def enterBlock (code : σ → Nat → Option (HostBlock σ)) (stubRax : σ → U64) (host : Nat)
    (ctx : CpuContext σ) : Entered σ :=
  match code ctx.rest host with
  | none => ⟨ctx, stubRax ctx.rest, []⟩
  | some b =>
    if ctx.shouldHalt ≠ 0 ∨ ctx.memFault ≠ 0 then ⟨ctx, b.startPc, []⟩
    else if _h : (ctx.charge b.insns).budgetRemaining.msb = true then
      ⟨(ctx.charge b.insns).restore b.insns, b.startPc, []⟩
    else
      match _hb : b.body (ctx.charge b.insns) with
      | (ctx', .ret rax) => ⟨ctx', rax, [b.insns]⟩
      | (ctx', .jump host') =>
        let r := enterBlock code stubRax host' ctx'
        ⟨r.ctx, r.rax, b.insns :: r.charged⟩
termination_by ctx.budgetRemaining.toNat
decreasing_by
  have h1 := b.one_le_insns
  have h2 := toNat_charge b.insns_le (by simpa [CpuContext.charge] using _h)
  rw [HostBlock.budgetRemaining_of_body _hb, CpuContext.charge_budgetRemaining]
  omega

/-- **The entry protocol accounts for every instruction.**  What the budget lost is what the blocks
that ran charged; it never goes negative; and when nothing ran, the context is untouched and what
came back is the entry PC or the miss stub's leftover. -/
theorem enterBlock_spec (code : σ → Nat → Option (HostBlock σ)) (stubRax : σ → U64) (host : Nat)
    (ctx : CpuContext σ) (hmsb : ctx.budgetRemaining.msb = false) :
    (enterBlock code stubRax host ctx).ctx.budgetRemaining.msb = false ∧
      (enterBlock code stubRax host ctx).ctx.budgetRemaining.toNat
        + (enterBlock code stubRax host ctx).charged.sum = ctx.budgetRemaining.toNat ∧
      (∀ n ∈ (enterBlock code stubRax host ctx).charged, 1 ≤ n) ∧
      ((enterBlock code stubRax host ctx).charged = [] →
        (enterBlock code stubRax host ctx).ctx = ctx ∧
          ∀ b, code ctx.rest host = some b →
            (enterBlock code stubRax host ctx).rax = b.startPc) := by
  fun_induction enterBlock code stubRax host ctx with
  | case1 host ctx hcode => simp [hmsb, hcode]
  | case2 host ctx b hcode => simp [hmsb, hcode]
  | case3 host ctx b hcode => simp [hmsb, hcode]
  | case4 host ctx b hcode _ h ctx' rax hb =>
    have hc := HostBlock.budgetRemaining_of_body hb
    have hsub := toNat_charge b.insns_le (by simpa [CpuContext.charge] using h)
    refine ⟨?_, ?_, ?_, ?_⟩
    · simpa only [hc, Bool.not_eq_true] using h
    · simpa only [hc, List.sum_cons, List.sum_nil, Nat.add_zero,
        CpuContext.charge_budgetRemaining] using hsub
    · simpa using b.one_le_insns
    · simp
  | case5 host ctx b hcode _ h ctx' host' hb r ih =>
    have hc := HostBlock.budgetRemaining_of_body hb
    have hsub := toNat_charge b.insns_le (by simpa [CpuContext.charge] using h)
    obtain ⟨ih1, ih2, ih3, -⟩ := ih (by rw [hc]; simpa using h)
    refine ⟨ih1, ?_, ?_, ?_⟩
    · rw [hc, CpuContext.charge_budgetRemaining] at ih2
      simp only [List.sum_cons, r]
      omega
    · intro m hm
      rcases List.mem_cons.mp hm with rfl | hm
      · exact b.one_le_insns
      · exact ih3 m hm
    · simp

/-- A block that fits and is not asked to bail runs. -/
theorem enterBlock_runs (code : σ → Nat → Option (HostBlock σ)) (stubRax : σ → U64) (host : Nat)
    (ctx : CpuContext σ) {b : HostBlock σ} (hcode : code ctx.rest host = some b)
    (hmsb : ctx.budgetRemaining.msb = false) (hhalt : ctx.shouldHalt = 0)
    (hfault : ctx.memFault = 0) (hfit : b.insns ≤ ctx.budgetRemaining.toNat) :
    (enterBlock code stubRax host ctx).charged ≠ [] := by
  have hlt := b.insns_le
  have hb := ctx.budgetRemaining.isLt
  have hneg : ¬ (ctx.charge b.insns).budgetRemaining.msb = true := by
    rw [BitVec.msb_eq_false_iff_two_mul_lt] at hmsb
    rw [Bool.not_eq_true, BitVec.msb_eq_false_iff_two_mul_lt, CpuContext.charge_budgetRemaining,
      BitVec.toNat_sub, BitVec.toNat_ofNat]
    simp only [i32Max] at hlt
    omega
  rw [enterBlock, hcode]
  simp only [hhalt, hfault, ne_eq, not_true_eq_false, or_self, if_false]
  rw [dif_neg hneg]
  split <;> simp

/-! ## The loop -/

/-- What the dispatcher loop asks of the rest of the JIT, over the state `σ` that the cache, the
guest memory and the embedder keep between turns. -/
structure JitOps (σ : Type) where
  /-- The dispatch table, then the hash map; a miss-fill changes the table. -/
  lookupDispatchMeta : σ → U64 → σ × Option Nat
  lookupCapped : σ → U64 → U32 → Option Nat
  /-- Translate, compile and publish the block at a PC, with an instruction cap if one is given. -/
  compile : σ → U64 → Option U32 → σ × Except Error Nat
  code : σ → Nat → Option (HostBlock σ)
  stubRax : σ → U64
  resumeAfterFault : Bool
  /-- The third-party decoder's name for an opcode. -/
  decodedClass : U32 → String
  /-- A lookup finds the block at that PC, except that the all-ones PC, which marks an empty slot,
  may find the miss stub. -/
  lookup_code : ∀ {s pc s' host}, lookupDispatchMeta s pc = (s', some host) →
    (∃ b, code s' host = some b ∧ b.startPc = pc) ∨
      pc = BitVec.allOnes 64 ∧ code s' host = none
  lookupCapped_code : ∀ {s pc cap host}, lookupCapped s pc cap = some host →
    ∃ b, code s host = some b ∧ b.startPc = pc ∧ b.cycles.toNat ≤ max cap.toNat 1
  compile_code : ∀ {s pc cap s' host}, compile s pc cap = (s', .ok host) →
    ∃ b, code s' host = some b ∧ b.startPc = pc ∧
      ∀ c ∈ cap, b.cycles.toNat ≤ max c.toNat 1

inductive MemoryAccess where
  | read
  | write
  | execute
  deriving DecidableEq, Repr

inductive MemoryFaultCause where
  | unmapped
  | permission
  | alignment
  | overflow
  | host
  | unknown
  deriving DecidableEq, Repr

structure MemoryFault where
  pc : U64
  address : U64
  size : U8
  access : MemoryAccess
  cause : MemoryFaultCause
  deriving DecidableEq, Repr

structure UnsupportedInfo where
  pc : U64
  opcode : U32
  decodedClass : String
  deriving DecidableEq, Repr

inductive StopReason where
  | budgetExhausted
  | halted
  | svc (imm : U32)
  | brk (imm : U32)
  | hvc (imm : U32)
  | yield
  | wait
  | memoryFault (fault : MemoryFault)
  | unsupported (info : UnsupportedInfo)
  deriving DecidableEq, Repr

structure RunOutcome where
  reason : ExitReason
  stop : StopReason
  retired : U64
  deriving DecidableEq, Repr

/-- The structured stop of a reason that carries no more than the reason itself. -/
def RunOutcome.fromReason (reason : ExitReason) (retired : U64) : RunOutcome where
  reason := reason
  stop := match reason with
    | .budgetExhausted => .budgetExhausted
    | .svc imm => .svc imm
    | .brk imm => .brk imm
    | .hvc imm => .hvc imm
    | .memoryFault address => .memoryFault ⟨0, address, 0, .read, .unknown⟩
    | .stopped => .halted
  retired := retired

/-- Map a translation failure at `pc` to the stop the embedder sees; other errors propagate. -/
def translationStop (decodedClass : U32 → String) (error : Error) (pc retired : U64) :
    Except Error RunOutcome :=
  match error with
  | .guestMemory addr =>
    .ok ⟨.memoryFault addr, .memoryFault ⟨pc, addr, 4, .execute, .unmapped⟩, retired⟩
  | .unsupported errorPc opcode | .decode errorPc opcode =>
    .ok ⟨.stopped, .unsupported ⟨errorPc, opcode, decodedClass opcode⟩, retired⟩
  | other => .error other

/-- Where a run resumes after a fault: at the first access that was skipped, else where the block
went; an exception is run again. -/
def faultResumePc (ctxPc skipPc nextPc : U64) : U64 :=
  if skipPc ≠ 0 then skipPc
  else if nextPc >>> 60 = 0xE#64 then
    let kind := nextPc &&& 0xFF#64
    if kind = 0x01 ∨ kind = 0x03 then ctxPc - 4 else ctxPc
  else if nextPc = BitVec.allOnes 64 then ctxPc
  else nextPc

/-- The fault published in the context. -/
def CpuContext.fault (ctx : CpuContext σ) : MemoryFault where
  pc := ctx.memFaultPc
  address := ctx.memFaultAddr
  size := ctx.memFaultSize
  access := if ctx.memFaultAccess = 1 then .write
    else if ctx.memFaultAccess = 2 then .execute else .read
  cause := if ctx.memFaultCause = 1 then .permission
    else if ctx.memFaultCause = 2 then .alignment
    else if ctx.memFaultCause = 3 then .overflow
    else if ctx.memFaultCause = 4 then .host else .unmapped

/-- The state between two turns of the loop.  `ran` lists what every block that ran charged, and
`cappedAt` the value of `retired` each time a capped block was asked for. -/
structure RunState (σ : Type) where
  ctx : CpuContext σ
  retired : U64
  ran : List Nat
  cappedAt : List U64

inductive Turn (σ : Type) where
  | again (s : RunState σ)
  | done (s : RunState σ) (result : Except Error RunOutcome)

def Turn.state : Turn σ → RunState σ
  | .again s => s
  | .done s _ => s

namespace JitOps

variable (ops : JitOps σ)

/-- The block to enter at `pc`: looked up, or else compiled. -/
def entry (s : σ) (pc : U64) : σ × Except Error Nat :=
  match ops.lookupDispatchMeta s pc with
  | (s', some host) => (s', .ok host)
  | (s', none) => ops.compile s' pc none

/-- The block to enter at `pc` when the cached one does not fit the budget. -/
def cappedEntry (s : σ) (pc : U64) (cap : U32) : σ × Except Error Nat :=
  match ops.lookupCapped s pc cap with
  | some host => (s, .ok host)
  | none => ops.compile s pc (some cap)

/-- Call the thunk at `host` with a budget of `slice`. -/
def enterSlice (slice : U64) (host : Nat) (ctx : CpuContext σ) : Entered σ :=
  enterBlock ops.code ops.stubRax host { ctx with budgetRemaining := slice }

/-- `remaining.min(i64::MAX as u64)`. -/
def slice (remaining : U64) : U64 :=
  if remaining.toNat ≤ i64Max then remaining else BitVec.ofNat 64 i64Max

/-- `remaining.min(u64::from(u32::MAX)) as u32`. -/
def cap (remaining : U64) : U32 :=
  if remaining.toNat < 2 ^ 32 then remaining.setWidth 32 else BitVec.allOnes 32

/-- `slice - budget_remaining.max(0)`. -/
def executed (slice : U64) (ctx : CpuContext σ) : U64 :=
  slice - if ctx.budgetRemaining.msb then 0 else ctx.budgetRemaining

/-- `retired.saturating_add(executed)`. -/
def saturatingAdd (a b : U64) : U64 :=
  if a.toNat + b.toNat < 2 ^ 64 then a + b else BitVec.allOnes 64

/-- The state once generated code came back from a slice. -/
def afterSlice (s : RunState σ) (slice : U64) (r : Entered σ) : RunState σ where
  ctx := r.ctx
  retired := saturatingAdd s.retired (executed slice r.ctx)
  ran := s.ran ++ r.charged
  cappedAt := s.cappedAt

/-- What a turn does with the number generated code came back with. -/
def afterEntry (s : RunState σ) (nextPc : U64) : Turn σ :=
  if s.ctx.memFault ≠ 0 then
    let pc := if ops.resumeAfterFault then faultResumePc s.ctx.pc s.ctx.memFaultSkipPc nextPc
      else s.ctx.pc
    .done { s with ctx := { s.ctx with pc := pc } }
      (.ok ⟨.memoryFault s.ctx.memFaultAddr, .memoryFault s.ctx.fault, s.retired⟩)
  else
    match decodeExit nextPc with
    | .stop reason => .done s (.ok (.fromReason reason s.retired))
    | .goto pc => .again { s with ctx := { s.ctx with pc := pc } }

/-- The capped retry of a turn whose block was refused by a fresh slice. -/
def cappedTurn (s : RunState σ) (pc remaining : U64) : Turn σ :=
  let s := { s with cappedAt := s.cappedAt ++ [s.retired] }
  match ops.cappedEntry s.ctx.rest pc (cap remaining) with
  | (rest, .error e) =>
    .done { s with ctx := { s.ctx with rest } } (translationStop ops.decodedClass e pc s.retired)
  | (rest, .ok host) =>
    let r := ops.enterSlice (slice remaining) host { s.ctx with rest }
    ops.afterEntry (afterSlice s (slice remaining) r) r.rax

/-- A turn from the block at `host`: enter it with the slice that is left, and deal with a
refusal. -/
def entryTurn (s : RunState σ) (remaining : U64) (host : Nat) : Turn σ :=
  let r := ops.enterSlice (slice remaining) host s.ctx
  let s' := afterSlice s (slice remaining) r
  if executed (slice remaining) r.ctx = 0 ∧ r.rax = s.ctx.pc ∧ r.ctx.shouldHalt = 0 ∧
      r.ctx.memFault = 0 then
    if 0 < s.retired then .done s' (.ok (.fromReason .budgetExhausted s.retired))
    else ops.cappedTurn s' s.ctx.pc remaining
  else ops.afterEntry s' r.rax

/-- One turn of the outer loop: stop on a pending halt or a spent budget, otherwise enter the block
at the PC. -/
def runTurn (budget : U64) (s : RunState σ) : Turn σ :=
  if s.ctx.shouldHalt ≠ 0 then
    .done { s with ctx := { s.ctx with shouldHalt := 0 } } (.ok (.fromReason .stopped s.retired))
  else if budget ≤ s.retired then .done s (.ok (.fromReason .budgetExhausted s.retired))
  else
    match ops.entry s.ctx.rest s.ctx.pc with
    | (rest, .error e) =>
      .done { s with ctx := { s.ctx with rest } }
        (translationStop ops.decodedClass e s.ctx.pc s.retired)
    | (rest, .ok host) =>
      ops.entryTurn { s with ctx := { s.ctx with rest } } (budget - s.retired) host

/-- At most `fuel` turns. -/
def runTurns (budget : U64) : Nat → RunState σ → Option (RunState σ × Except Error RunOutcome)
  | 0, _ => none
  | fuel + 1, s =>
    match ops.runTurn budget s with
    | .done s result => some (s, result)
    | .again s => runTurns budget fuel s

/-- Execute at most `budget` guest instructions.  Every turn but one retires something, so the
fuel never runs out (`runBounded_sound`). -/
def runBounded (ctx : CpuContext σ) (budget : U64) :
    Option (RunState σ × Except Error RunOutcome) :=
  ops.runTurns budget (budget.toNat + 2)
    ⟨{ ctx with memFault := 0, memFaultSkipPc := 0 }, 0, [], []⟩

/-! ## What one turn does -/

theorem toNat_zero_u64 : (0 : U64).toNat = 0 := rfl

theorem slice_toNat (remaining : U64) : (slice remaining).toNat = min remaining.toNat i64Max := by
  rw [slice]
  split
  · omega
  · rw [BitVec.toNat_ofNat]
    simp only [i64Max] at *
    omega

theorem slice_msb (remaining : U64) : (slice remaining).msb = false := by
  have h := slice_toNat remaining
  simp only [i64Max] at h
  rw [BitVec.msb_eq_false_iff_two_mul_lt]
  omega

theorem cap_toNat (remaining : U64) :
    (cap remaining).toNat = min remaining.toNat (2 ^ 32 - 1) := by
  rw [cap]
  split
  · rw [BitVec.toNat_setWidth]
    omega
  · rw [BitVec.toNat_allOnes]
    omega

theorem saturatingAdd_toNat {a b : U64} (h : a.toNat + b.toNat < 2 ^ 64) :
    (saturatingAdd a b).toNat = a.toNat + b.toNat := by
  rw [saturatingAdd, if_pos h, BitVec.toNat_add, Nat.mod_eq_of_lt h]

/-- What comes back from a slice: `executed` is what the blocks that ran charged, within the slice,
and when none ran the context is as it was. -/
theorem enterSlice_spec (slice : U64) (host : Nat) (ctx : CpuContext σ)
    (hmsb : slice.msb = false) :
    (executed slice (ops.enterSlice slice host ctx).ctx).toNat
        = (ops.enterSlice slice host ctx).charged.sum ∧
      (ops.enterSlice slice host ctx).charged.sum ≤ slice.toNat ∧
      (∀ n ∈ (ops.enterSlice slice host ctx).charged, 1 ≤ n) ∧
      ((ops.enterSlice slice host ctx).charged = [] →
        (ops.enterSlice slice host ctx).ctx = { ctx with budgetRemaining := slice } ∧
          ∀ b, ops.code ctx.rest host = some b →
            (ops.enterSlice slice host ctx).rax = b.startPc) := by
  obtain ⟨h1, h2, h3, h4⟩ :=
    enterBlock_spec ops.code ops.stubRax host { ctx with budgetRemaining := slice } hmsb
  have hlt := slice.isLt
  refine ⟨?_, ?_, h3, h4⟩
  · rw [executed, enterSlice, h1]
    simp only [Bool.false_eq_true, if_false, BitVec.toNat_sub] at h2 ⊢
    omega
  · rw [enterSlice]
    simp only at h2
    omega

/-- What holds of the log between turns. -/
structure Inv (budget : U64) (s : RunState σ) : Prop where
  retired_eq : s.retired.toNat = s.ran.sum
  sum_le : s.ran.sum ≤ budget.toNat
  ran_pos : ∀ n ∈ s.ran, 1 ≤ n
  cappedAt_eq : ∀ a ∈ s.cappedAt, a = 0

/-- The invariant reads the count and the log only. -/
theorem Inv.of_eq {budget : U64} {s s' : RunState σ} (h : Inv budget s)
    (h1 : s'.retired = s.retired) (h2 : s'.ran = s.ran) (h3 : s'.cappedAt = s.cappedAt) :
    Inv budget s' where
  retired_eq := by rw [h1, h2, h.retired_eq]
  sum_le := by rw [h2]; exact h.sum_le
  ran_pos := by rw [h2]; exact h.ran_pos
  cappedAt_eq := by rw [h3]; exact h.cappedAt_eq

/-- A slice of what is left keeps the invariant. -/
theorem Inv.afterSlice {budget : U64} {s : RunState σ} (h : Inv budget s)
    (hle : s.retired ≤ budget) (host : Nat) (ctx : CpuContext σ) :
    Inv budget (JitOps.afterSlice s (slice (budget - s.retired))
      (ops.enterSlice (slice (budget - s.retired)) host ctx)) := by
  obtain ⟨h1, h2, h3, -⟩ :=
    ops.enterSlice_spec (slice (budget - s.retired)) host ctx (slice_msb _)
  have hslice := slice_toNat (budget - s.retired)
  have hsub : (budget - s.retired).toNat = budget.toNat - s.retired.toNat :=
    BitVec.toNat_sub_of_le hle
  have hlt := budget.isLt
  have hret := h.retired_eq
  have hsum := h.sum_le
  refine ⟨?_, ?_, ?_, h.cappedAt_eq⟩
  · rw [JitOps.afterSlice, saturatingAdd_toNat (by omega), h1, List.sum_append, hret]
  · rw [JitOps.afterSlice, List.sum_append]
    omega
  · intro n hn
    rcases List.mem_append.mp hn with hn | hn
    · exact h.ran_pos n hn
    · exact h3 n hn

/-- After generated code came back, the turn goes on at an address or ends with the count. -/
theorem afterEntry_cases (s : RunState σ) (nextPc : U64) :
    (∃ pc, pc ≠ BitVec.allOnes 64 ∧ s.ctx.memFault = 0 ∧
        ops.afterEntry s nextPc = .again { s with ctx := { s.ctx with pc := pc } }) ∨
      ∃ ctx o, o.retired = s.retired ∧ ops.afterEntry s nextPc = .done { s with ctx } (.ok o) := by
  rw [afterEntry]
  split
  · exact .inr ⟨_, _, rfl, rfl⟩
  · rename_i hfault
    cases hdec : decodeExit nextPc with
    | stop reason => exact .inr ⟨s.ctx, _, rfl, rfl⟩
    | goto pc =>
      have hres := not_reserved_of_decodeExit hdec
      exact .inl ⟨pc, fun h ↦ hres (.inr h), by simpa using hfault, rfl⟩

theorem translationStop_retired {d : U32 → String} {e : Error} {pc retired : U64}
    {o : RunOutcome} (h : translationStop d e pc retired = .ok o) : o.retired = retired := by
  cases e <;> simp only [translationStop, Except.ok.injEq, reduceCtorEq] at h <;> rw [← h]

/-- What a turn from `s` may come to: the invariant still holds; if the loop goes on, no fault is
pending, the PC is not all ones, and something ran unless it was all ones before; if it ends, the
count it returns is the count kept. -/
def Turn.Sound (budget : U64) (s : RunState σ) : Turn σ → Prop
  | .again s' => Inv budget s' ∧ s'.ctx.memFault = 0 ∧ s'.ctx.pc ≠ BitVec.allOnes 64 ∧
      s.ran.sum ≤ s'.ran.sum ∧ (s.ctx.pc ≠ BitVec.allOnes 64 → s.ran.sum < s'.ran.sum)
  | .done s' result => Inv budget s' ∧ s.ran.sum ≤ s'.ran.sum ∧
      ∀ o, result = .ok o → o.retired = s'.retired

/-- A turn that came back from a slice in which something ran (or the PC was all ones) is sound. -/
theorem sound_afterEntry {budget : U64} {s s' : RunState σ} (nextPc : U64) (hinv : Inv budget s')
    (hle : s.ran.sum ≤ s'.ran.sum)
    (hran : s.ctx.pc ≠ BitVec.allOnes 64 → s'.ctx.memFault = 0 → s.ran.sum < s'.ran.sum) :
    Turn.Sound budget s (ops.afterEntry s' nextPc) := by
  rcases afterEntry_cases ops s' nextPc with ⟨pc, hpc, hfault, heq⟩ | ⟨ctx, o, ho, heq⟩
  · rw [heq]
    exact ⟨hinv.of_eq rfl rfl rfl, hfault, hpc, hle, fun h ↦ hran h hfault⟩
  · rw [heq]
    refine ⟨hinv.of_eq rfl rfl rfl, hle, ?_⟩
    rintro o' ⟨⟩
    exact ho

theorem sum_pos_of_ne_nil {l : List Nat} (h : ∀ n ∈ l, 1 ≤ n) (hne : l ≠ []) : 0 < l.sum := by
  obtain ⟨a, l, rfl⟩ := List.exists_cons_of_ne_nil hne
  have ha := h a (by simp)
  simp only [List.sum_cons]
  omega

/-- The block found for a PC other than all ones starts there. -/
theorem entry_code {s s' : σ} {pc : U64} {host : Nat} (h : ops.entry s pc = (s', .ok host)) :
    (∃ b, ops.code s' host = some b ∧ b.startPc = pc) ∨
      pc = BitVec.allOnes 64 ∧ ops.code s' host = none := by
  rw [entry] at h
  split at h
  · rename_i hlook
    simp only [Prod.mk.injEq, Except.ok.injEq] at h
    obtain ⟨rfl, rfl⟩ := h
    exact ops.lookup_code hlook
  · obtain ⟨b, hb, hpc, -⟩ := ops.compile_code h
    exact .inl ⟨b, hb, hpc⟩

/-- The block found under a cap fits the cap. -/
theorem cappedEntry_code {s s' : σ} {pc : U64} {cap : U32} {host : Nat}
    (h : ops.cappedEntry s pc cap = (s', .ok host)) :
    ∃ b, ops.code s' host = some b ∧ b.startPc = pc ∧ b.cycles.toNat ≤ max cap.toNat 1 := by
  rw [cappedEntry] at h
  split at h
  · rename_i hlook
    simp only [Prod.mk.injEq, Except.ok.injEq] at h
    obtain ⟨rfl, rfl⟩ := h
    exact ops.lookupCapped_code hlook
  · obtain ⟨b, hb, hpc, hcap⟩ := ops.compile_code h
    exact ⟨b, hb, hpc, hcap _ rfl⟩

theorem afterEntry_ran (s : RunState σ) (nextPc : U64) :
    (ops.afterEntry s nextPc).state.ran = s.ran := by
  rcases afterEntry_cases ops s nextPc with ⟨pc, -, -, heq⟩ | ⟨ctx, o, -, heq⟩ <;>
    rw [heq] <;> rfl

/-- A block capped to what is left fits the slice. -/
theorem insns_le_slice {remaining : U64} {b : HostBlock σ} (hrem : 1 ≤ remaining.toNat)
    (hcap : b.cycles.toNat ≤ max (cap remaining).toNat 1) :
    b.insns ≤ (slice remaining).toNat := by
  have h1 := cap_toNat remaining
  have h2 := slice_toNat remaining
  have h3 := b.insns_le
  have h4 := b.insns_le_max_cycles
  simp only [i64Max, i32Max] at *
  omega

/-- What a slice entered at a block that fits leaves has run something. -/
theorem sum_lt_afterSlice (s : RunState σ) {remaining : U64} {host : Nat} (ctx : CpuContext σ)
    {b : HostBlock σ} (hcode : ops.code ctx.rest host = some b) (hhalt : ctx.shouldHalt = 0)
    (hfault : ctx.memFault = 0) (hfit : b.insns ≤ (slice remaining).toNat) :
    s.ran.sum < (afterSlice s (slice remaining)
      (ops.enterSlice (slice remaining) host ctx)).ran.sum := by
  have hne := enterBlock_runs ops.code ops.stubRax host
    { ctx with budgetRemaining := slice remaining } hcode (slice_msb _) hhalt hfault hfit
  obtain ⟨-, -, hpos, -⟩ := ops.enterSlice_spec (slice remaining) host ctx (slice_msb _)
  have := sum_pos_of_ne_nil hpos hne
  rw [afterSlice, List.sum_append]
  omega

/-- The capped retry is sound, and runs something unless the capped block cannot be had. -/
theorem cappedTurn_spec {budget : U64} {s s' : RunState σ} (pc : U64) (hinv : Inv budget s')
    (hran : s'.ran = s.ran) (hret : s'.retired = 0) (hbudget : 1 ≤ budget.toNat)
    (hhalt : s'.ctx.shouldHalt = 0) (hfault : s'.ctx.memFault = 0) :
    Turn.Sound budget s (ops.cappedTurn s' pc (budget - s'.retired)) ∧
      ∀ rest host, ops.cappedEntry s'.ctx.rest pc (cap (budget - s'.retired)) = (rest, .ok host) →
        s.ran.sum < (ops.cappedTurn s' pc (budget - s'.retired)).state.ran.sum := by
  have hle : s'.retired ≤ budget := by simp [hret, BitVec.le_def]
  have hinv' : Inv budget { s' with cappedAt := s'.cappedAt ++ [s'.retired] } := by
    refine ⟨hinv.retired_eq, hinv.sum_le, hinv.ran_pos, ?_⟩
    intro a ha
    rcases List.mem_append.mp ha with ha | ha
    · exact hinv.cappedAt_eq a ha
    · rw [List.mem_singleton.mp ha, hret]
  rw [cappedTurn]
  split
  · rename_i rest e hentry
    refine ⟨⟨hinv'.of_eq rfl rfl rfl, by simp [hran], fun o ho ↦ translationStop_retired ho⟩, ?_⟩
    simp [hentry]
  · rename_i rest host hentry
    obtain ⟨b, hcode, -, hcap⟩ := cappedEntry_code ops hentry
    have hlt := lt_of_eq_of_lt (congrArg List.sum hran.symm)
      (sum_lt_afterSlice ops { s' with cappedAt := s'.cappedAt ++ [s'.retired] }
        { s'.ctx with rest } hcode hhalt hfault
        (insns_le_slice (by simpa [hret] using hbudget) hcap))
    refine ⟨sound_afterEntry ops _ (hinv'.afterSlice ops hle host _) hlt.le fun _ _ ↦ hlt, ?_⟩
    intro rest' host' _
    rw [afterEntry_ran]
    exact hlt

/-- The dispatcher finds or compiles a block at `pc`; and where that block does not fit into a slice
of `remaining`, it finds or compiles one under the cap that `remaining` asks for, in the state the
first search leaves. -/
def Compilable (ops : JitOps σ) (s : σ) (pc remaining : U64) : Prop :=
  ∃ s₁ host₁ b, ops.entry s pc = (s₁, .ok host₁) ∧ ops.code s₁ host₁ = some b ∧
    ((slice remaining).toNat < b.insns →
      ∃ s₂ host₂, ops.cappedEntry s₁ pc (cap remaining) = (s₂, .ok host₂))

/-- A block that a slice refuses is longer than the slice. -/
theorem slice_lt_of_refused {slice : U64} {host : Nat} {ctx : CpuContext σ} {b : HostBlock σ}
    (hcode : ops.code ctx.rest host = some b) (hmsb : slice.msb = false)
    (hhalt : ctx.shouldHalt = 0) (hfault : ctx.memFault = 0)
    (h : (ops.enterSlice slice host ctx).charged = []) : slice.toNat < b.insns := by
  by_contra hfit
  exact enterBlock_runs ops.code ops.stubRax host { ctx with budgetRemaining := slice } hcode hmsb
    hhalt hfault (not_lt.mp hfit) h

/-- A turn that enters the block found for the PC is sound, and runs something when nothing was
retired before and the block fits or another can be had at the PC under a cap. -/
theorem entryTurn_spec {budget : U64} {s : RunState σ} {host : Nat} (hinv : Inv budget s)
    (hfault : s.ctx.memFault = 0) (hhalt : s.ctx.shouldHalt = 0) (hlt : s.retired < budget)
    (hcode : (∃ b, ops.code s.ctx.rest host = some b ∧ b.startPc = s.ctx.pc) ∨
      s.ctx.pc = BitVec.allOnes 64 ∧ ops.code s.ctx.rest host = none) :
    Turn.Sound budget s (ops.entryTurn s (budget - s.retired) host) ∧
      (s.retired = 0 → ∀ b, ops.code s.ctx.rest host = some b →
        ((slice budget).toNat < b.insns →
          ∃ rest host', ops.cappedEntry s.ctx.rest s.ctx.pc (cap budget) = (rest, .ok host')) →
        s.ran.sum < (ops.entryTurn s (budget - s.retired) host).state.ran.sum) := by
  rw [BitVec.lt_def] at hlt
  have hinv' := hinv.afterSlice ops (BitVec.le_def.mpr hlt.le) host s.ctx
  obtain ⟨hex, -, hpos, hnil⟩ := ops.enterSlice_spec (slice (budget - s.retired)) host
    s.ctx (slice_msb _)
  have hlong (b : HostBlock σ) (hb : ops.code s.ctx.rest host = some b) :=
    ops.slice_lt_of_refused hb (slice_msb (budget - s.retired)) hhalt hfault
  rw [entryTurn]
  generalize ops.enterSlice (slice (budget - s.retired)) host s.ctx = r at *
  have hran : (afterSlice s (slice (budget - s.retired)) r).ran = s.ran ++ r.charged := rfl
  have hsum : s.ran.sum ≤ (afterSlice s (slice (budget - s.retired)) r).ran.sum := by
    rw [hran, List.sum_append]
    omega
  by_cases hne : r.charged = []
  · obtain ⟨hctx, hrax⟩ := hnil hne
    have hex0 : executed (slice (budget - s.retired)) r.ctx = 0 := by
      apply BitVec.eq_of_toNat_eq
      rw [hex, hne]
      rfl
    by_cases hpc : r.rax = s.ctx.pc
    · -- Refused: the slice is over if it is not fresh, else a capped block is tried.
      rw [if_pos ⟨hex0, hpc, by rw [hctx]; exact hhalt, by rw [hctx]; exact hfault⟩]
      have hret' : (afterSlice s (slice (budget - s.retired)) r).retired = s.retired := by
        apply BitVec.eq_of_toNat_eq
        rw [afterSlice, hex0, saturatingAdd_toNat (by simpa using s.retired.isLt)]
        simp
      by_cases hret : 0 < s.retired
      · rw [if_pos hret]
        refine ⟨⟨hinv', hsum, ?_⟩, fun h0 ↦ by simp [h0] at hret⟩
        rintro o ⟨⟩
        exact hret'.symm
      · rw [if_neg hret]
        have h0 : s.retired = 0 := by
          apply BitVec.eq_of_toNat_eq
          rw [BitVec.lt_def] at hret
          simpa using hret
        have hspec := cappedTurn_spec ops s.ctx.pc hinv' (s := s)
          (by rw [hran, hne, List.append_nil]) (hret'.trans h0) (by omega)
          (by rw [afterSlice, hctx]; exact hhalt) (by rw [afterSlice, hctx]; exact hfault)
        rw [hret'] at hspec
        refine ⟨hspec.1, ?_⟩
        rintro - b hb hcap
        have hrem : budget - s.retired = budget := by
          rw [h0]
          exact BitVec.sub_zero budget
        obtain ⟨rest, host', hcapped⟩ := hcap (hrem ▸ hlong b hb hne)
        refine hspec.2 rest host' ?_
        rw [afterSlice, hctx, ← hcapped, hrem]
    · -- Only the miss stub returns another number without running anything.
      rw [if_neg fun h ↦ hpc h.2.1]
      have hstub : s.ctx.pc = BitVec.allOnes 64 ∧ ops.code s.ctx.rest host = none := by
        rcases hcode with ⟨b, hb, hstart⟩ | h
        · exact absurd ((hrax b hb).trans hstart) hpc
        · exact h
      refine ⟨sound_afterEntry ops _ hinv' hsum fun h ↦ absurd hstub.1 h, ?_⟩
      rintro - b hb -
      rw [hstub.2] at hb
      cases hb
  · have hpos' := sum_pos_of_ne_nil hpos hne
    have hlt : s.ran.sum < (afterSlice s (slice (budget - s.retired)) r).ran.sum := by
      rw [hran, List.sum_append]
      omega
    rw [if_neg]
    · refine ⟨sound_afterEntry ops _ hinv' hsum fun _ _ ↦ hlt, fun _ _ _ _ ↦ ?_⟩
      rw [afterEntry_ran]
      exact hlt
    · rintro ⟨h0, -⟩
      rw [h0, toNat_zero_u64] at hex
      omega

/-- **One turn.**  From a state with no fault pending a turn is sound; and the first turn, with
something to spend, no halt pending and code to be had at the PC, runs something. -/
theorem runTurn_spec {budget : U64} {s : RunState σ} (hinv : Inv budget s)
    (hfault : s.ctx.memFault = 0) :
    Turn.Sound budget s (ops.runTurn budget s) ∧
      (s.ctx.shouldHalt = 0 → s.retired = 0 → 1 ≤ budget.toNat →
        ops.Compilable s.ctx.rest s.ctx.pc budget →
        s.ran.sum < (ops.runTurn budget s).state.ran.sum) := by
  rw [runTurn]
  by_cases hhalt : s.ctx.shouldHalt = 0
  swap
  · rw [if_pos hhalt]
    refine ⟨⟨hinv.of_eq rfl rfl rfl, le_rfl, ?_⟩, fun h ↦ absurd h hhalt⟩
    rintro o ⟨⟩
    rfl
  rw [if_neg (not_not.mpr hhalt)]
  by_cases hspent : budget ≤ s.retired
  · rw [if_pos hspent]
    refine ⟨⟨hinv, le_rfl, ?_⟩, ?_⟩
    · rintro o ⟨⟩
      rfl
    · intro _ hret hbudget
      rw [hret, BitVec.le_def, toNat_zero_u64] at hspent
      omega
  rw [if_neg hspent]
  split
  · rename_i rest e hentry
    refine ⟨⟨hinv.of_eq rfl rfl rfl, le_rfl, fun o ho ↦ translationStop_retired ho⟩, ?_⟩
    rintro - - - ⟨s₁, host₁, b, h, -⟩
    simp [hentry] at h
  · rename_i rest host hentry
    have hinv' : Inv budget { s with ctx := { s.ctx with rest } } := hinv.of_eq rfl rfl rfl
    have hspec := entryTurn_spec ops hinv' hfault hhalt (BitVec.not_le.mp hspent)
      (entry_code ops hentry)
    refine ⟨hspec.1, ?_⟩
    rintro - hret - ⟨s₁, host₁, b, h₁, hb, hcap⟩
    rw [hentry, Prod.mk.injEq, Except.ok.injEq] at h₁
    obtain ⟨rfl, rfl⟩ := h₁
    exact hspec.2 hret b hb hcap

/-! ## The whole run -/

/-- The run lemma: with a fuel that covers what is left to spend, the run ends, keeping the
invariant and what was run before. -/
theorem runTurns_spec {budget : U64} (fuel : Nat) {s : RunState σ} (hinv : Inv budget s)
    (hfault : s.ctx.memFault = 0)
    (hfuel : budget.toNat - s.ran.sum + (if s.ctx.pc = BitVec.allOnes 64 then 1 else 0) < fuel) :
    ∃ s' result, ops.runTurns budget fuel s = some (s', result) ∧ Inv budget s' ∧
      (ops.runTurn budget s).state.ran.sum ≤ s'.ran.sum ∧
      ∀ o, result = .ok o → o.retired = s'.retired := by
  induction fuel generalizing s with
  | zero => omega
  | succ fuel ih =>
    have hturn := (runTurn_spec ops hinv hfault).1
    rw [runTurns]
    cases hcase : ops.runTurn budget s with
    | done s' result =>
      rw [hcase] at hturn
      exact ⟨s', result, rfl, hturn.1, le_rfl, hturn.2.2⟩
    | again s' =>
      rw [hcase] at hturn
      obtain ⟨hinv', hfault', hpc', hle, hlt⟩ := hturn
      have hsum := hinv'.sum_le
      obtain ⟨s'', result, heq, hinv'', hge, ho⟩ := ih hinv' hfault' (by
        rw [if_neg hpc']
        split at hfuel
        · omega
        · have := hlt ‹_›
          omega)
      refine ⟨s'', result, heq, hinv'', le_trans ?_ hge, ho⟩
      have hturn' := (runTurn_spec ops hinv' hfault').1
      cases hcase' : ops.runTurn budget s' with
      | done t _ =>
        rw [hcase'] at hturn'
        exact hturn'.2.1
      | again t =>
        rw [hcase'] at hturn'
        exact hturn'.2.2.2.1

/-- **`run_bounded` honours its budget.**  For every JIT state, context and budget the call comes
back; what the blocks that ran charged adds up to at most the budget, and is the count returned; a
capped block is asked for only while nothing is retired; a budget of zero runs nothing; and with a
budget, no halt pending and code to be had at the PC, something is retired. -/
theorem runBounded_sound (ops : JitOps σ) (ctx : CpuContext σ) (budget : U64) :
    ∃ s result, ops.runBounded ctx budget = some (s, result) ∧
      s.ran.sum ≤ budget.toNat ∧
      (∀ n ∈ s.ran, 1 ≤ n) ∧
      (∀ o, result = .ok o → o.retired.toNat = s.ran.sum) ∧
      (∀ retired ∈ s.cappedAt, retired = 0) ∧
      (budget = 0 → s.ran = []) ∧
      (1 ≤ budget.toNat → ctx.shouldHalt = 0 → ops.Compilable ctx.rest ctx.pc budget →
        1 ≤ s.ran.sum) := by
  have hinv : Inv budget (⟨{ ctx with memFault := 0, memFaultSkipPc := 0 }, 0, [], []⟩ :
      RunState σ) := ⟨rfl, by simp, by simp, by simp⟩
  obtain ⟨s, result, heq, hinv', hge, ho⟩ := runTurns_spec ops (budget.toNat + 2) hinv rfl
    (by split <;> simp)
  refine ⟨s, result, heq, hinv'.sum_le, hinv'.ran_pos, fun o h ↦ ?_, hinv'.cappedAt_eq, ?_, ?_⟩
  · rw [ho o h, hinv'.retired_eq]
  · rintro rfl
    by_contra hne
    have h1 := sum_pos_of_ne_nil hinv'.ran_pos hne
    have h2 := hinv'.sum_le
    rw [toNat_zero_u64] at h2
    omega
  · intro hbudget hhalt hcomp
    have h := (runTurn_spec ops hinv rfl).2 hhalt rfl hbudget hcomp
    exact le_trans h hge

end JitOps

end Rustarmic
