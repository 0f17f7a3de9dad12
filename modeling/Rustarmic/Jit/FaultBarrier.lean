import Rustarmic.Backend.Nodes

/-!
# The fault barrier

Once a memory callback has failed, no callback is called until `run_bounded` returns, and it returns
the fault of that call: the slow paths of loads and stores skip what comes behind a fault, and a
block chained to a faulted one bails at its entry.  Atomics skip nothing.

* `NodeBlock` — a block as its nodes and its terminal; `GuestJit` — a JIT whose code cache holds
  such blocks.
* `Barrier` — what a run's trace and its result have to look like; `AtomicsGated` — no atomic
  reaches its callback behind a fault.
* `runBounded_barrier_iff`: the barrier holds of a run iff its atomics are gated.

A trace is what the embedder sees: each call with its fault, if it failed, and beside the calls a
note of every access that came as far as its slow path, with the fault flag it found there.  The
notes are not events of the machine.  They are there so that the condition can be about states
*before* an access, and not about the call that follows.

The invariant `Tells` reads the fault fields of the context off the trace: a fault is pending if and
only if some call has failed, and what the fields report is the first one.  One step of a node keeps
it (`Telling.micro`), with one case for each kind of step; nodes, blocks, chained blocks, slices and
turns follow by induction.  At the end of a run the fields are what `run_bounded` returns.

That the condition is necessary is the easy half: an atomic that is not gated calls its callback,
and this is a call behind a call that failed.
-/

set_option autoImplicit false

namespace Rustarmic

open Relation

variable {κ ω : Type}

/-! ## Blocks and the JIT around them -/

/-- A block as emitted.  The terminal may store a PC, as an exception does, and picks the exit: the
number returned to the dispatcher, or a chained block. -/
structure NodeBlock (κ ω : Type) where
  startPc : U64
  cycles : U32
  nodes : List Node
  leave : GuestContext κ ω → Option U64 × BlockExit

namespace NodeBlock

variable (cb : Callbacks ω) (mode : FastmemMode) (b : NodeBlock κ ω)

def exec (ctx : GuestContext κ ω) : GuestContext κ ω :=
  b.nodes.foldl (fun ctx n => n.exec cb mode ctx) ctx

def body (ctx : GuestContext κ ω) : GuestContext κ ω × BlockExit :=
  let ctx := b.exec cb mode ctx
  ({ ctx with pc := (b.leave ctx).1.getD ctx.pc }, (b.leave ctx).2)

theorem micros_exec (ctx : GuestContext κ ω) : Micros cb ctx (b.exec cb mode ctx) := by
  rw [exec]
  induction b.nodes generalizing ctx with
  | nil => exact .refl
  | cons n nodes ih => exact (n.exec_micro ctx).trans (ih _)

theorem micros_body (ctx : GuestContext κ ω) : Micros cb ctx (b.body cb mode ctx).1 :=
  (b.micros_exec cb mode ctx).tail (.quiet ⟨rfl, rfl, rfl, rfl, rfl⟩)

end NodeBlock

theorem Micros.budget {cb : Callbacks ω} {ctx ctx' : GuestContext κ ω} (h : Micros cb ctx ctx') :
    ctx'.budgetRemaining = ctx.budgetRemaining := by
  induction h with
  | refl => rfl
  | tail _ hstep ih =>
    rw [← ih]
    cases hstep with
    | quiet h => exact h.budget
    | log => rfl
    | call kind addr w =>
      simp only [callout, CpuContext.publish]
      split <;> rfl
    | skip => rfl

/-- The block as the dispatcher sees it. -/
def NodeBlock.hostBlock (cb : Callbacks ω) (mode : FastmemMode) (b : NodeBlock κ ω) :
    HostBlock (Guest κ ω) where
  startPc := b.startPc
  cycles := b.cycles
  body := b.body cb mode
  body_budget ctx := (b.micros_body cb mode ctx).budget

/-- A JIT whose cache holds emitted blocks.  Looking blocks up and compiling them calls no memory
callback. -/
structure GuestJit (κ ω : Type) where
  ops : JitOps (Guest κ ω)
  cb : Callbacks ω
  mode : FastmemMode
  block : κ → Nat → Option (NodeBlock κ ω)
  code_eq : ∀ s host, ops.code s host = (block s.cache host).map (·.hostBlock cb mode)
  lookup_trace : ∀ s pc, (ops.lookupDispatchMeta s pc).1.trace = s.trace
  compile_trace : ∀ s pc cap, (ops.compile s pc cap).1.trace = s.trace

/-! ## The barrier -/

namespace Event

def isCall : Event → Bool
  | called _ _ _ _ => true
  | _ => false

/-- The fault a call failed with. -/
def fault? : Event → Option Fault
  | called _ _ _ fault => fault
  | _ => none

/-- An atomic that has to go through its callback while a fault is pending. -/
def ungated : Event → Bool
  | reached ⟨.atomic _, _, _, _, memFault⟩ => memFault != 0
  | _ => false

end Event

/-- The fault of the first call that failed; the latest event is in front. -/
def firstFault : List Event → Option Fault
  | [] => none
  | e :: t => (firstFault t).or e.fault?

/-- Nothing is called behind a call that failed. -/
def NoCallBehind : List Event → Prop
  | [] => True
  | e :: t => (e.isCall → firstFault t = none) ∧ NoCallBehind t

/-- No atomic has to go through its callback while a fault is pending. -/
def AtomicsGated (t : List Event) : Prop := ∀ e ∈ t, e.ungated = false

/-- A fault the way `run_bounded` reports it. -/
def Fault.report (f : Fault) : MemoryFault where
  pc := f.pc
  address := f.addr
  size := f.size
  access := if f.access = 1 then .write else if f.access = 2 then .execute else .read
  cause := if f.cause = 1 then .permission else if f.cause = 2 then .alignment
    else if f.cause = 3 then .overflow else if f.cause = 4 then .host else .unmapped

/-- Nothing is called behind a call that failed, and what is reported is its fault. -/
def Barrier (t : List Event) (result : Except Error RunOutcome) : Prop :=
  NoCallBehind t ∧ ∀ f, firstFault t = some f →
    ∃ retired, result = .ok ⟨.memoryFault f.addr, .memoryFault f.report, retired⟩

theorem atomicsGated_cons {e : Event} {t : List Event} :
    AtomicsGated (e :: t) ↔ e.ungated = false ∧ AtomicsGated t := List.forall_mem_cons

/-! ## Steps -/

/-- What the fault fields tell of the trace since `t₀`. -/
structure Tells (t : List Event) (ctx : GuestContext κ ω) : Prop where
  pending : ctx.memFault ≠ 0 ↔ (firstFault t).isSome
  quiet : NoCallBehind t ↔ AtomicsGated t
  first : AtomicsGated t → ∀ f, firstFault t = some f →
    ctx.fault = f.report ∧ ctx.memFaultAddr = f.addr

/-- The context at some point of a run that started with the trace `t₀`. -/
def Telling (t₀ : List Event) (ctx : GuestContext κ ω) : Prop :=
  ∃ t, ctx.rest.trace = t ++ t₀ ∧ Tells t ctx

section

variable {cb : Callbacks ω} {ctx ctx' : GuestContext κ ω} {t t₀ : List Event}

theorem Tells.congr (h : Tells t ctx) (hfault : ctx'.memFault = ctx.memFault)
    (hreport : ctx'.fault = ctx.fault) (haddr : ctx'.memFaultAddr = ctx.memFaultAddr) :
    Tells t ctx' where
  pending := by rw [hfault, h.pending]
  quiet := h.quiet
  first hg f hf := by rw [hreport, haddr]; exact h.first hg f hf

theorem Telling.congr (h : Telling t₀ ctx) (hfault : ctx'.memFault = ctx.memFault)
    (hreport : ctx'.fault = ctx.fault) (haddr : ctx'.memFaultAddr = ctx.memFaultAddr)
    (htrace : ctx'.rest.trace = ctx.rest.trace) : Telling t₀ ctx' := by
  obtain ⟨t, ht, h⟩ := h
  exact ⟨t, htrace.trans ht, h.congr hfault hreport haddr⟩

/-- Events that call nothing and fail nothing. -/
theorem Tells.event (h : Tells t ctx) {e : Event} (hcall : e.isCall = false)
    (hfault : e.fault? = none) (hgate : e.ungated = false) : Tells (e :: t) ctx where
  pending := by rw [firstFault, hfault, Option.or_none, h.pending]
  quiet := by
    rw [NoCallBehind, atomicsGated_cons, hcall, h.quiet]
    simp [hgate]
  first hg f hf := by
    rw [firstFault, hfault, Option.or_none] at hf
    exact h.first (atomicsGated_cons.mp hg).2 f hf

theorem Event.silent.spec {e : Event} (h : e.silent) :
    e.isCall = false ∧ e.fault? = none ∧ e.ungated = false := by
  cases e with
  | reached => cases h
  | called => cases h
  | _ => exact ⟨rfl, rfl, rfl⟩

theorem ungated_reached (kind : CallbackKind) (addr : U64) (w : Width) (ctx : GuestContext κ ω) :
    (Event.reached (call kind addr w ctx)).ungated = true ↔
      (∃ op, kind = .atomic op) ∧ ctx.memFault ≠ 0 := by
  cases kind with
  | atomic op => simp [Event.ungated, call]
  | _ => simp [Event.ungated, call]

/-- Only atomics are reached ungated. -/
theorem Tells.reached (h : Tells t ctx) (kind : CallbackKind) (addr : U64) (w : Width)
    (hgate : (∀ op, kind ≠ .atomic op) ∨ ctx.memFault = 0) :
    Tells (.reached (call kind addr w ctx) :: t) ctx := by
  refine h.event rfl rfl (Bool.eq_false_iff.mpr fun hu => ?_)
  obtain ⟨⟨op, hop⟩, hne⟩ := (ungated_reached kind addr w ctx).mp hu
  exact hgate.elim (fun hk => hk op hop) hne

/-- What a call leaves in the fault fields. -/
theorem callout_fault (kind : CallbackKind) (addr : U64) (w : Width) (ctx : GuestContext κ ω) :
    let fault := (cb (call kind addr w ctx) ctx.rest.state).fault
    let ctx' := callout cb kind addr w ctx
    (fault = none → ctx'.memFault = ctx.memFault ∧ ctx'.fault = ctx.fault ∧
      ctx'.memFaultAddr = ctx.memFaultAddr) ∧
    ∀ f, fault = some f → ctx'.memFault ≠ 0 ∧ ctx'.fault = f.report ∧ ctx'.memFaultAddr = f.addr := by
  refine ⟨fun h => ?_, fun f h => ?_⟩
  · rw [callout, h]
    exact ⟨rfl, rfl, rfl⟩
  · rw [callout, h]
    exact ⟨f.memFault_ne, rfl, rfl⟩

/-- A call with no fault pending. -/
theorem Tells.call (h : Tells t ctx) (hnone : ctx.memFault = 0) (kind : CallbackKind) (addr : U64)
    (w : Width) (e : Event) (he : e.isCall) (hungated : e.ungated = false)
    (hfault : e.fault? = (cb (Rustarmic.call kind addr w ctx) ctx.rest.state).fault) :
    Tells (e :: t) (callout cb kind addr w ctx) := by
  have hfirst : firstFault t = none := by
    rw [← Option.not_isSome_iff_eq_none, ← h.pending]
    exact not_not.mpr hnone
  obtain ⟨hno, hyes⟩ := @callout_fault κ ω cb kind addr w ctx
  refine ⟨?_, ?_, fun hg f hf => ?_⟩
  · rw [firstFault, hfirst, Option.none_or, hfault]
    cases hf : (cb (Rustarmic.call kind addr w ctx) ctx.rest.state).fault with
    | none =>
      rw [(hno hf).1, hnone]
      simp
    | some f => simpa using (hyes f hf).1
  · rw [NoCallBehind, atomicsGated_cons, he, h.quiet, hungated]
    simp [hfirst]
  · rw [firstFault, hfirst, Option.none_or, hfault] at hf
    exact (hyes f hf).2

/-- A call behind a fault. -/
theorem Tells.callBehind (h : Tells t ctx) (hne : ctx.memFault ≠ 0) {r e : Event}
    (hr : r.ungated = true) (he : e.isCall)
    (hctx : ctx'.memFault ≠ 0) : Tells (e :: r :: t) ctx' := by
  have hsome := h.pending.mp hne
  obtain ⟨f, hf⟩ := Option.isSome_iff_exists.mp hsome
  have hnot : ¬ AtomicsGated (e :: r :: t) := fun hg => by
    rw [(atomicsGated_cons.mp (atomicsGated_cons.mp hg).2).1] at hr
    cases hr
  have hfirst : firstFault (r :: t) = some f := by
    rw [firstFault, hf, Option.some_or]
  refine ⟨iff_of_true hctx ?_, iff_of_false (fun hq => ?_) hnot, fun hg => absurd hg hnot⟩
  · rw [firstFault, hfirst, Option.some_or]
    rfl
  · rw [hq.1 he] at hfirst
    cases hfirst

/-- **One step.** -/
theorem Telling.micro (h : Telling t₀ ctx) (hstep : Micro cb ctx ctx') : Telling t₀ ctx' := by
  cases hstep with
  | quiet hs => exact h.congr hs.memFault hs.fault hs.addr hs.trace
  | log e he =>
    obtain ⟨t, ht, h⟩ := h
    obtain ⟨hcall, hfault, hgate⟩ := Event.silent.spec he
    exact ⟨e :: t, congrArg (e :: ·) ht, (h.event hcall hfault hgate).congr rfl rfl rfl⟩
  | skip kind addr w hkind hne =>
    obtain ⟨t, ht, h⟩ := h
    exact ⟨_ :: t, congrArg (_ :: ·) ht, (h.reached kind addr w (Or.inl hkind)).congr rfl rfl rfl⟩
  | call kind addr w hgate =>
    obtain ⟨t, ht, h⟩ := h
    have htrace := callout_trace cb kind addr w (reach kind addr w ctx)
    generalize he : Event.called _ _ _ _ = e at htrace
    have hcall : e.isCall ∧ e.ungated = false ∧ e.fault? = (cb (call kind addr w
        (reach kind addr w ctx)) (reach kind addr w ctx).rest.state).fault := by
      rw [← he]
      exact ⟨rfl, rfl, rfl⟩
    refine ⟨e :: .reached (call kind addr w ctx) :: t, htrace.trans ?_, ?_⟩
    · exact congrArg (fun l => e :: .reached (call kind addr w ctx) :: l) ht
    by_cases hnone : ctx.memFault = 0
    · have hreach : Tells (.reached (call kind addr w ctx) :: t) (reach kind addr w ctx) :=
        (h.reached kind addr w (Or.inr hnone)).congr rfl rfl rfl
      exact hreach.call hnone kind addr w e hcall.1 hcall.2.1 hcall.2.2
    · have hatomic := hgate.resolve_left hnone
      refine h.callBehind hnone ((ungated_reached kind addr w ctx).mpr ⟨hatomic, hnone⟩) hcall.1 ?_
      obtain ⟨hno, hyes⟩ := @callout_fault κ ω cb kind addr w (reach kind addr w ctx)
      cases hf : (cb (call kind addr w (reach kind addr w ctx))
          (reach kind addr w ctx).rest.state).fault with
      | none =>
        rw [(hno hf).1]
        exact hnone
      | some f => exact (hyes f hf).1

theorem Telling.micros (h : Telling t₀ ctx) (hsteps : Micros cb ctx ctx') : Telling t₀ ctx' := by
  induction hsteps with
  | refl => exact h
  | tail _ hstep ih => exact ih.micro hstep

end

/-! ## Runs -/

namespace GuestJit

variable (J : GuestJit κ ω) {t₀ : List Event}

theorem telling_body {ctx : GuestContext κ ω} {g : Guest κ ω} {host : Nat}
    {b : HostBlock (Guest κ ω)} (h : Telling t₀ ctx) (hcode : J.ops.code g host = some b) :
    Telling t₀ (b.body ctx).1 := by
  rw [J.code_eq] at hcode
  obtain ⟨e, -, rfl⟩ := Option.map_eq_some_iff.mp hcode
  exact h.micros (e.micros_body J.cb J.mode ctx)

theorem telling_charge {ctx : GuestContext κ ω} (h : Telling t₀ ctx) (n : Nat) :
    Telling t₀ (ctx.charge n) := h.congr rfl rfl rfl rfl

theorem telling_enterBlock (host : Nat) (ctx : GuestContext κ ω) (h : Telling t₀ ctx) :
    Telling t₀ (enterBlock J.ops.code J.ops.stubRax host ctx).ctx := by
  fun_induction enterBlock J.ops.code J.ops.stubRax host ctx with
  | case1 host ctx hcode => exact h
  | case2 host ctx b hcode hbail => exact h
  | case3 host ctx b hcode hbail hneg => exact h.congr rfl rfl rfl rfl
  | case4 host ctx b hcode hbail hfits ctx' rax hbody =>
    have hrun := J.telling_body (telling_charge h b.insns) hcode
    rwa [hbody] at hrun
  | case5 host ctx b hcode hbail hfits ctx' host' hbody r ih =>
    have hrun := J.telling_body (telling_charge h b.insns) hcode
    rw [hbody] at hrun
    exact ih hrun

/-- What a turn comes to: it goes on with no fault pending, or it ends and reports the one that
is. -/
def Reports (t₀ : List Event) : Turn (Guest κ ω) → Prop
  | .again s => Telling t₀ s.ctx ∧ s.ctx.memFault = 0
  | .done s result => Telling t₀ s.ctx ∧ (s.ctx.memFault ≠ 0 → ∃ retired,
      result = .ok ⟨.memoryFault s.ctx.memFaultAddr, .memoryFault s.ctx.fault, retired⟩)

theorem reports_done {s : RunState (Guest κ ω)} {result : Except Error RunOutcome}
    (h : Telling t₀ s.ctx) (hnone : s.ctx.memFault = 0) : Reports t₀ (.done s result) :=
  ⟨h, fun hne => absurd hnone hne⟩

theorem reports_afterEntry {s : RunState (Guest κ ω)} (h : Telling t₀ s.ctx) (nextPc : U64) :
    Reports t₀ (J.ops.afterEntry s nextPc) := by
  rw [JitOps.afterEntry]
  split
  case isTrue => exact ⟨h.congr rfl rfl rfl rfl, fun _ => ⟨s.retired, rfl⟩⟩
  case isFalse hnone =>
    have hnone := not_not.mp hnone
    cases decodeExit nextPc with
    | stop reason => exact reports_done h hnone
    | goto pc => exact ⟨h.congr rfl rfl rfl rfl, hnone⟩

/-- A slice leaves what the trace tells. -/
theorem telling_enterSlice {ctx : GuestContext κ ω} (h : Telling t₀ ctx) (slice : U64) (host : Nat) :
    Telling t₀ (J.ops.enterSlice slice host ctx).ctx :=
  J.telling_enterBlock host _ (h.congr rfl rfl rfl rfl)

theorem telling_rest {ctx : GuestContext κ ω} (h : Telling t₀ ctx) {g : Guest κ ω}
    (hg : g.trace = ctx.rest.trace) : Telling t₀ { ctx with rest := g } :=
  h.congr rfl rfl rfl hg

theorem trace_cappedEntry (g : Guest κ ω) (pc : U64) (cap : U32) :
    (J.ops.cappedEntry g pc cap).1.trace = g.trace := by
  rw [JitOps.cappedEntry]
  split
  · rfl
  · exact J.compile_trace g pc (some cap)

theorem trace_entry (g : Guest κ ω) (pc : U64) : (J.ops.entry g pc).1.trace = g.trace := by
  have hlookup := J.lookup_trace g pc
  rw [JitOps.entry]
  split
  next heq => rwa [heq] at hlookup
  next heq =>
    rw [heq] at hlookup
    exact (J.compile_trace _ pc none).trans hlookup

theorem reports_cappedTurn {s : RunState (Guest κ ω)} (h : Telling t₀ s.ctx)
    (hnone : s.ctx.memFault = 0) (pc remaining : U64) :
    Reports t₀ (J.ops.cappedTurn s pc remaining) := by
  have htrace := J.trace_cappedEntry s.ctx.rest pc (JitOps.cap remaining)
  rw [JitOps.cappedTurn]
  dsimp only
  split
  next heq =>
    rw [heq] at htrace
    exact reports_done (telling_rest h htrace) hnone
  next heq =>
    rw [heq] at htrace
    exact J.reports_afterEntry (J.telling_enterSlice (telling_rest h htrace) _ _) _

theorem reports_entryTurn {s : RunState (Guest κ ω)} (h : Telling t₀ s.ctx) (remaining : U64)
    (host : Nat) : Reports t₀ (J.ops.entryTurn s remaining host) := by
  have hslice := J.telling_enterSlice h (JitOps.slice remaining) host
  rw [JitOps.entryTurn]
  split
  case isTrue hrefused =>
    split
    · exact reports_done hslice hrefused.2.2.2
    · exact J.reports_cappedTurn hslice hrefused.2.2.2 _ _
  case isFalse => exact J.reports_afterEntry hslice _

/-- **One turn.** -/
theorem reports_runTurn {s : RunState (Guest κ ω)} (h : Telling t₀ s.ctx)
    (hnone : s.ctx.memFault = 0) (budget : U64) : Reports t₀ (J.ops.runTurn budget s) := by
  have htrace := J.trace_entry s.ctx.rest s.ctx.pc
  rw [JitOps.runTurn]
  split
  · exact reports_done (h.congr rfl rfl rfl rfl) hnone
  split
  · exact reports_done h hnone
  split
  next heq =>
    rw [heq] at htrace
    exact reports_done (telling_rest h htrace) hnone
  next rest host heq =>
    rw [heq] at htrace
    have h' : Telling t₀ { s.ctx with rest := rest } := telling_rest h htrace
    exact J.reports_entryTurn (s := { s with ctx := { s.ctx with rest := rest } }) h' _ host

/-- **A whole run.** -/
theorem reports_runTurns {budget : U64} {fuel : Nat} {s s' : RunState (Guest κ ω)}
    {result : Except Error RunOutcome} (h : Telling t₀ s.ctx) (hnone : s.ctx.memFault = 0)
    (hrun : J.ops.runTurns budget fuel s = some (s', result)) : Reports t₀ (.done s' result) := by
  induction fuel generalizing s with
  | zero => cases hrun
  | succ fuel ih =>
    have hturn := J.reports_runTurn h hnone budget
    rw [JitOps.runTurns] at hrun
    split at hrun
    next s₁ result₁ heq =>
      obtain ⟨rfl, rfl⟩ := Prod.mk.inj (Option.some.inj hrun)
      rwa [heq] at hturn
    next s₁ heq =>
      rw [heq] at hturn
      exact ih hturn.1 hturn.2 hrun

/-- **The fault barrier.**  Of every run: behind the first callback that fails none is called, and
`run_bounded` returns its fault, iff no atomic of the run has to go through its callback while a
fault is pending. -/
theorem runBounded_barrier_iff (ctx : GuestContext κ ω) (budget : U64) :
    ∃ s result t, J.ops.runBounded ctx budget = some (s, result) ∧
      s.ctx.rest.trace = t ++ ctx.rest.trace ∧ (Barrier t result ↔ AtomicsGated t) := by
  have hinv : JitOps.Inv budget (⟨{ ctx with memFault := 0, memFaultSkipPc := 0 }, 0, [], []⟩ :
      RunState (Guest κ ω)) := ⟨rfl, by simp, by simp, by simp⟩
  obtain ⟨s, result, hrun, -⟩ := JitOps.runTurns_spec J.ops (budget.toNat + 2) hinv rfl
    (by split <;> simp)
  have hstart : Telling ctx.rest.trace { ctx with memFault := 0, memFaultSkipPc := 0 } :=
    ⟨[], rfl, ⟨by simp [firstFault], by simp [NoCallBehind, AtomicsGated], fun _ f hf => by cases hf⟩⟩
  obtain ⟨⟨t, ht, htells⟩, hreport⟩ := J.reports_runTurns hstart rfl hrun
  refine ⟨s, result, t, hrun, ht, fun hb => htells.quiet.mp hb.1, fun hg => ?_⟩
  refine ⟨htells.quiet.mpr hg, fun f hf => ?_⟩
  obtain ⟨retired, hresult⟩ := hreport (htells.pending.mpr (by rw [hf]; rfl))
  obtain ⟨hfault, haddr⟩ := htells.first hg f hf
  rw [hfault, haddr] at hresult
  exact ⟨retired, hresult⟩

end GuestJit

/-! ## A load and an atomic behind it -/

/-- `LDR X1, [X0]` and `LDADD X1, X2, [X0]`. -/
def loadThenAdd : NodeBlock Unit Unit where
  startPc := 0x1000
  cycles := 2
  nodes := [.load 1 .b8 .b8 0x1000 0, .atomicRmw 2 .add ⟨.b8, by decide⟩ 0x1004 0 1]
  leave _ := (none, .ret 0x1008)

/-- Reads fail, everything else succeeds. -/
def failingReads : Callbacks Unit := fun c g =>
  { state := g, halt := false,
    fault := if c.kind = .read then some ⟨1, 0, 8, 0, c.addr, c.pc, by decide⟩ else none }

/-- A JIT with that block at every PC it has the code of. -/
def loadThenAddJit : GuestJit Unit Unit where
  ops :=
    { lookupDispatchMeta := fun s _ => (s, none)
      lookupCapped := fun _ _ _ => none
      compile := fun s pc cap =>
        (s, if pc = 0x1000 ∧ cap = none then .ok 0 else .error (.guestMemory pc))
      code := fun _ _ => some (loadThenAdd.hostBlock failingReads .off)
      stubRax := fun _ => 0
      resumeAfterFault := false
      decodedClass := fun _ => "decode"
      lookup_code := fun h => by simp at h
      lookupCapped_code := fun h => by simp at h
      compile_code := fun {s pc cap s' host} h => by
        obtain ⟨rfl, h⟩ := Prod.mk.inj h
        split at h
        next hpc => exact ⟨_, rfl, hpc.1.symm, fun c hc => by rw [hpc.2] at hc; cases hc⟩
        next => cases h }
  cb := failingReads
  mode := .off
  block _ _ := some loadThenAdd
  code_eq _ _ := rfl
  lookup_trace _ _ := rfl
  compile_trace _ _ _ := rfl

/-- The context the run starts from; both accesses are at address 0. -/
def loadThenAddCtx : GuestContext Unit Unit :=
  ⟨0x1000, 0, 0, 0, 0, 0, 0, 0, 0, 0, ⟨(), fun _ => 0,
    ⟨fun _ => 0, ⟨0, 0, 0⟩, 0, 0, ⟨0, 0, 0, fun _ => 0⟩, ⟨fun _ => 0, fun _ _ => false⟩, ()⟩, []⟩⟩

/-- What entering the block comes to. -/
def loadThenAddEntered : Entered (Guest Unit Unit) where
  ctx := (loadThenAdd.body failingReads .off { loadThenAddCtx with budgetRemaining := 0 }).1
  rax := 0x1008
  charged := [2]

theorem enterSlice_loadThenAdd :
    loadThenAddJit.ops.enterSlice 2 0 loadThenAddCtx = loadThenAddEntered := by
  rw [JitOps.enterSlice, enterBlock]
  rfl

/-- The only turn of the run. -/
theorem runTurn_loadThenAdd :
    ∃ s result, loadThenAddJit.ops.runTurn 2 ⟨loadThenAddCtx, 0, [], []⟩ = .done s result ∧
      s.ctx = loadThenAddEntered.ctx := by
  have hslice : JitOps.slice 2 = 2 := by decide
  have hentry : loadThenAddJit.ops.entryTurn ⟨loadThenAddCtx, 0, [], []⟩ 2 0 =
      loadThenAddJit.ops.afterEntry
        (JitOps.afterSlice ⟨loadThenAddCtx, 0, [], []⟩ 2 loadThenAddEntered) 0x1008 := by
    rw [JitOps.entryTurn, hslice, enterSlice_loadThenAdd]
    rfl
  have hturn : loadThenAddJit.ops.runTurn 2 ⟨loadThenAddCtx, 0, [], []⟩ =
      loadThenAddJit.ops.afterEntry
        (JitOps.afterSlice ⟨loadThenAddCtx, 0, [], []⟩ 2 loadThenAddEntered) 0x1008 := by
    rw [JitOps.runTurn, if_neg (by decide), if_neg (by decide)]
    exact hentry
  exact ⟨_, _, hturn, rfl⟩

/-- **The atomic calls back behind the fault.**  The load fails, and the run goes on to the callback
of the atomic before it returns. -/
theorem loadThenAdd_calls_behind :
    ∃ s result, loadThenAddJit.ops.runBounded loadThenAddCtx 2 = some (s, result) ∧
      ¬ Barrier s.ctx.rest.trace result := by
  obtain ⟨s, result, hturn, hctx⟩ := runTurn_loadThenAdd
  have hrun : loadThenAddJit.ops.runTurns 2 4 ⟨loadThenAddCtx, 0, [], []⟩ = some (s, result) := by
    rw [JitOps.runTurns, hturn]
  refine ⟨s, result, hrun, fun hb => ?_⟩
  rw [hctx] at hb
  have hfirst := hb.1.1 rfl
  cases hfirst

end Rustarmic
