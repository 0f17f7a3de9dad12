import Rustarmic.Backend.Access
import Mathlib.Logic.Relation

/-!
# The nodes of a block and their steps

* `Node` — the operations of a block as far as registers and memory are concerned.
* `Micro` — the steps a node is made of: callbacks, accesses skipped after a fault, and what neither
  calls back nor touches the fault fields.
* `Node.exec_micro` takes every node apart.

What a run does after a fault is decided callback by callback, and one node may make several of
them: an access across a page boundary is split into its elements.  An invariant of runs that had to
be proved node by node would go through all of the access code each time, so this file takes the
nodes apart once.  A `Micro` step is the smallest piece that the fault flag can stop, and
`exec_micro` says that every node is a sequence of such steps.  Then an invariant has to be looked
at for three kinds of steps, and `Jit.FaultBarrier` never unfolds an access.

The steps keep apart what the code keeps apart.  Loads and stores look at the flag before they call
out, and record the PC of the first access that they skip.  The slow path of an atomic access has no
such test and calls whatever the flag says, so that its step has no condition.
-/

set_option autoImplicit false

namespace Rustarmic

open ModularMemory Relation

/-- An operation on values, guest registers and memory. -/
inductive Node where
  | get (dst : ValueRef) (reg : Nat)
  | set (reg : Nat) (value : ValueRef)
  | pure (dst : ValueRef) (f : List U128 → U128) (args : List ValueRef)
  | load (dst : ValueRef) (w elem : Width) (pc : U64) (addr : ValueRef)
  | store (w elem : Width) (pc : U64) (addr value : ValueRef)
  | loadEx (dst : ValueRef) (w : Width) (pc : U64) (addr : ValueRef)
  | storeEx (dst : ValueRef) (w : Width) (pc : U64) (addr value : ValueRef)
  | clrex
  | atomicRmw (dst : ValueRef) (op : AtomicOp) (w : AtomicWidth) (pc : U64)
      (addr operand : ValueRef)
  | atomicCas (dst : ValueRef) (w : AtomicWidth) (pc : U64) (addr expected new : ValueRef)
  | atomicCas128 (dst : ValueRef) (pc : U64) (addr expected new : ValueRef)

section Exec

variable {κ ω : Type} (cb : Callbacks ω) (mode : FastmemMode)

def CpuContext.addrOf (ctx : GuestContext κ ω) (v : ValueRef) : U64 := (ctx.rest.vals v).setWidth 64

/-- Write a guest register. -/
def setReg (reg : Nat) (value : U128) (ctx : GuestContext κ ω) : GuestContext κ ω :=
  (ctx.withState fun g => { g with reg := Function.update g.reg reg value }).log
    (.setReg reg value)

namespace Node

def exec (n : Node) (ctx : GuestContext κ ω) : GuestContext κ ω :=
  match n with
  | get dst reg => ctx.withVal dst (ctx.rest.state.reg reg)
  | set reg value => setReg reg (ctx.rest.vals value) ctx
  | pure dst f args => ctx.withVal dst (f (args.map ctx.rest.vals))
  | load dst w elem pc addr =>
    let r := emitLoad cb mode w elem pc (ctx.addrOf addr) ctx
    r.1.withVal dst r.2
  | store w elem pc addr value =>
    emitStore cb mode w elem pc (ctx.addrOf addr) (ctx.rest.vals value) ctx
  | loadEx dst w pc addr =>
    ((accessPort cb mode pc).emitLoadEx w (fun ctx => ctx.addrOf addr) (fun v ctx => ctx.withVal dst v)
      (ctx.log (.loadEx ctx.memFault))).1
  | storeEx dst w pc addr value =>
    let r := (accessPort cb mode pc).emitStoreEx w (ctx.addrOf addr) (ctx.rest.vals value) ctx
    r.1.withVal dst (r.2.setWidth 128)
  | clrex => (accessPort cb mode 0).emitClrex ctx
  | atomicRmw dst op w pc addr value =>
    let r := atomicCore cb mode op w pc (ctx.addrOf addr) (operand w.val (ctx.rest.vals value)) 0 ctx
    r.1.withVal dst (r.2.setWidth 128)
  | atomicCas dst w pc addr expected new =>
    let r := atomicCore cb mode .cas w pc (ctx.addrOf addr) (operand w.val (ctx.rest.vals new))
      (operand w.val (ctx.rest.vals expected)) ctx
    r.1.withVal dst (r.2.setWidth 128)
  | atomicCas128 dst pc addr expected new =>
    let r := emitCas128Call cb pc (ctx.addrOf addr) (ctx.rest.vals expected) (ctx.rest.vals new) ctx
    r.1.withVal dst r.2

end Node

/-! ## Steps -/

/-- The fault fields, the budget and the trace are the same. -/
structure SameFaults (ctx ctx' : GuestContext κ ω) : Prop where
  memFault : ctx'.memFault = ctx.memFault
  fault : ctx'.fault = ctx.fault
  addr : ctx'.memFaultAddr = ctx.memFaultAddr
  budget : ctx'.budgetRemaining = ctx.budgetRemaining
  trace : ctx'.rest.trace = ctx.rest.trace

/-- Neither an access that has to go through its callback nor a call. -/
def Event.silent : Event → Bool
  | .reached _ | .called _ _ _ _ => false
  | _ => true

/-- One step of a node.  The slow paths of loads and stores look at the fault flag before they call
out, those of the atomics do not. -/
inductive Micro : GuestContext κ ω → GuestContext κ ω → Prop where
  | quiet {ctx ctx' : GuestContext κ ω} (h : SameFaults ctx ctx') : Micro ctx ctx'
  | log {ctx : GuestContext κ ω} (e : Event) (he : e.silent) : Micro ctx (ctx.log e)
  | call {ctx : GuestContext κ ω} (kind : CallbackKind) (addr : U64) (w : Width)
      (h : ctx.memFault = 0 ∨ ∃ op, kind = .atomic op) :
      Micro ctx (callout cb kind addr w (reach kind addr w ctx))
  | skip {ctx : GuestContext κ ω} (kind : CallbackKind) (addr : U64) (w : Width)
      (hkind : ∀ op, kind ≠ .atomic op) (h : ctx.memFault ≠ 0) :
      Micro ctx (reach kind addr w ctx)

abbrev Micros := ReflTransGen (Micro (κ := κ) cb)

variable {cb mode}

theorem micro_withState (f : GuestState ω → GuestState ω) (ctx : GuestContext κ ω) :
    Micro cb ctx (ctx.withState f) := .quiet ⟨rfl, rfl, rfl, rfl, rfl⟩

theorem micro_withVal (dst : ValueRef) (v : U128) (ctx : GuestContext κ ω) :
    Micro cb ctx (ctx.withVal dst v) := .quiet ⟨rfl, rfl, rfl, rfl, rfl⟩

theorem micro_atPc (pc : U64) (ctx : GuestContext κ ω) : Micro cb ctx (atPc pc ctx) :=
  .quiet ⟨rfl, rfl, rfl, rfl, rfl⟩

/-- After a fault nothing is called. -/
theorem emitSkipIfFaulted_of_ne {pc : U64} {proceed : GuestContext κ ω → GuestContext κ ω}
    {ctx : GuestContext κ ω} (h : ctx.memFault ≠ 0) :
    emitSkipIfFaulted pc proceed ctx = emitSkipIfFaulted pc id ctx := by
  rw [emitSkipIfFaulted, emitSkipIfFaulted, if_pos h, if_pos h]

/-- Recording where the first skipped access is. -/
theorem micro_skipPc (pc : U64) {ctx : GuestContext κ ω} (h : ctx.memFault ≠ 0) :
    Micro cb ctx (emitSkipIfFaulted pc id ctx) := by
  rw [emitSkipIfFaulted, if_pos h]
  split
  · exact .quiet ⟨rfl, rfl, rfl, rfl, rfl⟩
  · exact .quiet ⟨rfl, rfl, rfl, rfl, rfl⟩

/-- A call or a skip, as the flag says; the operand of a call goes to the context on the way. -/
theorem micros_callOrSkip (pc : U64) (kind : CallbackKind) (hkind : ∀ op, kind ≠ .atomic op)
    (addr : U64) (w : Width) (f : GuestState ω → GuestState ω) (ctx : GuestContext κ ω) :
    Micros cb ctx (emitSkipIfFaulted pc (fun ctx => callout cb kind addr w (ctx.withState f))
      (reach kind addr w ctx)) := by
  by_cases h : ctx.memFault = 0
  · have hreach : (reach kind addr w ctx).memFault = 0 := h
    rw [emitSkipIfFaulted_of_eq hreach]
    exact (ReflTransGen.single (micro_withState f ctx)).tail (.call kind addr w (Or.inl h))
  · have hreach : (reach kind addr w ctx).memFault ≠ 0 := h
    rw [emitSkipIfFaulted_of_ne hreach]
    exact (ReflTransGen.single (.skip kind addr w hkind h)).tail (micro_skipPc pc hreach)

theorem micros_readOrSkip (pc addr : U64) (w : Width) (ctx : GuestContext κ ω) :
    Micros cb ctx (emitSkipIfFaulted pc (callout cb .read addr w) (reach .read addr w ctx)) :=
  micros_callOrSkip pc .read (fun _ h => by cases h) addr w id ctx

/-! ### Loads -/

theorem loadElement_fst (elem : Width) (pc addr : U64) (s : GuestContext κ ω × U128) (k : Nat) :
    (loadElement cb elem pc addr s k).1 =
      emitSkipIfFaulted pc (callout cb .read (addr + BitVec.ofNat 64 (k * elem.bytes)) elem)
        (reach .read (addr + BitVec.ofNat 64 (k * elem.bytes)) elem s.1) := by
  rw [loadElement]
  dsimp only
  split
  case isTrue h => exact (emitSkipIfFaulted_of_ne h).symm
  case isFalse h => rw [emitSkipIfFaulted_of_eq (not_not.mp h)]

theorem micros_loadElements (elem : Width) (pc addr : U64) (l : List Nat)
    (s : GuestContext κ ω × U128) : Micros cb s.1 (l.foldl (loadElement cb elem pc addr) s).1 := by
  induction l generalizing s with
  | nil => exact .refl
  | cons k l ih =>
    refine ReflTransGen.trans ?_ (ih _)
    rw [loadElement_fst]
    exact micros_readOrSkip pc _ elem s.1

theorem micros_emitLoad (w elem : Width) (pc addr : U64) (ctx : GuestContext κ ω) :
    Micros cb ctx (emitLoad cb mode w elem pc addr ctx).1 := by
  rw [emitLoad]
  cases inlineHost mode false w addr ctx.rest.state with
  | some a => exact .single (.log _ rfl)
  | none =>
    simp only [emitLoadSlowPath]
    split
    case isTrue =>
      rw [emitLoadElements]
      exact (ReflTransGen.single (micro_atPc pc ctx)).trans
        (micros_loadElements elem pc addr _ (atPc pc ctx, 0))
    case isFalse =>
      exact (ReflTransGen.single (micro_atPc pc ctx)).trans (micros_readOrSkip pc addr w _)

/-! ### Stores -/

theorem micros_storeOrSkip (pc addr : U64) (w : Width) (f : GuestState ω → GuestState ω)
    (ctx : GuestContext κ ω) :
    Micros cb ctx (emitSkipIfFaulted pc (fun ctx => callout cb .write addr w (ctx.withState f))
      (reach .write addr w ctx)) :=
  micros_callOrSkip pc .write (fun _ h => by cases h) addr w f ctx

theorem micros_storeElements (elem : Width) (pc addr : U64) (value : U128) (l : List Nat)
    (ctx : GuestContext κ ω) : Micros cb ctx (l.foldl (storeElement cb elem pc addr value) ctx) := by
  induction l generalizing ctx with
  | nil => exact .refl
  | cons k l ih => exact (micros_storeOrSkip pc _ elem _ ctx).trans (ih _)

theorem micros_emitStore (w elem : Width) (pc addr : U64) (value : U128) (ctx : GuestContext κ ω) :
    Micros cb ctx (emitStore cb mode w elem pc addr value ctx) := by
  rw [emitStore]
  cases inlineHost mode true w addr ctx.rest.state with
  | some a => exact (ReflTransGen.single (micro_withState _ ctx)).tail (.log _ rfl)
  | none =>
    simp only [emitStoreSlowPath]
    split
    case isTrue =>
      rw [emitStoreElements]
      exact (ReflTransGen.single (micro_atPc pc ctx)).trans
        (micros_storeElements elem pc addr value _ (atPc pc ctx))
    case isFalse =>
      exact (ReflTransGen.single (micro_atPc pc ctx)).trans (micros_storeOrSkip pc addr w _ _)

/-! ### Atomics and exclusives -/

theorem micros_atomicCall (op : AtomicOp) (w : Width) (pc addr : U64) (ctx : GuestContext κ ω) :
    Micros cb ctx (atomicCall cb op w pc addr ctx) :=
  (ReflTransGen.single (micro_atPc pc ctx)).tail (.call _ addr w (Or.inr ⟨op, rfl⟩))

theorem micros_atomicSlowPath (op : AtomicOp) (w : Width) (pc addr arg3 r11 : U64)
    (ctx : GuestContext κ ω) :
    Micros cb ctx (atomicSlowPath cb op w pc addr arg3 r11 ctx).1 := by
  simp only [atomicSlowPath]
  refine ReflTransGen.trans ?_ (micros_atomicCall op w pc addr _)
  have hoperand : Micro cb ctx (ctx.withState (setIoValue (arg3.setWidth 128))) :=
    micro_withState _ ctx
  split
  · exact (ReflTransGen.single hoperand).tail (micro_withState _ _)
  · exact .single hoperand

theorem micros_atomicCore (op : AtomicOp) (w : AtomicWidth) (pc addr arg3 r11 : U64)
    (ctx : GuestContext κ ω) :
    Micros cb ctx (atomicCore cb mode op w pc addr arg3 r11 ctx).1 := by
  rw [atomicCore, emitAtomicCore]
  cases emitFastmemGuard mode pageDirectWrite ctx.rest.state.region w.val addr with
  | none => exact micros_atomicSlowPath op w.val pc addr arg3 r11 ctx
  | some a =>
    dsimp only
    cases InlineAtomic.inlineAtomic op w.val mode.isDirect [] ctx.rest.state.host
        ⟨ctx.rest.state.region.memBase, addr, arg3, 0, a, r11⟩ with
    | done rax host => exact (ReflTransGen.single (micro_withState _ ctx)).tail (.log _ rfl)
    | divert regs host =>
      exact (ReflTransGen.single (micro_withState _ ctx)).trans
        (micros_atomicSlowPath op w.val pc _ _ _ _)
    | retry regs => exact .refl

theorem micros_cas128 (pc addr : U64) (expected new : U128) (ctx : GuestContext κ ω) :
    Micros cb ctx (emitCas128Call cb pc addr expected new ctx).1 :=
  (ReflTransGen.single (micro_withState _ ctx)).trans (micros_atomicCall _ _ pc addr _)

theorem micros_setMonitor (mode : FastmemMode) (pc : U64) (m : Monitor) (ctx : GuestContext κ ω) :
    Micros cb ctx ((accessPort cb mode pc).setMonitor m ctx) :=
  (ReflTransGen.single (micro_withState _ ctx)).tail (.log _ rfl)

theorem micros_emitLoadEx (w : Width) (pc : U64) (operand : GuestContext κ ω → U64) (dst : ValueRef)
    (ctx : GuestContext κ ω) :
    Micros cb ctx ((accessPort cb mode pc).emitLoadEx w operand (fun v ctx => ctx.withVal dst v)
      ctx).1 := by
  have hload : Micros cb ctx (((accessPort cb mode pc).load w (operand ctx) ctx).1.withVal dst
      ((accessPort cb mode pc).load w (operand ctx) ctx).2) :=
    (micros_emitLoad w w pc (operand ctx) ctx).tail (micro_withVal dst _ _)
  simp only [AccessPort.emitLoadEx]
  split
  · exact hload.trans (micros_setMonitor mode pc _ _)
  · exact (hload.trans (micros_setMonitor mode pc _ _)).trans (micros_setMonitor mode pc _ _)

theorem micros_emitStoreEx (w : Width) (pc addr : U64) (value : U128) (ctx : GuestContext κ ω) :
    Micros cb ctx ((accessPort cb mode pc).emitStoreEx w addr value ctx).1 := by
  have hcas (expected : U128) :
      Micros cb ctx ((accessPort cb mode pc).cas w addr expected value ctx).1 := by
    simp only [accessPort]
    split
    · exact micros_atomicCore ..
    · exact micros_cas128 ..
  simp only [AccessPort.emitStoreEx]
  split
  · exact (hcas _).trans (micros_setMonitor mode pc _ _)
  · exact micros_setMonitor mode pc _ _

/-- **Every node is made of steps.** -/
theorem Node.exec_micro (n : Node) (ctx : GuestContext κ ω) :
    Micros cb ctx (n.exec cb mode ctx) := by
  cases n with
  | get dst reg => exact .single (micro_withVal dst _ ctx)
  | set reg value => exact (ReflTransGen.single (micro_withState _ ctx)).tail (.log _ rfl)
  | pure dst f args => exact .single (micro_withVal dst _ ctx)
  | load dst w elem pc addr => exact (micros_emitLoad ..).tail (micro_withVal dst _ _)
  | store w elem pc addr value => exact micros_emitStore ..
  | loadEx dst w pc addr =>
    exact (ReflTransGen.single (.log _ rfl)).trans (micros_emitLoadEx ..)
  | storeEx dst w pc addr value => exact (micros_emitStoreEx ..).tail (micro_withVal dst _ _)
  | clrex => exact micros_setMonitor mode 0 _ ctx
  | atomicRmw dst op w pc addr value => exact (micros_atomicCore ..).tail (micro_withVal dst _ _)
  | atomicCas dst w pc addr expected new =>
    exact (micros_atomicCore ..).tail (micro_withVal dst _ _)
  | atomicCas128 dst pc addr expected new => exact (micros_cas128 ..).tail (micro_withVal dst _ _)

end Exec

end Rustarmic
