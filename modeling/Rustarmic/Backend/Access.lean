import Rustarmic.Backend.InlineAtomic
import Rustarmic.Jit.RunBounded

/-!
# Memory accesses of generated code

What the code emitted for an access does to the context: the guard, the inline access, and the slow
path that calls the embedder back.

* `GuestState` — the part of the context the callbacks may change; `Guest` adds what they cannot
  see.
* `callout` — one call of a callback, which may publish a fault.
* `emitLoad`, `emitStore`, `emitAtomicCore`, `emitCas128Call` — the accesses, after the functions of
  the same name.
* `Node` — the nodes of a block as far as memory is concerned, and `Node.exec`.

The guest keeps a trace of the accesses; no code reads it.
-/

set_option autoImplicit false

namespace Rustarmic

open ModularMemory

/-! ## The context -/

/-- The context fields that a callback may read and write, host memory, and the embedder itself.
The guest registers are numbered. -/
structure GuestState (ω : Type) where
  reg : Nat → U128
  monitor : Monitor
  ioValue : U128
  atomicExpected : U128
  region : FastRegion
  host : Host
  world : ω

inductive CallbackKind where
  | read
  | write
  | atomic (op : AtomicOp)
  deriving DecidableEq

/-- An access on its way to a callback: which one, the PC and the fault flag in the context, the
address and the size. -/
structure Call where
  kind : CallbackKind
  pc : U64
  addr : U64
  size : U8
  memFault : U8
  deriving DecidableEq

/-- The fault a callback publishes. -/
structure Fault where
  memFault : U8
  access : U8
  size : U8
  cause : U8
  addr : U64
  pc : U64
  memFault_ne : memFault ≠ 0
  deriving DecidableEq

/-- What a callback leaves.  Under the calling convention of the host (SysV) it need not keep any
vector register, so a value of the block that is kept in one may have changed when the code reads it
again: `vals` is what becomes of the values. -/
structure Reply (ω : Type) where
  state : GuestState ω
  fault : Option Fault
  halt : Bool
  vals : (ValueRef → U128) → ValueRef → U128 := id

/-- The embedder's three callbacks, which may do anything. -/
abbrev Callbacks (ω : Type) := Call → GuestState ω → Reply ω

/-- What happens in a run. -/
inductive Event where
  /-- A guest instruction starts. -/
  | instr (pc : U64)
  /-- An access that has to go through its callback. -/
  | reached (c : Call)
  /-- A call, with `io_value` and `atomic_expected` as the callback found them. -/
  | called (c : Call) (ioValue atomicExpected : U128) (fault : Option Fault)
  | inline (kind : CallbackKind) (addr : U64) (w : Width)
  | setReg (reg : Nat) (value : U128)
  /-- A load-exclusive starts, with the fault flag. -/
  | loadEx (memFault : U8)
  | setMonitor (monitor : Monitor)

/-- What changes while generated code runs: the code cache, the values of the block, the guest, and
the trace, the latest event first. -/
structure Guest (κ ω : Type) where
  cache : κ
  vals : ValueRef → U128
  state : GuestState ω
  trace : List Event

abbrev GuestContext (κ ω : Type) := CpuContext (Guest κ ω)

namespace CpuContext

variable {κ ω : Type}

def withState (ctx : GuestContext κ ω) (f : GuestState ω → GuestState ω) : GuestContext κ ω :=
  { ctx with rest := { ctx.rest with state := f ctx.rest.state } }

def withVal (ctx : GuestContext κ ω) (dst : ValueRef) (v : U128) : GuestContext κ ω :=
  { ctx with rest := { ctx.rest with vals := Function.update ctx.rest.vals dst v } }

def withVals (ctx : GuestContext κ ω) (f : (ValueRef → U128) → ValueRef → U128) :
    GuestContext κ ω :=
  { ctx with rest := { ctx.rest with vals := f ctx.rest.vals } }

def log (ctx : GuestContext κ ω) (e : Event) : GuestContext κ ω :=
  { ctx with rest := { ctx.rest with trace := e :: ctx.rest.trace } }

/-- The fault fields as a callback leaves them. -/
def publish (ctx : GuestContext κ ω) (fault : Option Fault) : GuestContext κ ω :=
  match fault with
  | none => ctx
  | some f =>
    { ctx with
      memFault := f.memFault, memFaultAccess := f.access, memFaultSize := f.size,
      memFaultCause := f.cause, memFaultAddr := f.addr, memFaultPc := f.pc }

end CpuContext

open CpuContext

section Paths

variable {κ ω : Type} (cb : Callbacks ω)

/-- The access as its callback would get it now. -/
def call (kind : CallbackKind) (addr : U64) (w : Width) (ctx : GuestContext κ ω) : Call :=
  ⟨kind, ctx.pc, addr, w.size, ctx.memFault⟩

def callout (kind : CallbackKind) (addr : U64) (w : Width) (ctx : GuestContext κ ω) :
    GuestContext κ ω :=
  let c := call kind addr w ctx
  let r := cb c ctx.rest.state
  let g := ctx.rest.state
  let ctx := (ctx.withState fun _ => r.state).log (.called c g.ioValue g.atomicExpected r.fault)
  let ctx := ctx.withVals r.vals
  let ctx := { ctx with shouldHalt := if r.halt then 1 else ctx.shouldHalt }
  ctx.publish r.fault

/-! ## What a call leaves -/

@[simp] theorem callout_state (kind : CallbackKind) (addr : U64) (w : Width)
    (ctx : GuestContext κ ω) :
    (callout cb kind addr w ctx).rest.state =
      (cb (call kind addr w ctx) ctx.rest.state).state := by
  simp only [callout, CpuContext.publish]
  split <;> rfl

theorem callout_memFault {kind : CallbackKind} {addr : U64} {w : Width} {ctx : GuestContext κ ω}
    (h : (cb (call kind addr w ctx) ctx.rest.state).fault = none) :
    (callout cb kind addr w ctx).memFault = ctx.memFault := by
  simp only [callout, CpuContext.publish, h]
  rfl

theorem callout_memFault_some {kind : CallbackKind} {addr : U64} {w : Width}
    {ctx : GuestContext κ ω} {fault : Fault}
    (h : (cb (call kind addr w ctx) ctx.rest.state).fault = some fault) :
    (callout cb kind addr w ctx).memFault = fault.memFault := by
  simp only [callout, CpuContext.publish, h]

theorem callout_trace (kind : CallbackKind) (addr : U64) (w : Width) (ctx : GuestContext κ ω) :
    (callout cb kind addr w ctx).rest.trace =
      .called (call kind addr w ctx) ctx.rest.state.ioValue ctx.rest.state.atomicExpected
        (cb (call kind addr w ctx) ctx.rest.state).fault :: ctx.rest.trace := by
  simp only [callout, CpuContext.publish]
  split <;> rfl

theorem callout_pc (kind : CallbackKind) (addr : U64) (w : Width) (ctx : GuestContext κ ω) :
    (callout cb kind addr w ctx).pc = ctx.pc := by
  simp only [callout, CpuContext.publish]
  split <;> rfl

/-- Store the guest PC of the access in the context. -/
def atPc (pc : U64) (ctx : GuestContext κ ω) : GuestContext κ ω := { ctx with pc }

def reach (kind : CallbackKind) (addr : U64) (w : Width) (ctx : GuestContext κ ω) :
    GuestContext κ ω :=
  ctx.log (.reached (call kind addr w ctx))

/-- Skip the access if an earlier one faulted; the first one skipped records its PC. -/
def emitSkipIfFaulted (pc : U64) (proceed : GuestContext κ ω → GuestContext κ ω)
    (ctx : GuestContext κ ω) : GuestContext κ ω :=
  if ctx.memFault ≠ 0 then
    if ctx.memFaultSkipPc ≠ 0 then ctx else { ctx with memFaultSkipPc := pc }
  else proceed ctx

theorem emitSkipIfFaulted_of_eq {pc : U64} {proceed : GuestContext κ ω → GuestContext κ ω}
    {ctx : GuestContext κ ω} (h : ctx.memFault = 0) :
    emitSkipIfFaulted pc proceed ctx = proceed ctx := by
  rw [emitSkipIfFaulted, if_neg (not_not.mpr h)]

/-! ## Loads -/

/-- The element at `k` of a load through the callback, added to the data collected so far. -/
def loadElement (elem : Width) (pc addr : U64) (s : GuestContext κ ω × U128) (k : Nat) :
    GuestContext κ ω × U128 :=
  let a := addr + BitVec.ofNat 64 (k * elem.bytes)
  let ctx := reach .read a elem s.1
  if ctx.memFault ≠ 0 then (emitSkipIfFaulted pc id ctx, s.2)
  else
    let ctx := callout cb .read a elem ctx
    (ctx, s.2 ||| low elem.bytes ctx.rest.state.ioValue <<< (8 * (k * elem.bytes)))

/-- Callback load of the whole as ascending elements.  Elements skipped after a fault read as
zero. -/
def emitLoadElements (w elem : Width) (pc addr : U64) (ctx : GuestContext κ ω) :
    GuestContext κ ω × U128 :=
  (List.range (w.bytes / elem.bytes)).foldl (loadElement cb elem pc addr) (atPc pc ctx, 0)

def emitLoadSlowPath (w elem : Width) (pc addr : U64) (ctx : GuestContext κ ω) :
    GuestContext κ ω × U128 :=
  if elem.bytes < w.bytes then emitLoadElements cb w elem pc addr ctx
  else
    let ctx := emitSkipIfFaulted pc (callout cb .read addr w) (reach .read addr w (atPc pc ctx))
    (ctx, low w.bytes ctx.rest.state.ioValue)

/-- The host address of an access that goes inline and does not trap; the traps of a direct access
divert it to the slow path. -/
def inlineHost (mode : FastmemMode) (writes : Bool) (w : Width) (addr : U64) (g : GuestState ω) :
    Option U64 :=
  match emitFastmemGuard mode (if writes then pageDirectWrite else pageDirectRead) g.region w
    addr with
  | none => none
  | some a => if mode.isDirect && g.host.traps writes a w then none else some a

def emitLoad (mode : FastmemMode) (w elem : Width) (pc addr : U64) (ctx : GuestContext κ ω) :
    GuestContext κ ω × U128 :=
  match inlineHost mode false w addr ctx.rest.state with
  | some a => (ctx.log (.inline .read addr w), read 128 ctx.rest.state.host.memory a w.bytes)
  | none => emitLoadSlowPath cb w elem pc addr ctx

/-! ## Stores -/

/-- Store the low bytes of a value in `io_value`. -/
def setIoBytes (w : Width) (value : U128) (g : GuestState ω) : GuestState ω :=
  { g with ioValue := g.ioValue >>> (8 * w.bytes) <<< (8 * w.bytes) ||| low w.bytes value }

def setIoValue (value : U128) (g : GuestState ω) : GuestState ω := { g with ioValue := value }

/-- The element at `k` of a store through the callback. -/
def storeElement (elem : Width) (pc addr : U64) (value : U128) (ctx : GuestContext κ ω) (k : Nat) :
    GuestContext κ ω :=
  let a := addr + BitVec.ofNat 64 (k * elem.bytes)
  emitSkipIfFaulted pc
    (fun ctx =>
      let ctx := ctx.withState (setIoValue (low elem.bytes (value >>> (8 * (k * elem.bytes)))))
      callout cb .write a elem ctx)
    (reach .write a elem ctx)

/-- Callback store as ascending elements. -/
def emitStoreElements (w elem : Width) (pc addr : U64) (value : U128) (ctx : GuestContext κ ω) :
    GuestContext κ ω :=
  (List.range (w.bytes / elem.bytes)).foldl (storeElement cb elem pc addr value) (atPc pc ctx)

def emitStoreSlowPath (w elem : Width) (pc addr : U64) (value : U128) (ctx : GuestContext κ ω) :
    GuestContext κ ω :=
  if elem.bytes < w.bytes then emitStoreElements cb w elem pc addr value ctx
  else
    emitSkipIfFaulted pc (fun ctx => callout cb .write addr w (ctx.withState (setIoBytes w value)))
      (reach .write addr w (atPc pc ctx))

def emitStore (mode : FastmemMode) (w elem : Width) (pc addr : U64) (value : U128)
    (ctx : GuestContext κ ω) : GuestContext κ ω :=
  match inlineHost mode true w addr ctx.rest.state with
  | some a =>
    (ctx.withState fun g =>
      { g with host := { g.host with memory := write g.host.memory a w.bytes value } }).log
        (.inline .write addr w)
  | none => emitStoreSlowPath cb w elem pc addr value ctx

/-! ## Atomics -/

/-- The call of `mem_atomic`: the operands are in the context, and nothing asks for a fault. -/
def atomicCall (op : AtomicOp) (w : Width) (pc addr : U64) (ctx : GuestContext κ ω) :
    GuestContext κ ω :=
  callout cb (.atomic op) addr w (reach (.atomic op) addr w (atPc pc ctx))

/-- The slow path of `emit_atomic_core`. -/
def atomicSlowPath (op : AtomicOp) (w : Width) (pc addr arg3 r11 : U64) (ctx : GuestContext κ ω) :
    GuestContext κ ω × U64 :=
  let ctx := ctx.withState (setIoValue (arg3.setWidth 128))
  let ctx := if op = .cas then
      ctx.withState fun g => { g with atomicExpected := r11.setWidth 128 }
    else ctx
  let ctx := atomicCall cb op w pc addr ctx
  (ctx, (low w.bytes ctx.rest.state.ioValue).setWidth 64)

theorem Width.b1_ne_b16 : b1 ≠ b16 := by decide

theorem Width.b2_ne_b16 : b2 ≠ b16 := by decide

theorem Width.b4_ne_b16 : b4 ≠ b16 := by decide

theorem Width.b8_ne_b16 : b8 ≠ b16 := by decide

/-- The widths `emit_atomic_core` takes. -/
abbrev AtomicWidth := { w : Width // w ≠ .b16 }

/-- A guest atomic: the operand (the new value of a compare-and-swap) is in `arg3`, the expected
value in `r11`.  `none` while the retry loop is still going; `others` is what other threads do to
host memory in the meantime. -/
def emitAtomicCore (mode : FastmemMode) (op : AtomicOp) (w : AtomicWidth) (pc addr arg3 r11 : U64)
    (others : List Host) (ctx : GuestContext κ ω) : Option (GuestContext κ ω × U64) :=
  match emitFastmemGuard mode pageDirectWrite ctx.rest.state.region w.val addr with
  | none => some (atomicSlowPath cb op w.val pc addr arg3 r11 ctx)
  | some a =>
    let regs : InlineAtomic.Regs :=
      { rax := ctx.rest.state.region.memBase, scratch1 := addr, arg3, r8 := 0, r10 := a, r11 }
    match InlineAtomic.inlineAtomic op w.val mode.isDirect others ctx.rest.state.host regs with
    | .done rax host =>
      some ((ctx.withState fun g => { g with host }).log (.inline (.atomic op) addr w.val), rax)
    | .divert regs host =>
      let ctx := ctx.withState fun g => { g with host }
      some (atomicSlowPath cb op w.val pc regs.scratch1 regs.arg3 regs.r11 ctx)
    | .retry _ => none

/-- `emit_atomic_core` while no other thread is at the memory. -/
def atomicCore (mode : FastmemMode) (op : AtomicOp) (w : AtomicWidth) (pc addr arg3 r11 : U64)
    (ctx : GuestContext κ ω) : GuestContext κ ω × U64 :=
  (emitAtomicCore cb mode op w pc addr arg3 r11 [] ctx).getD (ctx, 0)

/-- 128-bit compare-and-swap through `mem_atomic`. -/
def emitCas128Call (pc addr : U64) (expected new : U128) (ctx : GuestContext κ ω) :
    GuestContext κ ω × U128 :=
  let ctx := ctx.withState fun g => { g with atomicExpected := expected, ioValue := new }
  let ctx := atomicCall cb .cas .b16 pc addr ctx
  (ctx, ctx.rest.state.ioValue)

/-- The register form of an operand of an atomic: 32-bit unless the access has 8 bytes. -/
def operand (w : Width) (v : U128) : U64 :=
  if w = .b8 then v.setWidth 64 else (v.setWidth 32).setWidth 64

/-- The accesses behind the exclusives of a block. -/
def accessPort (mode : FastmemMode) (pc : U64) : AccessPort (GuestContext κ ω) where
  load w addr ctx := emitLoad cb mode w w pc addr ctx
  cas w addr expected new ctx :=
    if h : w ≠ .b16 then
      let r := atomicCore cb mode .cas ⟨w, h⟩ pc addr (operand w new) (expected.setWidth 64) ctx
      (r.1, r.2.setWidth 128)
    else emitCas128Call cb pc addr expected new ctx
  monitor ctx := ctx.rest.state.monitor
  setMonitor monitor ctx :=
    (ctx.withState fun g => { g with monitor }).log (.setMonitor monitor)
  memFault ctx := ctx.memFault

end Paths

end Rustarmic
