import Rustarmic.Backend.Transparency

/-!
# Fastmem is transparent and contained

* `MemAccess` — a load, a store, a read-modify-write or a compare-and-swap, with its operands.
* `MemAccess.run` — the code emitted for it; `MemAccess.effect` is what it stands for and
  `MemAccess.requests` what its callback has to get.
* `Passed` — the callbacks got these requests.  An access that is split into elements stops asking
  when one of them faults, so then they got the first ones only; nothing is assumed of the
  callbacks.
* `Underway` — the same in the middle of an access, which one call and one skipped element preserve.
* `fastmem_transparent` — the two agree, inline accesses are the ones the mode describes, and they
  touch host bytes of its region only.

`Transparent` has a field for each promise, and each has its own assumptions.  Which accesses the
guards admit, and which host bytes they touch, is arithmetic and says nothing of callbacks.  What a
callback is asked holds for *every* callback, one that fails included.  That the access does to
guest memory what it stands for needs callbacks that work on the same memory (`Implements`), as
otherwise there is no one memory to speak of.

An access has three ways to go: inline, to the callback, and, in direct mode, inline until the host
faults and to the callback from there.  The last one starts the slow path with the registers as they
are, and a retry loop may have gone around by then.  It is not a case of its own in the end, since
`Backend.InlineAtomic` shows that the registers still hold the operands.
-/

set_option autoImplicit false

namespace Rustarmic

open ModularMemory

inductive MemAccess where
  | load (w elem : Width)
  | store (w elem : Width) (value : U128)
  | atomic (op : AtomicOp) (w : AtomicWidth) (arg3 r11 : U64)
  | cas128 (expected new : U128)

namespace MemAccess

variable {κ ω : Type}

def width : MemAccess → Width
  | load w _ | store w _ _ => w
  | atomic _ w _ _ => w.val
  | cas128 _ _ => .b16

/-- The permission a page needs for the access. -/
def perm : MemAccess → U8
  | load _ _ => pageDirectRead
  | _ => pageDirectWrite

/-- Whether the first inline instruction of the access writes. -/
def firstWrites : MemAccess → Bool
  | load _ _ => false
  | store _ _ _ | cas128 _ _ => true
  | atomic op _ _ _ => op = .add || op = .swp || op = .cas

/-- The host address of an access the guard admits.  A 128-bit compare-and-swap has no guard. -/
def guard (x : MemAccess) (mode : FastmemMode) (r : FastRegion) (addr : U64) : Option U64 :=
  match x with
  | cas128 _ _ => none
  | x => emitFastmemGuard mode x.perm r x.width addr

/-- Where the access touches host memory inline, unless its first instruction traps. -/
def touched (x : MemAccess) (mode : FastmemMode) (g : GuestState ω) (addr : U64) : Option U64 :=
  (x.guard mode g.region addr).filter fun a =>
    !(mode.isDirect && g.host.traps x.firstWrites a x.width)

/-- The code emitted for the access, with what it loads. -/
def run (cb : Callbacks ω) (mode : FastmemMode) (pc addr : U64) (others : List Host)
    (ctx : GuestContext κ ω) : MemAccess → Option (GuestContext κ ω × U128)
  | load w elem => some (emitLoad cb mode w elem pc addr ctx)
  | store w elem value => some (emitStore cb mode w elem pc addr value ctx, 0)
  | atomic op w arg3 r11 =>
    (emitAtomicCore cb mode op w pc addr arg3 r11 others ctx).map fun r => (r.1, r.2.setWidth 128)
  | cas128 expected new => some (emitCas128Call cb pc addr expected new ctx)

/-- What the access stands for: the new memory and what is loaded. -/
def effect (addr : U64) : MemAccess → Mem 64 → Mem 64 × U128
  | load w _, m => (m, read 128 m addr w.bytes)
  | store w _ value, m => (write m addr w.bytes value, 0)
  | atomic op w arg3 r11, m => rmw op w.val addr (arg3.setWidth 128) (r11.setWidth 128) m
  | cas128 expected new, m => rmw .cas .b16 addr new expected m

/-- The elements of an access that is split for its callback. -/
def elements (w elem : Width) (addr : U64) : List (Nat × U64) :=
  (List.range (w.bytes / elem.bytes)).map fun k => (k, addr + BitVec.ofNat 64 (k * elem.bytes))

/-- The calls of the callback, each with the operand and the expected value it has to find. -/
def requests (pc addr : U64) : MemAccess → List (Call × U128 × U128)
  | load w elem =>
    if elem.bytes < w.bytes then
      (elements w elem addr).map fun e => (⟨.read, pc, e.2, elem.size, 0⟩, 0, 0)
    else [(⟨.read, pc, addr, w.size, 0⟩, 0, 0)]
  | store w elem value =>
    if elem.bytes < w.bytes then
      (elements w elem addr).map fun e => (⟨.write, pc, e.2, elem.size, 0⟩,
        low elem.bytes (value >>> (8 * (e.1 * elem.bytes))), 0)
    else [(⟨.write, pc, addr, w.size, 0⟩, low w.bytes value, 0)]
  | atomic op w arg3 r11 =>
    [(⟨.atomic op, pc, addr, w.val.size, 0⟩, arg3.setWidth 128,
      if op = .cas then r11.setWidth 128 else 0)]
  | cas128 expected new => [(⟨.atomic .cas, pc, addr, Width.b16.size, 0⟩, new, expected)]

end MemAccess

/-- A call in the trace, with the operands that are meant for it: a write reads the low bytes of
`io_value` only, and no operation but the compare-and-swap an expected value. -/
def Event.request : Event → Option (Call × U128 × U128)
  | .called c ioValue atomicExpected _ =>
    match c.kind with
    | .read => some (c, 0, 0)
    | .write => some (c, low c.size.toNat ioValue, 0)
    | .atomic op => some (c, ioValue, if op = .cas then atomicExpected else 0)
  | _ => none

/-- The calls in a trace, in order. -/
def served (trace : List Event) : List (Call × U128 × U128) :=
  (trace.filterMap Event.request).reverse

/-- The fault a callback published. -/
def Event.fault : Event → Option Fault
  | .called _ _ _ fault => fault
  | _ => none

/-- Between two traces the callbacks got these requests, in their order: the first in any case, and
all of them unless one published a fault. -/
def Passed (requests : List (Call × U128 × U128)) (before after : List Event) : Prop :=
  ∃ events, after = events ++ before ∧ served events ≠ [] ∧ served events <+: requests ∧
    ((∀ e ∈ events, e.fault = none) → served events = requests)

/-! ## What the callbacks get -/

section Served

variable {κ ω : Type}

theorem served_cons (e : Event) (trace : List Event) :
    served (e :: trace) = served trace ++ e.request.toList := by
  rw [served, served, List.filterMap_cons]
  cases e.request with
  | none => exact (List.append_nil _).symm
  | some c => exact List.reverse_cons

/-- An access at `pc` is under way: of its requests these have been passed on since `before`, or, if
a fault is pending, those of them up to the call that published it. -/
def Underway (pc : U64) (before : List Event) (requests : List (Call × U128 × U128))
    (ctx : GuestContext κ ω) : Prop :=
  ctx.pc = pc ∧ ∃ events, ctx.rest.trace = events ++ before ∧
    (ctx.memFault = 0 ∧ served events = requests ∨
      ctx.memFault ≠ 0 ∧ (∃ e ∈ events, e.fault ≠ none) ∧ served events ≠ [] ∧
        served events <+: requests)

theorem Underway.start {ctx : GuestContext κ ω} (h : ctx.memFault = 0) (pc : U64) :
    Underway pc ctx.rest.trace [] (atPc pc ctx) :=
  ⟨rfl, [], rfl, Or.inl ⟨h, rfl⟩⟩

theorem Underway.passed {pc : U64} {before : List Event} {requests : List (Call × U128 × U128)}
    {ctx : GuestContext κ ω} (h : Underway pc before requests ctx) (hne : requests ≠ []) :
    Passed requests before ctx.rest.trace := by
  rcases h with ⟨-, events, htrace, ⟨-, hall⟩ | ⟨-, ⟨e, he, hfault⟩, hsome, hprefix⟩⟩
  · exact ⟨events, htrace, hall ▸ hne, hall ▸ List.prefix_rfl, fun _ => hall⟩
  · exact ⟨events, htrace, hsome, hprefix, fun hnone => absurd (hnone e he) hfault⟩

variable (cb : Callbacks ω) {pc : U64} {before : List Event}
  {requests : List (Call × U128 × U128)} {ctx : GuestContext κ ω}

theorem served_called {e : Event} {request : Call × U128 × U128} (h : e.request = some request)
    (c : Call) (events : List Event) :
    served (e :: .reached c :: events) = served events ++ [request] := by
  rw [served_cons, served_cons, h]
  exact congrArg (· ++ [request]) (List.append_nil _)

/-- A call passes the next request on. -/
theorem Underway.callout (h : Underway pc before requests ctx) (hfault : ctx.memFault = 0)
    (kind : CallbackKind) (a : U64) (w : Width) (f : GuestState ω → GuestState ω)
    {request : Call × U128 × U128}
    (hrequest : ∀ fault, (Event.called ⟨kind, pc, a, w.size, 0⟩ (f ctx.rest.state).ioValue
      (f ctx.rest.state).atomicExpected fault).request = some request) :
    Underway pc before (requests ++ [request])
      (callout cb kind a w ((reach kind a w ctx).withState f)) := by
  rcases h with ⟨hpc, events, htrace, ⟨-, hall⟩ | ⟨hne, -⟩⟩
  case inr => exact absurd hfault hne
  have hcall : call kind a w ((reach kind a w ctx).withState f) =
      ⟨kind, pc, a, w.size, 0⟩ := by
    rw [← hpc, ← hfault]
    rfl
  generalize hfaulted : (cb (call kind a w ((reach kind a w ctx).withState f))
    ((reach kind a w ctx).withState f).rest.state).fault = fault
  have hnew := served_called (hrequest fault) (call kind a w ctx) events
  rw [hall] at hnew
  refine ⟨(callout_pc ..).trans hpc, .called ⟨kind, pc, a, w.size, 0⟩ (f ctx.rest.state).ioValue
    (f ctx.rest.state).atomicExpected fault :: .reached (call kind a w ctx) :: events, ?_, ?_⟩
  · rw [callout_trace, hfaulted, hcall, List.cons_append, List.cons_append, ← htrace]
    rfl
  cases fault with
  | none => exact Or.inl ⟨(callout_memFault cb hfaulted).trans hfault, hnew⟩
  | some fault =>
    refine Or.inr ⟨?_, ⟨_, List.mem_cons_self, Option.some_ne_none fault⟩, ?_, ?_⟩
    · rw [callout_memFault_some cb hfaulted]
      exact fault.memFault_ne
    · rw [hnew]
      exact List.append_ne_nil_of_right_ne_nil _ (List.cons_ne_nil _ _)
    · rw [hnew]

/-- Behind a fault the next request is skipped. -/
theorem Underway.skip (h : Underway pc before requests ctx) (hfault : ctx.memFault ≠ 0)
    (kind : CallbackKind) (a : U64) (w : Width) (pc' : U64)
    (proceed : GuestContext κ ω → GuestContext κ ω) (request : Call × U128 × U128) :
    Underway pc before (requests ++ [request])
      (emitSkipIfFaulted pc' proceed (reach kind a w ctx)) := by
  obtain ⟨hpc, events, htrace, hserved⟩ := h
  rcases hserved with ⟨hzero, -⟩ | ⟨-, hfailed, hsome, hprefix⟩
  · exact absurd hzero hfault
  have hfault' : (reach kind a w ctx).memFault ≠ 0 := hfault
  have hskip : ∃ skipPc, emitSkipIfFaulted pc' proceed (reach kind a w ctx) =
      { reach kind a w ctx with memFaultSkipPc := skipPc } := by
    rw [emitSkipIfFaulted, if_pos hfault']
    split
    · exact ⟨_, rfl⟩
    · exact ⟨pc', rfl⟩
  obtain ⟨skipPc, hskip⟩ := hskip
  rw [hskip]
  have hserved : served (.reached (call kind a w ctx) :: events) = served events :=
    (served_cons ..).trans (List.append_nil _)
  refine ⟨hpc, .reached (call kind a w ctx) :: events, ?_, Or.inr ⟨hfault, ?_, ?_, ?_⟩⟩
  · exact congrArg (.reached (call kind a w ctx) :: ·) htrace
  · obtain ⟨e, he, hne⟩ := hfailed
    exact ⟨e, List.mem_cons_of_mem _ he, hne⟩
  · rwa [hserved]
  · rw [hserved]
    exact hprefix.trans (List.prefix_append _ _)

/-- One element of a load. -/
theorem Underway.loadElement {s : GuestContext κ ω × U128} (h : Underway pc before requests s.1)
    (elem : Width) (pc' addr : U64) (k : Nat) :
    Underway pc before
      (requests ++ [(⟨.read, pc, addr + BitVec.ofNat 64 (k * elem.bytes), elem.size, 0⟩, 0, 0)])
      (loadElement cb elem pc' addr s k).1 := by
  by_cases hfault : s.1.memFault = 0
  · rw [loadElement_of_eq cb elem pc' addr hfault]
    exact h.callout cb hfault _ _ _ id fun _ => rfl
  · have hreach : (reach .read (addr + BitVec.ofNat 64 (k * elem.bytes)) elem s.1).memFault ≠ 0 :=
      hfault
    simp only [Rustarmic.loadElement]
    rw [if_pos hreach]
    exact h.skip hfault ..

/-- One element of a store. -/
theorem Underway.storeElement (h : Underway pc before requests ctx) (elem : Width)
    (pc' addr : U64) (value : U128) (k : Nat) :
    Underway pc before
      (requests ++ [(⟨.write, pc, addr + BitVec.ofNat 64 (k * elem.bytes), elem.size, 0⟩,
        low elem.bytes (value >>> (8 * (k * elem.bytes))), 0)])
      (storeElement cb elem pc' addr value ctx k) := by
  have hsize : elem.size.toNat = elem.bytes := by
    cases elem <;> rfl
  by_cases hfault : ctx.memFault = 0
  · have hreach : (reach .write (addr + BitVec.ofNat 64 (k * elem.bytes)) elem ctx).memFault = 0 :=
      hfault
    rw [Rustarmic.storeElement, emitSkipIfFaulted_of_eq hreach]
    refine h.callout cb hfault _ _ _ _ fun fault => ?_
    simp only [Event.request, setIoValue, hsize, low_low]
  · exact h.skip hfault ..

/-- The elements one after the other. -/
theorem Underway.elements {σ : Type} {step : σ → Nat → σ} (context : σ → GuestContext κ ω)
    {request : Nat → Call × U128 × U128}
    (hstep : ∀ {requests s} k, Underway pc before requests (context s) →
      Underway pc before (requests ++ [request k]) (context (step s k)))
    {s : σ} (h : Underway pc before [] (context s)) (n : Nat) :
    Underway pc before ((List.range n).map request) (context ((List.range n).foldl step s)) := by
  induction n with
  | zero => exact h
  | succ n ih =>
    rw [List.range_succ, List.foldl_append, List.map_append]
    exact hstep n ih

end Served

section Slow

variable {κ ω : Type} (cb : Callbacks ω) {ctx : GuestContext κ ω} (h : ctx.memFault = 0)
include h

theorem passed_atomicCall (op : AtomicOp) (w : Width) (pc addr : U64) :
    Passed [(⟨.atomic op, pc, addr, w.size, 0⟩, ctx.rest.state.ioValue,
        if op = .cas then ctx.rest.state.atomicExpected else 0)] ctx.rest.trace
      (atomicCall cb op w pc addr ctx).rest.trace := by
  have hcall := (Underway.start h pc).callout cb h (.atomic op) addr w id fun _ => rfl
  exact hcall.passed (List.cons_ne_nil _ _)

theorem passed_atomicSlowPath (op : AtomicOp) (w : Width) (pc addr arg3 r11 : U64) :
    Passed [(⟨.atomic op, pc, addr, w.size, 0⟩, arg3.setWidth 128,
        if op = .cas then r11.setWidth 128 else 0)] ctx.rest.trace
      (atomicSlowPath cb op w pc addr arg3 r11 ctx).1.rest.trace := by
  by_cases hop : op = .cas
  · subst hop
    have hset : ((ctx.withState (setIoValue (arg3.setWidth 128))).withState
        fun g => { g with atomicExpected := r11.setWidth 128 }).memFault = 0 := h
    exact passed_atomicCall cb hset .cas w pc addr
  · have hset : (ctx.withState (setIoValue (arg3.setWidth 128))).memFault = 0 := h
    have hcall := passed_atomicCall cb hset op w pc addr
    simp only [atomicSlowPath, if_neg hop] at hcall ⊢
    exact hcall

theorem passed_cas128 (pc addr : U64) (expected new : U128) :
    Passed [(⟨.atomic .cas, pc, addr, Width.b16.size, 0⟩, new, expected)] ctx.rest.trace
      (emitCas128Call cb pc addr expected new ctx).1.rest.trace := by
  have hset : (ctx.withState fun g =>
      { g with atomicExpected := expected, ioValue := new }).memFault = 0 := h
  exact passed_atomicCall cb hset .cas .b16 pc addr

theorem passed_loadSlowPath (w elem : Width) (pc addr : U64) :
    Passed ((MemAccess.load w elem).requests pc addr) ctx.rest.trace
      (emitLoadSlowPath cb w elem pc addr ctx).1.rest.trace := by
  rw [emitLoadSlowPath, MemAccess.requests]
  split
  case isTrue hlt =>
    rw [MemAccess.elements, List.map_map]
    have hall := Underway.elements Prod.fst (fun k hs => hs.loadElement cb elem pc addr k)
      (s := (atPc pc ctx, 0)) (Underway.start h pc) (w.bytes / elem.bytes)
    exact hall.passed (mt List.map_eq_nil_iff.mp (Width.range_ne_nil hlt))
  case isFalse =>
    have hreach : (reach .read addr w (atPc pc ctx)).memFault = 0 := h
    rw [emitSkipIfFaulted_of_eq hreach]
    exact ((Underway.start h pc).callout cb h .read addr w id fun _ => rfl).passed
      (List.cons_ne_nil _ _)

theorem passed_storeSlowPath (w elem : Width) (pc addr : U64) (value : U128) :
    Passed ((MemAccess.store w elem value).requests pc addr) ctx.rest.trace
      (emitStoreSlowPath cb w elem pc addr value ctx).rest.trace := by
  rw [emitStoreSlowPath, MemAccess.requests]
  split
  case isTrue hlt =>
    rw [MemAccess.elements, List.map_map]
    have hall := Underway.elements id (fun k hs => hs.storeElement cb elem pc addr value k)
      (Underway.start h pc) (w.bytes / elem.bytes)
    exact hall.passed (mt List.map_eq_nil_iff.mp (Width.range_ne_nil hlt))
  case isFalse =>
    have hreach : (reach .write addr w (atPc pc ctx)).memFault = 0 := h
    have hsize : w.size.toNat = w.bytes := by
      cases w <;> rfl
    have hlow : low w.bytes (setIoBytes w value ctx.rest.state).ioValue = low w.bytes value := by
      rw [low, low, setIoBytes_low]
    rw [emitSkipIfFaulted_of_eq hreach]
    refine ((Underway.start h pc).callout cb h .write addr w (setIoBytes w value)
      fun fault => ?_).passed (List.cons_ne_nil _ _)
    simp only [Event.request, hsize]
    rw [← hlow]
    rfl

end Slow

namespace MemAccess

variable {κ ω : Type} {cb : Callbacks ω} {mode : FastmemMode} {ext : ω → Mem 64}
  {others : List Host}

/-! ## Inline or not -/

theorem touched_guard {x : MemAccess} {g : GuestState ω} {addr a : U64}
    (h : x.touched mode g addr = some a) :
    x.guard mode g.region addr = some a ∧
      (mode.isDirect && g.host.traps x.firstWrites a x.width) = false := by
  rw [touched, Option.filter_eq_some_iff] at h
  exact ⟨h.1, Bool.not_inj h.2⟩

theorem touched_eq {x : MemAccess} {g : GuestState ω} {addr a : U64}
    (h : x.guard mode g.region addr = some a) :
    x.touched mode g addr =
      if mode.isDirect && g.host.traps x.firstWrites a x.width then none else some a := by
  rw [touched, h]
  cases htrap : (mode.isDirect && g.host.traps x.firstWrites a x.width) <;>
    simp only [Option.filter, htrap, Bool.not_true, Bool.not_false, Bool.false_eq_true, if_true,
      if_false]

theorem touched_inlineHost (mode : FastmemMode) (w : Width) (writes : Bool) (g : GuestState ω)
    (addr : U64) :
    ((emitFastmemGuard mode (if writes then pageDirectWrite else pageDirectRead) g.region w
      addr).filter fun a => !(mode.isDirect && g.host.traps writes a w)) =
        inlineHost mode writes w addr g := by
  rw [inlineHost]
  cases emitFastmemGuard mode (if writes then pageDirectWrite else pageDirectRead) g.region w addr
    with
  | none => rfl
  | some a =>
    cases h : (mode.isDirect && g.host.traps writes a w) <;> simp [Option.filter, h]

theorem touched_load {w elem : Width} {g : GuestState ω} {addr : U64} :
    (load w elem).touched mode g addr = inlineHost mode false w addr g :=
  touched_inlineHost mode w false g addr

theorem touched_store {w elem : Width} {value : U128} {g : GuestState ω} {addr : U64} :
    (store w elem value).touched mode g addr = inlineHost mode true w addr g :=
  touched_inlineHost mode w true g addr

/-! ## The two ways agree -/

theorem atomic_same (hserves : ServesAtomics mode cb ext) {op : AtomicOp} {w : AtomicWidth}
    {pc addr arg3 r11 : U64} {ctx : GuestContext κ ω}
    (hfits : ∀ a, (atomic op w arg3 r11).touched mode ctx.rest.state addr = some a →
      mode.Fits ctx.rest.state.region w.val addr) {r : GuestContext κ ω × U64}
    (hr : emitAtomicCore cb mode op w pc addr arg3 r11 others ctx = some r) :
    ∃ seen ∈ ctx.rest.state.host :: others,
      (guestMemory mode ext r.1.rest.state, r.2.setWidth 128) =
        rmw op w.val addr (arg3.setWidth 128) (r11.setWidth 128)
          (guestMemory mode ext { ctx.rest.state with host := seen }) := by
  rw [emitAtomicCore] at hr
  cases hguard : emitFastmemGuard mode pageDirectWrite ctx.rest.state.region w.val addr with
  | none =>
    simp only [hguard, Option.some.injEq] at hr
    subst hr
    exact ⟨_, List.mem_cons_self, atomicSlowPath_spec hserves op w.property pc addr arg3 r11 ctx⟩
  | some a =>
    simp only [hguard] at hr
    generalize hregs : (⟨ctx.rest.state.region.memBase, addr, arg3, 0, a, r11⟩ :
      InlineAtomic.Regs) = regs at hr
    have hscratch1 : regs.scratch1 = addr := by rw [← hregs]
    have harg3 : regs.arg3 = arg3 := by rw [← hregs]
    have hr10 : regs.r10 = a := by rw [← hregs]
    have hr11 : regs.r11 = r11 := by rw [← hregs]
    have hsound := InlineAtomic.inlineAtomic_sound w.property op mode.isDirect others
      ctx.rest.state.host regs
    cases hout : InlineAtomic.inlineAtomic op w.val mode.isDirect others ctx.rest.state.host regs with
    | retry regs' => simp only [hout, reduceCtorEq] at hr
    | divert regs' host =>
      rw [hout] at hsound
      simp only [hout, Option.some.injEq] at hr
      subst hr
      obtain ⟨hmem, hkept⟩ := hsound
      refine ⟨host, hmem, ?_⟩
      rw [hkept.scratch1_eq, hkept.arg3_eq, hscratch1, harg3]
      refine (atomicSlowPath_spec hserves op w.property pc addr arg3 regs'.r11 _).trans ?_
      by_cases hop : op = .cas
      · rw [hkept.r11_eq hop, hr11]
        rfl
      · exact rmw_expected hop ..
    | done rax host =>
      rw [hout] at hsound
      simp only [hout, Option.some.injEq] at hr
      subst hr
      obtain ⟨seen, hmem, hhost, hrax⟩ := hsound
      refine ⟨seen, hmem, ?_⟩
      have htouched : (atomic op w arg3 r11).touched mode ctx.rest.state addr = some a := by
        cases htrap : (mode.isDirect && ctx.rest.state.host.traps
            (op = .add || op = .swp || op = .cas) a w.val) with
        | true =>
          rw [← hr10] at htrap
          obtain ⟨regs', hdivert, -⟩ := InlineAtomic.inlineAtomic_first others regs htrap
          rw [hdivert] at hout
          cases hout
        | false =>
          rw [touched_eq (x := atomic op w arg3 r11) hguard]
          exact if_neg (Bool.eq_false_iff.mp htrap)
      have hfit : mode.Fits ({ ctx.rest.state with host := seen } : GuestState ω).region w.val
          addr := hfits a htouched
      rw [← rmw_host ext hfit, hrax, hhost, harg3, hr10, hr11, guard_eq hguard]
      rfl

theorem cas128_same (hserves : ServesAtomics mode cb ext) {pc addr : U64} {expected new : U128}
    {ctx : GuestContext κ ω} {r : GuestContext κ ω × U128}
    (hr : (cas128 expected new).run cb mode pc addr others ctx = some r) :
    ∃ seen ∈ ctx.rest.state.host :: others, (guestMemory mode ext r.1.rest.state, r.2) =
      (cas128 expected new).effect addr (guestMemory mode ext { ctx.rest.state with host := seen }) := by
  cases hr
  have hcas := callout_atomic hserves .cas addr .b16 (reach (.atomic .cas) addr .b16 (atPc pc
    (ctx.withState fun g => { g with atomicExpected := expected, ioValue := new })))
  have hall (x : U128) : low Width.b16.bytes x = x := by
    simp [low, Width.bytes]
  rw [hall] at hcas
  exact ⟨_, List.mem_cons_self, hcas⟩

/-- **What fastmem promises of an access.**  Which accesses a window and a page table admit; that
every host byte touched inline is in the region; what the callback gets of an access that touches
nothing inline; and that the access does to guest memory what it stands for, at one of the states it
may see if other threads are at the memory. -/
structure Transparent (x : MemAccess) (mode : FastmemMode) (cb : Callbacks ω) (ext : ω → Mem 64)
    (pc addr : U64) (others : List Host) (ctx : GuestContext κ ω) : Prop where
  window : mode = .window → (∀ e n, x ≠ cas128 e n) →
    ((x.guard mode ctx.rest.state.region addr).isSome ↔
      ctx.rest.state.region.memBaseVa.toNat ≤ addr.toNat ∧
        addr.toNat - ctx.rest.state.region.memBaseVa.toNat + x.width.bytes ≤
          ctx.rest.state.region.memSize.toNat)
  pageTable : ∀ bits, mode = .pageTable bits → (∀ e n, x ≠ cas128 e n) →
    ((x.guard mode ctx.rest.state.region addr).isSome ↔
      addr.toNat % 4096 + x.width.bytes ≤ 4096 ∧ addr.toNat + x.width.bytes ≤ 2 ^ bits.val ∧
        ctx.rest.state.region.pageTable (addr >>> 12) &&& x.perm ≠ 0)
  contained : ∀ a, x.touched mode ctx.rest.state addr = some a → ∀ i < x.width.bytes,
    mode.Owns ctx.rest.state.region (a + BitVec.ofNat 64 i)
  callback : x.touched mode ctx.rest.state addr = none →
    ∃ r, x.run cb mode pc addr others ctx = some r ∧
      Passed (x.requests pc addr) ctx.rest.trace r.1.rest.trace
  same : Implements mode cb ext → ∀ r, x.run cb mode pc addr others ctx = some r →
    ∃ seen ∈ ctx.rest.state.host :: others,
      (guestMemory mode ext r.1.rest.state, r.2) =
        x.effect addr (guestMemory mode ext { ctx.rest.state with host := seen })

theorem guard_emit {x : MemAccess} {r : FastRegion} {addr a : U64}
    (h : x.guard mode r addr = some a) : emitFastmemGuard mode x.perm r x.width addr = some a := by
  cases x with
  | cas128 e n => cases h
  | load w elem => exact h
  | store w elem value => exact h
  | atomic op w arg3 r11 => exact h

theorem guard_of_ne {x : MemAccess} (h : ∀ e n, x ≠ cas128 e n) (r : FastRegion) (addr : U64) :
    x.guard mode r addr = emitFastmemGuard mode x.perm r x.width addr := by
  cases x with
  | cas128 e n => exact absurd rfl (h e n)
  | load w elem => rfl
  | store w elem value => rfl
  | atomic op w arg3 r11 => rfl

theorem owns_of_fits {r : FastRegion} {w : Width} {addr a : U64} (hfits : mode.Fits r w addr)
    (ha : a = r.memBase + (addr - (mode.span r).1)) {i : Nat} (hi : i < w.bytes) :
    mode.Owns r (a + BitVec.ofNat 64 i) := by
  have hspan := mode.span_le r
  rw [FastmemMode.Fits] at hfits
  have hsub : a + BitVec.ofNat 64 i - r.memBase = addr - (mode.span r).1 + BitVec.ofNat 64 i := by
    rw [ha, BitVec.add_assoc, add_sub_cancel_left]
  rw [FastmemMode.Owns, hsub, BitVec.toNat_add, BitVec.toNat_ofNat]
  omega

theorem run_callback (cb : Callbacks ω) (x : MemAccess) (pc addr : U64)
    {ctx : GuestContext κ ω} (h : ctx.memFault = 0)
    (hslow : x.touched mode ctx.rest.state addr = none) :
    ∃ r, x.run cb mode pc addr others ctx = some r ∧
      Passed (x.requests pc addr) ctx.rest.trace r.1.rest.trace := by
  cases x with
  | load w elem =>
    rw [touched_load] at hslow
    refine ⟨_, rfl, ?_⟩
    rw [emitLoad, hslow]
    exact passed_loadSlowPath cb h w elem pc addr
  | store w elem value =>
    rw [touched_store] at hslow
    refine ⟨_, rfl, ?_⟩
    rw [emitStore, hslow]
    exact passed_storeSlowPath cb h w elem pc addr value
  | cas128 expected new =>
    exact ⟨_, rfl, passed_cas128 cb h pc addr expected new⟩
  | atomic op w arg3 r11 =>
    rw [run, emitAtomicCore]
    cases hguard : emitFastmemGuard mode pageDirectWrite ctx.rest.state.region w.val addr with
    | none =>
      exact ⟨_, rfl, passed_atomicSlowPath cb h op w.val pc addr arg3 r11⟩
    | some a =>
      have htrap : (mode.isDirect && ctx.rest.state.host.traps
          (op = .add || op = .swp || op = .cas) a w.val) = true := by
        rw [touched_eq (x := atomic op w arg3 r11) hguard] at hslow
        split at hslow
        case isTrue htrap => exact htrap
        case isFalse => cases hslow
      obtain ⟨regs', hdivert, hkept⟩ := InlineAtomic.inlineAtomic_first others
        ⟨ctx.rest.state.region.memBase, addr, arg3, 0, a, r11⟩ htrap
      simp only [hdivert, Option.map_some]
      have hset : (ctx.withState fun g => { g with host := ctx.rest.state.host }).memFault = 0 := h
      have hpassed := passed_atomicSlowPath cb hset op w.val pc regs'.scratch1 regs'.arg3 regs'.r11
      refine ⟨_, rfl, ?_⟩
      rw [hkept.scratch1_eq, hkept.arg3_eq] at hpassed ⊢
      rw [requests]
      by_cases hop : op = .cas
      · rw [hkept.r11_eq hop] at hpassed ⊢
        exact hpassed
      · rw [if_neg hop] at hpassed ⊢
        exact hpassed

/-- **Fastmem is transparent and contained**, for every access from a context without a pending
fault, but for a direct access that straddles the end of its region and does not trap. -/
theorem fastmem_transparent (x : MemAccess) (mode : FastmemMode) (cb : Callbacks ω)
    (ext : ω → Mem 64) (pc addr : U64) (others : List Host) (ctx : GuestContext κ ω)
    (hfault : ctx.memFault = 0)
    (hdirect : ∀ bits a, mode = .direct bits → x.touched mode ctx.rest.state addr = some a →
      addr.toNat + x.width.bytes ≤ 2 ^ bits.val) :
    Transparent x mode cb ext pc addr others ctx := by
  have hfits {a : U64} (ha : x.touched mode ctx.rest.state addr = some a) :
      mode.Fits ctx.rest.state.region x.width addr :=
    fits_of_guard (guard_emit (touched_guard ha).1) fun bits hmode => hdirect bits a hmode ha
  constructor
  case window =>
    rintro rfl hx
    rw [guard_of_ne hx, window_guard]
    split <;> simp_all
  case pageTable =>
    rintro bits rfl hx
    rw [guard_of_ne hx, pageTable_guard]
    split <;> simp_all
  case contained =>
    intro a ha i hi
    exact owns_of_fits (hfits ha) (guard_eq (guard_emit (touched_guard ha).1)) hi
  case callback => exact fun hslow => run_callback cb x pc addr hfault hslow
  case same =>
    intro himpl r hr
    cases x with
    | load w elem =>
      cases hr
      obtain ⟨hmemory, hvalue⟩ := emitLoad_spec himpl w elem pc addr hfault fun a ha =>
        hfits (touched_load.trans ha)
      exact ⟨_, List.mem_cons_self, Prod.ext hmemory hvalue⟩
    | store w elem value =>
      cases hr
      have hmemory := emitStore_spec himpl w elem pc addr value hfault fun a ha =>
        hfits (touched_store.trans ha)
      exact ⟨_, List.mem_cons_self, Prod.ext hmemory rfl⟩
    | atomic op w arg3 r11 =>
      rw [run, Option.map_eq_some_iff] at hr
      obtain ⟨r', hr', rfl⟩ := hr
      exact atomic_same himpl.servesAtomics (fun a ha => hfits ha) hr'
    | cas128 expected new =>
      exact cas128_same himpl.servesAtomics hr

end MemAccess

/-! ## An embedder with the memory -/

/-- Replace guest memory: the host bytes of the span, and for the rest the embedder's own. -/
def setGuestMemory (mode : FastmemMode) (m : Mem 64) (g : GuestState (Mem 64)) :
    GuestState (Mem 64) :=
  { g with
    host := { g.host with
      memory := fun h =>
        if (h - g.region.memBase).toNat < (mode.span g.region).2 then
          m ((mode.span g.region).1 + (h - g.region.memBase))
        else g.host.memory h }
    world := m }

@[simp] theorem setGuestMemory_region (mode : FastmemMode) (m : Mem 64)
    (g : GuestState (Mem 64)) : (setGuestMemory mode m g).region = g.region := rfl

theorem setGuestMemory_host (mode : FastmemMode) (m : Mem 64) (g : GuestState (Mem 64)) (h : U64) :
    (setGuestMemory mode m g).host.memory h =
      if (h - g.region.memBase).toNat < (mode.span g.region).2 then
        m ((mode.span g.region).1 + (h - g.region.memBase))
      else g.host.memory h := rfl

theorem guestMemory_set (mode : FastmemMode) (m : Mem 64) (g : GuestState (Mem 64)) :
    guestMemory mode id (setGuestMemory mode m g) = m := by
  funext b
  have hoff : g.region.memBase + (b - (mode.span g.region).1) - g.region.memBase =
      b - (mode.span g.region).1 := add_sub_cancel_left _ _
  have hback : (mode.span g.region).1 + (b - (mode.span g.region).1) = b :=
    add_sub_cancel _ _
  rw [guestMemory, FastmemMode.backed, setGuestMemory_region]
  by_cases h : (b - (mode.span g.region).1).toNat < (mode.span g.region).2
  · rw [if_pos h, Option.map_some, Option.getD_some, setGuestMemory_host, hoff, if_pos h, hback]
  · rw [if_neg h]
    rfl

/-- The callbacks of an embedder that keeps all of guest memory. -/
def flatCallbacks (mode : FastmemMode) : Callbacks (Mem 64) := fun c g =>
  let m := guestMemory mode id g
  let n := c.size.toNat
  match c.kind with
  | .read => ⟨{ g with ioValue := read 128 m c.addr n }, none, false, id⟩
  | .write => ⟨setGuestMemory mode (write m c.addr n g.ioValue) g, none, false, id⟩
  | .atomic op =>
    let old := read 128 m c.addr n
    match op.apply c.size old g.ioValue g.atomicExpected with
    | some new =>
      ⟨{ setGuestMemory mode (write m c.addr n new) g with ioValue := old }, none, false, id⟩
    | none => ⟨{ g with ioValue := old }, none, false, id⟩

theorem flatCallbacks_implements (mode : FastmemMode) :
    Implements mode (flatCallbacks mode) id := by
  have hsize (w : Width) : w.size.toNat = w.bytes := by
    cases w <;> rfl
  constructor
  case fault =>
    intro c g
    rw [flatCallbacks]
    cases c.kind with
    | read => rfl
    | write => rfl
    | atomic op =>
      dsimp only
      cases op.apply c.size (read 128 (guestMemory mode id g) c.addr c.size.toNat) g.ioValue
        g.atomicExpected <;> rfl
  case region =>
    intro c g
    rw [flatCallbacks]
    cases c.kind with
    | read => rfl
    | write => rfl
    | atomic op =>
      dsimp only
      cases op.apply c.size (read 128 (guestMemory mode id g) c.addr c.size.toNat) g.ioValue
        g.atomicExpected <;> rfl
  case read =>
    intro w pc addr f g
    simp only [flatCallbacks, hsize]
    exact ⟨rfl, low_read⟩
  case write =>
    intro w pc addr f g
    simp only [flatCallbacks, hsize]
    exact guestMemory_set mode _ g
  case atomic =>
    intro op w pc addr f g
    simp only [flatCallbacks, hsize, rmw]
    cases op.apply w.size (read 128 (guestMemory mode id g) addr w.bytes) g.ioValue
      g.atomicExpected with
    | none => exact congrArg (guestMemory mode id g, ·) low_read
    | some new => exact Prod.ext (guestMemory_set mode _ g) low_read

/-- A store of eight bytes in the middle of a window, which goes inline. -/
theorem fastmem_transparent_window :
    let ctx : GuestContext Unit (Mem 64) := ⟨0, 0, 0, 0, 0, 0, 0, 0, 0, 0,
      ⟨(), fun _ => 0, ⟨fun _ => 0, ⟨0, 0, 0⟩, 0, 0, ⟨0x7000, 0x1000, 0x100, fun _ => 0⟩,
        ⟨fun _ => 0, fun _ _ => false⟩, fun _ => 0⟩, []⟩⟩
    (MemAccess.store .b8 .b8 5).touched .window ctx.rest.state 0x1010 = some 0x7010 ∧
      Implements .window (flatCallbacks .window) id ∧
      (MemAccess.store .b8 .b8 5).Transparent .window (flatCallbacks .window) id 0 0x1010 []
        ctx := by
  intro ctx
  refine ⟨by decide, flatCallbacks_implements .window, ?_⟩
  exact MemAccess.fastmem_transparent _ _ _ _ _ _ _ _ rfl (fun _ _ h => by cases h)

/-- **Where fastmem is less than it seems.**  A 128-bit compare-and-swap in the middle of a window
calls back; a direct load of eight bytes four bytes before the end of the region touches a byte
behind it; and with a fault pending a load never reaches its callback. -/
theorem fastmem_not_transparent :
    (MemAccess.cas128 0 1).guard .window ⟨0x7000, 0x1000, 0x100, fun _ => 0⟩ 0x1010 = none ∧
      ((0x1000 : U64).toNat ≤ (0x1010 : U64).toNat ∧
        (0x1010 : U64).toNat - (0x1000 : U64).toNat + Width.b16.bytes ≤ (0x100 : U64).toNat) ∧
    ((MemAccess.load .b8 .b8).touched (.direct ⟨20, by decide⟩)
        (⟨fun _ => 0, ⟨0, 0, 0⟩, 0, 0, ⟨0x700000, 0, 0, fun _ => 0⟩,
          ⟨fun _ => 0, fun _ _ => false⟩, fun _ => 0⟩ : GuestState (Mem 64)) 0xFFFFC = some 0x7FFFFC ∧
      ¬ FastmemMode.Owns (.direct ⟨20, by decide⟩) ⟨0x700000, 0, 0, fun _ => 0⟩
        (0x7FFFFC + BitVec.ofNat 64 4)) ∧
    let ctx : GuestContext Unit (Mem 64) := ⟨0, 0, 1, 0, 0, 0, 0, 0, 0, 0,
      ⟨(), fun _ => 0, ⟨fun _ => 0, ⟨0, 0, 0⟩, 0, 0, ⟨0, 0, 0, fun _ => 0⟩,
        ⟨fun _ => 0, fun _ _ => false⟩, fun _ => 0⟩, []⟩⟩
    ∀ r, (MemAccess.load .b8 .b8).run (flatCallbacks .off) .off 0 0x1010 [] ctx = some r →
      served r.1.rest.trace = [] := by
  refine ⟨by decide, by decide, ⟨by decide, by rw [FastmemMode.Owns]; decide⟩, ?_⟩
  rintro ctx r ⟨⟩
  rfl

end Rustarmic