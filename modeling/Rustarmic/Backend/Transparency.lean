import Rustarmic.Backend.Access

/-!
# Inline and callback accesses agree

Fastmem lets generated code go to host memory where it can and call the embedder where it cannot.  A
guest must not be able to tell which it was.

* `FastmemMode.span` — the guest addresses a mode keeps in host memory.
* `guestMemory` — guest memory: host memory where the mode has it, the embedder's elsewhere.
* `Implements` — callbacks that work on that memory.
* `fastmem_transparent` — which accesses go inline, that the bytes they touch are in the region,
  what the callbacks get of the others, and that every access does to guest memory what it stands
  for, whichever way it takes.

**Guest memory is a view.**  There is no such thing in the process: some bytes are in a host buffer
and others are known to the embedder alone.  `guestMemory` puts them together, byte by byte, and an
access is right if it does to that view what a load, a store or a read-modify-write does to a
memory.  A callback that serves the view has to answer for the bytes in the buffer as well, since an
access may be sent to it for reasons that have nothing to do with the address.

**What the guards cannot see.**  In direct mode a guard looks at the upper bits of the address only,
so that an access at the end of the region reaches behind it, into pages which the embedder has made
inaccessible.  It traps there, and the theorem leaves it to the trap.

Faults and monitors are other matters: an access that is skipped after a fault does nothing at all,
and `Backend.MemAccess` says so.
-/

set_option autoImplicit false

namespace Rustarmic

open ModularMemory

/-! ## Guest memory -/

namespace FastmemMode

/-- The guest addresses a mode keeps in host memory: the first, and how many. -/
def span (mode : FastmemMode) (r : FastRegion) : U64 × Nat :=
  match mode with
  | off => (0, 0)
  | window => (r.memBaseVa, r.memSize.toNat)
  | pageTable bits => (0, 2 ^ bits.val)
  | direct bits => (0, 2 ^ bits.val)

/-- The host byte belongs to the region the mode describes. -/
def Owns (mode : FastmemMode) (r : FastRegion) (h : U64) : Prop :=
  (h - r.memBase).toNat < (mode.span r).2

/-- The host address of a guest byte. -/
def backed (mode : FastmemMode) (r : FastRegion) (b : U64) : Option U64 :=
  if (b - (mode.span r).1).toNat < (mode.span r).2 then some (r.memBase + (b - (mode.span r).1))
  else none

/-- All bytes of the access are in the span. -/
def Fits (mode : FastmemMode) (r : FastRegion) (w : Width) (addr : U64) : Prop :=
  (addr - (mode.span r).1).toNat + w.bytes ≤ (mode.span r).2

theorem span_le (mode : FastmemMode) (r : FastRegion) : (mode.span r).2 ≤ 2 ^ 64 := by
  cases mode with
  | off => exact Nat.zero_le _
  | window => exact r.memSize.isLt.le
  | pageTable bits => exact Nat.pow_le_pow_right (by decide) (by have := bits.property; omega)
  | direct bits => exact Nat.pow_le_pow_right (by decide) (by have := bits.property; omega)

variable {mode : FastmemMode} {r : FastRegion} {w : Width} {addr : U64}

theorem backed_of_fits (h : mode.Fits r w addr) {i : Nat} (hi : i < w.bytes) :
    mode.backed r (addr + BitVec.ofNat 64 i) =
      some (r.memBase + (addr - (mode.span r).1) + BitVec.ofNat 64 i) := by
  have hspan := mode.span_le r
  have hoff : addr + BitVec.ofNat 64 i - (mode.span r).1 =
      addr - (mode.span r).1 + BitVec.ofNat 64 i := add_sub_right_comm _ _ _
  rw [Fits] at h
  have hnat : (addr - (mode.span r).1 + BitVec.ofNat 64 i).toNat =
      (addr - (mode.span r).1).toNat + i := by
    rw [BitVec.toNat_add, BitVec.toNat_ofNat]
    omega
  rw [backed, hoff, hnat, if_pos (by omega), BitVec.add_assoc]

/-- A guest byte that is not in host memory is not in an access that fits. -/
theorem not_fits_of_backed {b : U64} (h : mode.Fits r w addr) (hb : mode.backed r b = none) :
    ¬ (b - addr).toNat < w.bytes := by
  intro hlt
  have hsome := backed_of_fits h hlt
  rw [BitVec.ofNat_toNat, BitVec.setWidth_eq, add_sub_cancel, hb] at hsome
  cases hsome

end FastmemMode

variable {κ ω : Type}

/-- Guest memory, where `ext` is what the embedder keeps itself. -/
def guestMemory (mode : FastmemMode) (ext : ω → Mem 64) (g : GuestState ω) : Mem 64 :=
  fun b => ((mode.backed g.region b).map g.host.memory).getD (ext g.world b)

section Memory

variable {mode : FastmemMode} (ext : ω → Mem 64) {g : GuestState ω} {w : Width} {addr : U64}

/-- Reading the host bytes of an access that fits. -/
theorem read_host (v : Nat) (h : mode.Fits g.region w addr) :
    read v g.host.memory (g.region.memBase + (addr - (mode.span g.region).1)) w.bytes =
      read v (guestMemory mode ext g) addr w.bytes := by
  refine read_congr fun i hi => ?_
  rw [guestMemory, FastmemMode.backed_of_fits h hi]
  rfl

/-- Writing the host bytes of an access that fits. -/
theorem write_host {v : Nat} (h : mode.Fits g.region w addr) (x : BitVec v) :
    guestMemory mode ext { g with host := { g.host with
        memory := write g.host.memory (g.region.memBase + (addr - (mode.span g.region).1)) w.bytes
          x } } =
      write (guestMemory mode ext g) addr w.bytes x := by
  funext b
  simp only [guestMemory, write]
  cases hb : mode.backed g.region b with
  | none =>
    rw [if_neg (FastmemMode.not_fits_of_backed h hb)]
    rfl
  | some a =>
    rw [FastmemMode.backed] at hb
    split at hb
    · cases hb
      have hsub : g.region.memBase + (b - (mode.span g.region).1) -
          (g.region.memBase + (addr - (mode.span g.region).1)) = b - addr := by
        rw [add_sub_add_left_eq_sub, sub_sub_sub_cancel_right]
      simp only [Option.map_some, Option.getD_some, write, hsub]
    · cases hb

/-- A read-modify-write on the host bytes. -/
theorem rmw_host {op : AtomicOp} {operand expected : U128} (h : mode.Fits g.region w addr) :
    let r := rmw op w (g.region.memBase + (addr - (mode.span g.region).1)) operand expected
      g.host.memory
    (guestMemory mode ext { g with host := { g.host with memory := r.1 } }, r.2) =
      rmw op w addr operand expected (guestMemory mode ext g) := by
  simp only [rmw, read_host ext 128 h]
  cases op.apply w.size (read 128 (guestMemory mode ext g) addr w.bytes) operand expected with
  | none => rfl
  | some new => exact congrArg (·, read 128 (guestMemory mode ext g) addr w.bytes) (write_host ext h new)

end Memory

theorem Width.div_mul {w elem : Width} (h : elem.bytes < w.bytes) :
    w.bytes / elem.bytes * elem.bytes = w.bytes := by
  revert h
  cases w <;> cases elem <;> decide

theorem Width.range_ne_nil {w elem : Width} (h : elem.bytes < w.bytes) :
    List.range (w.bytes / elem.bytes) ≠ [] := by
  rw [Ne, List.range_eq_nil]
  exact (Nat.div_pos h.le elem.bytes_pos).ne'

theorem setIoBytes_low (w : Width) (value : U128) (g : GuestState ω) :
    (setIoBytes w value g).ioValue.setWidth (8 * w.bytes) = value.setWidth (8 * w.bytes) := by
  refine BitVec.eq_of_getLsbD_eq fun i hi => ?_
  have hlt := w.bits_le
  simp only [setIoBytes, BitVec.getLsbD_setWidth, BitVec.getLsbD_or, BitVec.getLsbD_shiftLeft,
    getLsbD_low, hi, decide_true, Bool.not_true, Bool.and_false, Bool.false_and, Bool.false_or,
    Bool.and_true, Bool.true_and]
  rw [decide_eq_true (by omega : i < 128), Bool.true_and]

/-- The expected value matters to a compare-and-swap only. -/
theorem rmw_expected {op : AtomicOp} (hop : op ≠ .cas) (w : Width) (a : U64)
    (operand expected expected' : U128) (m : SharedMemory) :
    rmw op w a operand expected m = rmw op w a operand expected' m := by
  rw [rmw_eq hop, rmw_eq hop]

/-! ## Callbacks on the same memory -/

/-- The callbacks implement the guest memory: none faults, a read returns what is there, a write
stores it, and an atomic does what `apply` says. -/
structure Implements (mode : FastmemMode) (cb : Callbacks ω) (ext : ω → Mem 64) : Prop where
  fault : ∀ c g, (cb c g).fault = none
  region : ∀ c g, (cb c g).state.region = g.region
  read : ∀ {w : Width} {pc addr : U64} {f : U8} {g : GuestState ω},
    guestMemory mode ext (cb ⟨.read, pc, addr, w.size, f⟩ g).state = guestMemory mode ext g ∧
      low w.bytes (cb ⟨.read, pc, addr, w.size, f⟩ g).state.ioValue =
        ModularMemory.read 128 (guestMemory mode ext g) addr w.bytes
  write : ∀ {w : Width} {pc addr : U64} {f : U8} {g : GuestState ω},
    guestMemory mode ext (cb ⟨.write, pc, addr, w.size, f⟩ g).state =
      ModularMemory.write (guestMemory mode ext g) addr w.bytes g.ioValue
  atomic : ∀ {op : AtomicOp} {w : Width} {pc addr : U64} {f : U8} {g : GuestState ω},
    (guestMemory mode ext (cb ⟨.atomic op, pc, addr, w.size, f⟩ g).state,
      low w.bytes (cb ⟨.atomic op, pc, addr, w.size, f⟩ g).state.ioValue) =
        rmw op w addr g.ioValue g.atomicExpected (guestMemory mode ext g)

/-- Of the callbacks, the atomic one does. -/
def ServesAtomics (mode : FastmemMode) (cb : Callbacks ω) (ext : ω → Mem 64) : Prop :=
  ∀ {op : AtomicOp} {w : Width} {pc addr : U64} {f : U8} {g : GuestState ω},
    (guestMemory mode ext (cb ⟨.atomic op, pc, addr, w.size, f⟩ g).state,
      low w.bytes (cb ⟨.atomic op, pc, addr, w.size, f⟩ g).state.ioValue) =
        rmw op w addr g.ioValue g.atomicExpected (guestMemory mode ext g)

theorem Implements.servesAtomics {mode : FastmemMode} {cb : Callbacks ω} {ext : ω → Mem 64}
    (himpl : Implements mode cb ext) : ServesAtomics mode cb ext := himpl.atomic

/-- The guards put the host address at the offset of the guest address in the span. -/
theorem guard_eq {mode : FastmemMode} {perm : U8} {r : FastRegion} {w : Width} {addr a : U64}
    (h : emitFastmemGuard mode perm r w addr = some a) :
    a = r.memBase + (addr - (mode.span r).1) := by
  cases mode with
  | off => cases h
  | window =>
    rw [window_guard] at h
    split at h
    · exact (Option.some.inj h).symm
    · cases h
  | pageTable bits =>
    rw [pageTable_guard] at h
    split at h
    · exact (Option.some.inj h).symm.trans (by rw [FastmemMode.span, sub_zero])
    · cases h
  | direct bits =>
    rw [direct_guard] at h
    split at h
    · exact (Option.some.inj h).symm.trans (by rw [FastmemMode.span, sub_zero])
    · cases h

/-- What a guard admits fits, but for a direct access at the end of the span. -/
theorem fits_of_guard {mode : FastmemMode} {perm : U8} {r : FastRegion} {w : Width} {addr a : U64}
    (h : emitFastmemGuard mode perm r w addr = some a)
    (hdirect : ∀ bits, mode = .direct bits → addr.toNat + w.bytes ≤ 2 ^ bits.val) :
    mode.Fits r w addr := by
  cases mode with
  | off => cases h
  | window =>
    rw [window_guard] at h
    split at h
    case isTrue hle =>
      rw [FastmemMode.Fits, FastmemMode.span, BitVec.toNat_sub_of_le (BitVec.le_def.mpr hle.1)]
      exact hle.2
    case isFalse => cases h
  | pageTable bits =>
    rw [pageTable_guard] at h
    split at h
    case isTrue hle =>
      rw [FastmemMode.Fits, FastmemMode.span, sub_zero]
      exact hle.2.1
    case isFalse => cases h
  | direct bits =>
    rw [FastmemMode.Fits, FastmemMode.span, sub_zero]
    exact hdirect bits rfl

theorem inlineHost_guard {mode : FastmemMode} {writes : Bool} {w : Width} {addr a : U64}
    {g : GuestState ω} (h : inlineHost mode writes w addr g = some a) :
    emitFastmemGuard mode (if writes then pageDirectWrite else pageDirectRead) g.region w addr =
      some a := by
  rw [inlineHost] at h
  split at h
  case h_1 => cases h
  case h_2 a' heq =>
    split at h
    · cases h
    · rw [heq, h]

theorem inlineHost_eq {mode : FastmemMode} {writes : Bool} {w : Width} {addr a : U64}
    {g : GuestState ω} (h : inlineHost mode writes w addr g = some a) :
    a = g.region.memBase + (addr - (mode.span g.region).1) := guard_eq (inlineHost_guard h)

section Callbacks

variable (cb : Callbacks ω)

/-- An element that is not skipped is called for. -/
theorem loadElement_of_eq (elem : Width) (pc addr : U64) {s : GuestContext κ ω × U128}
    (h : s.1.memFault = 0) (k : Nat) :
    loadElement cb elem pc addr s k =
      (callout cb .read (addr + BitVec.ofNat 64 (k * elem.bytes)) elem
          (reach .read (addr + BitVec.ofNat 64 (k * elem.bytes)) elem s.1),
        s.2 ||| low elem.bytes (callout cb .read (addr + BitVec.ofNat 64 (k * elem.bytes)) elem
          (reach .read (addr + BitVec.ofNat 64 (k * elem.bytes)) elem s.1)).rest.state.ioValue
            <<< (8 * (k * elem.bytes))) :=
  if_neg (not_not.mpr h)

variable {cb} {mode : FastmemMode} {ext : ω → Mem 64} (himpl : Implements mode cb ext)
include himpl

theorem callout_memFault_of (kind : CallbackKind) (addr : U64) (w : Width)
    {ctx : GuestContext κ ω} (h : ctx.memFault = 0) : (callout cb kind addr w ctx).memFault = 0 :=
  (callout_memFault cb (himpl.fault _ _)).trans h

theorem callout_read (addr : U64) (w : Width) (ctx : GuestContext κ ω) :
    guestMemory mode ext (callout cb .read addr w ctx).rest.state =
        guestMemory mode ext ctx.rest.state ∧
      low w.bytes (callout cb .read addr w ctx).rest.state.ioValue =
        read 128 (guestMemory mode ext ctx.rest.state) addr w.bytes := by
  rw [callout_state]
  exact himpl.read

theorem callout_write (addr : U64) (w : Width) (ctx : GuestContext κ ω) :
    guestMemory mode ext (callout cb .write addr w ctx).rest.state =
      write (guestMemory mode ext ctx.rest.state) addr w.bytes ctx.rest.state.ioValue := by
  rw [callout_state]
  exact himpl.write

/-- The elements read so far are the low bytes of the whole. -/
theorem loadElements_spec (elem : Width) (pc addr : U64) {ctx : GuestContext κ ω}
    (h : ctx.memFault = 0) (n : Nat) :
    let r := (List.range n).foldl (loadElement cb elem pc addr) (ctx, 0)
    r.1.memFault = 0 ∧ guestMemory mode ext r.1.rest.state = guestMemory mode ext ctx.rest.state ∧
      r.2 = read 128 (guestMemory mode ext ctx.rest.state) addr (n * elem.bytes) := by
  induction n with
  | zero => exact ⟨h, rfl, by rw [Nat.zero_mul]; rfl⟩
  | succ n ih =>
    rw [List.range_succ, List.foldl_append, List.foldl_cons, List.foldl_nil]
    generalize (List.range n).foldl (loadElement cb elem pc addr) (ctx, 0) = s at ih ⊢
    obtain ⟨hfault, hmemory, hdata⟩ := ih
    have hread := callout_read himpl (addr + BitVec.ofNat 64 (n * elem.bytes)) elem
      (reach .read (addr + BitVec.ofNat 64 (n * elem.bytes)) elem s.1)
    have hkept : guestMemory mode ext (reach .read (addr + BitVec.ofNat 64 (n * elem.bytes)) elem
        s.1).rest.state = guestMemory mode ext ctx.rest.state := hmemory
    rw [loadElement_of_eq cb elem pc addr hfault]
    refine ⟨callout_memFault_of himpl _ _ _ hfault, hread.1.trans hkept, ?_⟩
    rw [hread.2, hkept, hdata, Nat.succ_mul n, read_add]

/-- The elements written so far are the low bytes of the whole. -/
theorem storeElements_spec (elem : Width) (pc addr : U64) (value : U128) {ctx : GuestContext κ ω}
    (h : ctx.memFault = 0) (n : Nat) (hn : n * elem.bytes ≤ 2 ^ 64) :
    let r := (List.range n).foldl (storeElement cb elem pc addr value) ctx
    r.memFault = 0 ∧ guestMemory mode ext r.rest.state =
      write (guestMemory mode ext ctx.rest.state) addr (n * elem.bytes) value := by
  induction n with
  | zero =>
    refine ⟨h, ?_⟩
    funext b
    rw [Nat.zero_mul, write, if_neg (Nat.not_lt_zero _)]
    rfl
  | succ n ih =>
    rw [Nat.succ_mul n] at hn
    rw [List.range_succ, List.foldl_append, List.foldl_cons, List.foldl_nil]
    obtain ⟨hfault, hmemory⟩ := ih (by omega)
    generalize (List.range n).foldl (storeElement cb elem pc addr value) ctx = s at hfault hmemory ⊢
    have hreach : (reach .write (addr + BitVec.ofNat 64 (n * elem.bytes)) elem s).memFault = 0 :=
      hfault
    rw [storeElement, emitSkipIfFaulted_of_eq hreach]
    refine ⟨callout_memFault_of himpl _ _ _ hfault, ?_⟩
    have hkept : guestMemory mode ext ((reach .write (addr + BitVec.ofNat 64 (n * elem.bytes)) elem
        s).withState (setIoValue (low elem.bytes (value >>> (8 * (n * elem.bytes)))))).rest.state =
        guestMemory mode ext s.rest.state := rfl
    rw [callout_write himpl, hkept, hmemory, Nat.succ_mul n, ← write_add hn]
    exact write_low

theorem emitLoadSlowPath_spec (w elem : Width) (pc addr : U64) {ctx : GuestContext κ ω}
    (h : ctx.memFault = 0) :
    let r := emitLoadSlowPath cb w elem pc addr ctx
    guestMemory mode ext r.1.rest.state = guestMemory mode ext ctx.rest.state ∧
      r.2 = read 128 (guestMemory mode ext ctx.rest.state) addr w.bytes := by
  rw [emitLoadSlowPath]
  split
  case isTrue hlt =>
    obtain ⟨-, hmemory, hdata⟩ := loadElements_spec himpl elem pc addr
      (show (atPc pc ctx).memFault = 0 from h) (w.bytes / elem.bytes)
    rw [Width.div_mul hlt] at hdata
    exact ⟨hmemory, hdata⟩
  case isFalse =>
    have hreach : (reach .read addr w (atPc pc ctx)).memFault = 0 := h
    rw [emitSkipIfFaulted_of_eq hreach]
    exact callout_read himpl addr w _

theorem emitStoreSlowPath_spec (w elem : Width) (pc addr : U64) (value : U128)
    {ctx : GuestContext κ ω} (h : ctx.memFault = 0) :
    guestMemory mode ext (emitStoreSlowPath cb w elem pc addr value ctx).rest.state =
      write (guestMemory mode ext ctx.rest.state) addr w.bytes value := by
  rw [emitStoreSlowPath]
  split
  case isTrue hlt =>
    have hn : w.bytes / elem.bytes * elem.bytes ≤ 2 ^ 64 := by
      rw [Width.div_mul hlt]
      exact w.bytes_le
    obtain ⟨-, hmemory⟩ := storeElements_spec himpl elem pc addr value
      (show (atPc pc ctx).memFault = 0 from h) (w.bytes / elem.bytes) hn
    rw [Width.div_mul hlt] at hmemory
    exact hmemory
  case isFalse =>
    have hreach : (reach .write addr w (atPc pc ctx)).memFault = 0 := h
    rw [emitSkipIfFaulted_of_eq hreach, callout_write himpl]
    exact write_congr (setIoBytes_low w value _)

/-- An inline load reads guest memory, if it stays in the span. -/
theorem emitLoad_spec (w elem : Width) (pc addr : U64) {ctx : GuestContext κ ω}
    (h : ctx.memFault = 0)
    (hfits : ∀ a, inlineHost mode false w addr ctx.rest.state = some a →
      mode.Fits ctx.rest.state.region w addr) :
    let r := emitLoad cb mode w elem pc addr ctx
    guestMemory mode ext r.1.rest.state = guestMemory mode ext ctx.rest.state ∧
      r.2 = read 128 (guestMemory mode ext ctx.rest.state) addr w.bytes := by
  rw [emitLoad]
  cases ha : inlineHost mode false w addr ctx.rest.state with
  | none => exact emitLoadSlowPath_spec himpl w elem pc addr h
  | some a =>
    refine ⟨rfl, ?_⟩
    have hhost := inlineHost_eq ha
    simp only [hhost]
    exact read_host ext 128 (hfits a ha)

theorem emitStore_spec (w elem : Width) (pc addr : U64) (value : U128) {ctx : GuestContext κ ω}
    (h : ctx.memFault = 0)
    (hfits : ∀ a, inlineHost mode true w addr ctx.rest.state = some a →
      mode.Fits ctx.rest.state.region w addr) :
    guestMemory mode ext (emitStore cb mode w elem pc addr value ctx).rest.state =
      write (guestMemory mode ext ctx.rest.state) addr w.bytes value := by
  rw [emitStore]
  cases ha : inlineHost mode true w addr ctx.rest.state with
  | none => exact emitStoreSlowPath_spec himpl w elem pc addr value h
  | some a =>
    simp only [inlineHost_eq ha]
    exact write_host ext (hfits a ha) value

end Callbacks

section Atomics

variable {κ ω : Type} {cb : Callbacks ω} {mode : FastmemMode} {ext : ω → Mem 64}
  (hserves : ServesAtomics mode cb ext)
include hserves

theorem callout_atomic (op : AtomicOp) (addr : U64) (w : Width) (ctx : GuestContext κ ω) :
    (guestMemory mode ext (callout cb (.atomic op) addr w ctx).rest.state,
      low w.bytes (callout cb (.atomic op) addr w ctx).rest.state.ioValue) =
        rmw op w addr ctx.rest.state.ioValue ctx.rest.state.atomicExpected
          (guestMemory mode ext ctx.rest.state) := by
  rw [callout_state]
  exact hserves

theorem atomicSlowPath_spec (op : AtomicOp) {w : Width} (hw : w ≠ .b16) (pc addr arg3 r11 : U64)
    (ctx : GuestContext κ ω) :
    let r := atomicSlowPath cb op w pc addr arg3 r11 ctx
    (guestMemory mode ext r.1.rest.state, r.2.setWidth 128) =
      rmw op w addr (arg3.setWidth 128) (r11.setWidth 128)
        (guestMemory mode ext ctx.rest.state) := by
  have hle : 8 * w.bytes ≤ 64 := by
    cases w <;> first | decide | exact absurd rfl hw
  simp only [atomicSlowPath, atomicCall, setWidth_low hle]
  rw [callout_atomic hserves]
  by_cases hop : op = .cas
  · rw [if_pos hop]
    rfl
  · rw [if_neg hop]
    exact rmw_expected hop ..

end Atomics

end Rustarmic
