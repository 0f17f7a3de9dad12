import Rustarmic.Backend.InlineAtomic

/-!
# Guest atomics on host memory and through callbacks

What the embedder's side of a guest atomic does.  On a host pointer the operation is one native
integer atomic, a loop around `cmpxchg16b`, or a read, `apply` and a write under a lock; the default
callback reads and writes through the other two callbacks.

* `hostAtomic`, `defaultMemAtomic` — the two entry points.
* `hostAtomic_eq`, `defaultMemAtomic_serves` — each is the read-modify-write `rmw`.

An embedder that gives no callback for atomics gets the default one, and one that has the guest's
memory at a host pointer calls `host_atomic`.  Whichever is taken, the memory afterwards and the
value that comes back have to be the same, since the guest cannot know.  The reference is `rmw`, one
step on a memory, with `AtomicOp.apply` saying what is stored.

* **Native atomics** are on integers of the width, and the operands come as 128 bits, so that a
  signed maximum of bytes has to look at bit 7 and not at what the caller has above it.
* **The loop** begins with a value that has been read in two halves and may be torn.  That costs at
  most one round: a `cmpxchg16b` which fails reports what it has seen, and the next one expects
  that.
* **The lock** keeps other threads of this function out, and is all that there is for 16 bytes
  without `cmpxchg16b`.

Interference by other threads between the rounds is not in this file; it is considered for the
inline accesses, in `Backend.InlineAtomic`.
-/

set_option autoImplicit false

namespace Rustarmic

open ModularMemory

namespace AtomicOp

def fromU8 (v : U8) : Option AtomicOp :=
  match v.toNat with
  | 0 => some add
  | 1 => some clr
  | 2 => some eor
  | 3 => some set
  | 4 => some smax
  | 5 => some smin
  | 6 => some umax
  | 7 => some umin
  | 8 => some swp
  | 9 => some cas
  | _ => none

/-- `op as u8`. -/
def toU8 : AtomicOp → U8
  | add => 0
  | clr => 1
  | eor => 2
  | set => 3
  | smax => 4
  | smin => 5
  | umax => 6
  | umin => 7
  | swp => 8
  | cas => 9

theorem fromU8_toU8 (op : AtomicOp) : fromU8 op.toU8 = some op := by
  cases op <;> rfl

end AtomicOp

/-! ## On a host pointer -/

/-- What a native atomic of `bits` bits stores; a failed compare-exchange stores nothing. -/
def rmwStored {bits : Nat} (op : AtomicOp) (old v expected : BitVec bits) : Option (BitVec bits) :=
  match op with
  | .add => some (old + v)
  | .clr => some (old &&& ~~~v)
  | .eor => some (old ^^^ v)
  | .set => some (old ||| v)
  | .umax => some (if old.ult v then v else old)
  | .umin => some (if v.ult old then v else old)
  | .smax => some (if old.slt v then v else old)
  | .smin => some (if v.slt old then v else old)
  | .swp => some v
  | .cas => if old = expected then some v else none

/-- A native atomic on an integer of `bytes` bytes. -/
def rmwInt (bytes : Nat) (m : Mem 64) (ptr : U64) (op : AtomicOp) (operand expected : U128) :
    Mem 64 × U128 :=
  let old := read (8 * bytes) m ptr bytes
  match rmwStored op old (operand.setWidth _) (expected.setWidth _) with
  | some new => (write m ptr bytes new, old.setWidth 128)
  | none => (m, old.setWidth 128)

/-- One `lock cmpxchg16b`: memory, success, and the value observed. -/
def cmpxchg16b (m : Mem 64) (ptr : U64) (expected new : U128) : Mem 64 × Bool × U128 :=
  let seen := read 128 m ptr 16
  if seen = expected then (write m ptr 16 new, true, seen) else (m, false, seen)

/-- The loop around `cmpxchg16b`, for a number of rounds; `cur` is the value it expects. -/
def rmw128Loop (ptr : U64) (op : AtomicOp) (operand expected : U128) :
    Nat → Mem 64 → U128 → Option (Mem 64 × U128)
  | 0, _, _ => none
  | rounds + 1, m, cur =>
    match op.apply 16 cur operand expected with
    | none =>
      let (m, ok, seen) := cmpxchg16b m ptr cur cur
      if ok then some (m, cur) else rmw128Loop ptr op operand expected rounds m seen
    | some new =>
      let (m, ok, seen) := cmpxchg16b m ptr cur new
      if ok then some (m, cur) else rmw128Loop ptr op operand expected rounds m seen

/-- The lock fallback: a read, `apply`, and a write. -/
def lockedRmw (m : Mem 64) (ptr : U64) (size : U8) (op : AtomicOp) (operand expected : U128) :
    Mem 64 × U128 :=
  let n := min size.toNat 16
  let old := read 128 m ptr n
  match op.apply size old operand expected with
  | some new => (write m ptr n new, old)
  | none => (m, old)

/-- `host_atomic`.  The host may have `cmpxchg16b`; the loop around it starts from a plain read,
which may be torn, so `torn` is any value. -/
def hostAtomic (hasCmpxchg16b : Bool) (rounds : Nat) (torn : U128) (m : Mem 64) (ptr : U64)
    (size : U8) (op : AtomicOp) (operand expected : U128) : Option (Mem 64 × U128) :=
  let aligned := ptr &&& (BitVec.ofNat 64 (max size.toNat 1) - 1#64) = 0#64
  let locked := some (lockedRmw m ptr size op operand expected)
  if aligned then
    match size.toNat with
    | 1 => some (rmwInt 1 m ptr op operand expected)
    | 2 => some (rmwInt 2 m ptr op operand expected)
    | 4 => some (rmwInt 4 m ptr op operand expected)
    | 8 => some (rmwInt 8 m ptr op operand expected)
    | 16 => if hasCmpxchg16b then rmw128Loop ptr op operand expected rounds m torn else locked
    | _ => locked
  else locked

/-! ## Through the callbacks -/

/-- The context as an atomic callback uses it; `world` is everything else. -/
structure AtomicContext (ω : Type) where
  ioValue : U64 × U64
  atomicExpected : U64 × U64
  memFault : U8
  world : ω

def to128 (v : U64 × U64) : U128 := v.1.setWidth 128 ||| (v.2.setWidth 128 <<< 64)

/-- The two halves of a value. -/
def halves (v : U128) : U64 × U64 := (v.setWidth 64, (v >>> 64).setWidth 64)

/-- `mem_read` and `mem_write`. -/
structure PlainCallbacks (ω : Type) where
  memRead : AtomicContext ω → U64 → U8 → AtomicContext ω
  memWrite : AtomicContext ω → U64 → U8 → AtomicContext ω

/-- `default_mem_atomic`. -/
def defaultMemAtomic {ω : Type} (cb : PlainCallbacks ω) (ctx : AtomicContext ω) (addr : U64)
    (size op : U8) : AtomicContext ω :=
  let operand := ctx.ioValue
  let expected := ctx.atomicExpected
  let ctx := cb.memRead ctx addr size
  let old := ctx.ioValue
  let ctx :=
    if ctx.memFault = 0 then
      let op := (AtomicOp.fromU8 op).getD .cas
      match op.apply size (to128 old) (to128 operand) (to128 expected) with
      | some new => cb.memWrite { ctx with ioValue := halves new } addr size
      | none => ctx
    else ctx
  { ctx with ioValue := halves (to128 old &&& AtomicOp.mask size) }

/-! ## One read-modify-write -/

theorem write_read (m : Mem 64) (a : U64) (n : Nat) {v : Nat} (h : 8 * n ≤ v) :
    write m a n (read v m a n) = m := by
  funext b
  rw [write]
  by_cases hb : (b - a).toNat < n
  · rw [if_pos hb]
    refine BitVec.eq_of_getLsbD_eq fun i hi => ?_
    have hdiv : (8 * (b - a).toNat + i) / 8 = (b - a).toNat := by omega
    have hmod : (8 * (b - a).toNat + i) % 8 = i := by omega
    have hv : 8 * (b - a).toNat + i < v := by omega
    have hn : 8 * (b - a).toNat + i < 8 * n := by omega
    have hback : a + (b - a) = b := by rw [BitVec.add_comm, BitVec.sub_add_cancel]
    rw [BitVec.getLsbD_extractLsb', getLsbD_read, hdiv, hmod, decide_eq_true hi, decide_eq_true hv,
      decide_eq_true hn, BitVec.ofNat_toNat, BitVec.setWidth_eq, hback]
    rfl
  · rw [if_neg hb]

theorem rmwStored_eq {bits : Nat} {op : AtomicOp} (hop : op ≠ .cas) (old v expected : BitVec bits) :
    rmwStored op old v expected = some (op.onBits old v) := by
  cases op
  case cas => exact absurd rfl hop
  all_goals rfl

/-- **A native atomic is the read-modify-write of `apply`.** -/
theorem rmwInt_eq (w : Width) (m : Mem 64) (ptr : U64) (op : AtomicOp) (operand expected : U128) :
    rmwInt w.bytes m ptr op operand expected = rmw op w ptr operand expected m := by
  have hle := w.bits_le
  have hold : (read (8 * w.bytes) m ptr w.bytes).setWidth 128 = read 128 m ptr w.bytes :=
    setWidth_read (by omega)
  by_cases hop : op = .cas
  · subst hop
    have hiff : read (8 * w.bytes) m ptr w.bytes = expected.setWidth (8 * w.bytes) ↔
        read 128 m ptr w.bytes = low w.bytes expected := by
      rw [← hold, low]
      constructor
      · intro h
        rw [h]
      · intro h
        have hcut := congrArg (BitVec.setWidth (8 * w.bytes)) h
        rwa [BitVec.setWidth_setWidth_of_le _ hle, BitVec.setWidth_setWidth_of_le _ hle,
          BitVec.setWidth_eq, BitVec.setWidth_eq] at hcut
    have hstore : write m ptr w.bytes (operand.setWidth (8 * w.bytes)) =
        write m ptr w.bytes (low w.bytes operand) :=
      write_congr (by rw [BitVec.setWidth_eq, w.setWidth_low])
    rw [rmw_cas, rmwInt, rmwStored]
    by_cases h : read (8 * w.bytes) m ptr w.bytes = expected.setWidth (8 * w.bytes)
    · rw [if_pos h, if_pos (hiff.mp h), hold, ← hstore]
    · rw [if_neg h, if_neg fun h' => h (hiff.mpr h'), hold]
  · rw [rmw_eq hop, rmwInt, rmwStored_eq hop, hold]

theorem lockedRmw_eq (w : Width) (m : Mem 64) (ptr : U64) (op : AtomicOp) (operand expected : U128) :
    lockedRmw m ptr w.size op operand expected = rmw op w ptr operand expected m := by
  have hmin : min w.size.toNat 16 = w.bytes := by
    cases w <;> rfl
  cases hnew : op.apply w.size (read 128 m ptr w.bytes) operand expected with
  | none => simp only [lockedRmw, rmw, hmin, hnew]
  | some new => simp only [lockedRmw, rmw, hmin, hnew]

/-- The loop stops as soon as it expects what is in memory. -/
theorem rmw128Loop_of_eq (m : Mem 64) (ptr : U64) (op : AtomicOp) (operand expected : U128)
    (rounds : Nat) {cur : U128} (h : read 128 m ptr 16 = cur) :
    rmw128Loop ptr op operand expected (rounds + 1) m cur =
      some (rmw op .b16 ptr operand expected m) := by
  have hread : read 128 m ptr Width.b16.bytes = cur := h
  have hsize : Width.b16.size = 16 := rfl
  rw [rmw128Loop, rmw, hread, hsize]
  cases op.apply 16 cur operand expected with
  | none =>
    have hsame := write_read m ptr 16 (v := 128) (by decide)
    rw [h] at hsame
    simp only [cmpxchg16b, h, if_true, hsame]
  | some new =>
    simp only [cmpxchg16b, h, if_true]
    rfl

/-- From a torn value the first round finds the value in memory. -/
theorem rmw128Loop_eq (m : Mem 64) (ptr : U64) (op : AtomicOp) (operand expected : U128)
    (rounds : Nat) (cur : U128) :
    rmw128Loop ptr op operand expected (rounds + 2) m cur =
      some (rmw op .b16 ptr operand expected m) := by
  by_cases h : read 128 m ptr 16 = cur
  · exact rmw128Loop_of_eq m ptr op operand expected (rounds + 1) h
  · have hnext := rmw128Loop_of_eq m ptr op operand expected rounds rfl
    rw [rmw128Loop]
    cases op.apply 16 cur operand expected with
    | none => simpa only [cmpxchg16b, h, if_false, Bool.false_eq_true] using hnext
    | some new => simpa only [cmpxchg16b, h, if_false, Bool.false_eq_true] using hnext

/-- **A guest atomic on host memory is one read-modify-write**, on every path. -/
theorem hostAtomic_eq (w : Width) (hasCmpxchg16b : Bool) (rounds : Nat) (torn : U128) (m : Mem 64)
    (ptr : U64) (op : AtomicOp) (operand expected : U128) :
    hostAtomic hasCmpxchg16b (rounds + 2) torn m ptr w.size op operand expected =
      some (rmw op w ptr operand expected m) := by
  rw [hostAtomic, lockedRmw_eq]
  split
  · have hint := rmwInt_eq w m ptr op operand expected
    cases w with
    | b16 =>
      cases hasCmpxchg16b
      · rfl
      · exact rmw128Loop_eq m ptr op operand expected rounds torn
    | _ => exact congrArg some hint
  · rfl

/-! ## The default callback -/

theorem to128_halves (v : U128) : to128 (halves v) = v := by
  refine BitVec.eq_of_getLsbD_eq fun i hi => ?_
  rw [to128, halves, BitVec.getLsbD_or, BitVec.getLsbD_setWidth, BitVec.getLsbD_setWidth,
    BitVec.getLsbD_shiftLeft, BitVec.getLsbD_setWidth, BitVec.getLsbD_setWidth,
    BitVec.getLsbD_ushiftRight, decide_eq_true hi]
  by_cases h : i < 64
  · simp [h]
  · have hsub : 64 + (i - 64) = i := by omega
    have hlt : i - 64 < 128 := by omega
    have hlt' : i - 64 < 64 := by omega
    rw [hsub]
    simp [h, hlt, hlt']

/-- The callbacks implement a memory, and the read does not fault. -/
structure PlainCallbacks.Serves {ω : Type} (cb : PlainCallbacks ω) (memory : ω → Mem 64)
    (ctx : AtomicContext ω) (addr : U64) (w : Width) : Prop where
  /-- The read does not fault and leaves the memory as it is. -/
  noFault : (cb.memRead ctx addr w.size).memFault = 0
  kept : memory (cb.memRead ctx addr w.size).world = memory ctx.world
  /-- The low bytes of the value are the ones in memory; nothing is known of the others. -/
  read : low w.bytes (to128 (cb.memRead ctx addr w.size).ioValue) =
    ModularMemory.read 128 (memory ctx.world) addr w.bytes
  write : ∀ ctx : AtomicContext ω, memory (cb.memWrite ctx addr w.size).world =
    ModularMemory.write (memory ctx.world) addr w.bytes (to128 ctx.ioValue)

/-- The operation sees the low bytes of the old value only. -/
theorem apply_low (op : AtomicOp) (w : Width) (old operand expected : U128) :
    op.apply w.size (low w.bytes old) operand expected = op.apply w.size old operand expected := by
  simp only [AtomicOp.apply, w.and_mask, low_low]

theorem defaultMemAtomic_serves {ω : Type} {cb : PlainCallbacks ω} {memory : ω → Mem 64}
    {ctx : AtomicContext ω} {addr : U64} {w : Width} (h : cb.Serves memory ctx addr w)
    (op : AtomicOp) :
    (memory (defaultMemAtomic cb ctx addr w.size op.toU8).world,
      to128 (defaultMemAtomic cb ctx addr w.size op.toU8).ioValue) =
      rmw op w addr (to128 ctx.ioValue) (to128 ctx.atomicExpected) (memory ctx.world) := by
  have hop : (AtomicOp.fromU8 op.toU8).getD .cas = op := by rw [AtomicOp.fromU8_toU8]; rfl
  rw [defaultMemAtomic]
  dsimp only
  rw [if_pos h.noFault, hop, to128_halves, w.and_mask, h.read, rmw, ← h.read, apply_low]
  cases op.apply w.size (to128 (cb.memRead ctx addr w.size).ioValue) (to128 ctx.ioValue)
      (to128 ctx.atomicExpected) with
  | none =>
    dsimp only
    rw [h.kept]
  | some new =>
    dsimp only
    rw [h.write, h.kept, to128_halves]

/-- **The three ways of performing a guest atomic agree**: each leaves what `apply` prescribes and
returns the old value, zero-extended; and when the read faults nothing is written, whatever the
write callback would do. -/
theorem atomics_agree (w : Width) (op : AtomicOp) (m : Mem 64) (addr : U64)
    (operand expected : U128) :
    (∀ ptr, ∀ hasCmpxchg16b rounds torn,
      hostAtomic hasCmpxchg16b (rounds + 2) torn m ptr w.size op operand expected =
        some (rmw op w ptr operand expected m)) ∧
    (∀ (ω : Type) (cb : PlainCallbacks ω) (memory : ω → Mem 64) (ctx : AtomicContext ω),
      cb.Serves memory ctx addr w → memory ctx.world = m → to128 ctx.ioValue = operand →
      to128 ctx.atomicExpected = expected →
      (memory (defaultMemAtomic cb ctx addr w.size op.toU8).world,
        to128 (defaultMemAtomic cb ctx addr w.size op.toU8).ioValue) =
          rmw op w addr operand expected m) ∧
    ∀ (ω : Type) (cb : PlainCallbacks ω) (ctx : AtomicContext ω),
      (cb.memRead ctx addr w.size).memFault ≠ 0 →
      (defaultMemAtomic cb ctx addr w.size op.toU8).world = (cb.memRead ctx addr w.size).world ∧
      (defaultMemAtomic cb ctx addr w.size op.toU8).memFault =
        (cb.memRead ctx addr w.size).memFault := by
  refine ⟨fun ptr cx rounds torn => hostAtomic_eq w cx rounds torn m ptr op operand expected, ?_, ?_⟩
  · rintro ω cb memory ctx h rfl rfl rfl
    exact defaultMemAtomic_serves h op
  · intro ω cb ctx h
    rw [defaultMemAtomic]
    dsimp only
    rw [if_neg h]
    exact ⟨rfl, rfl⟩

/-- Callbacks over a memory, which fail at address 0. -/
def guardedMemory : PlainCallbacks (Mem 64) where
  memRead ctx addr size :=
    if addr = 0#64 then { ctx with memFault := 1 }
    else { ctx with ioValue := halves (read 128 ctx.world addr size.toNat) }
  memWrite ctx addr size :=
    { ctx with world := write ctx.world addr size.toNat (to128 ctx.ioValue) }

theorem guardedMemory_serves (w : Width) (ctx : AtomicContext (Mem 64)) {addr : U64}
    (ha : addr ≠ 0#64) (h : ctx.memFault = 0) : guardedMemory.Serves id ctx addr w := by
  have hsize : w.size.toNat = w.bytes := by
    cases w <;> rfl
  have hread : guardedMemory.memRead ctx addr w.size =
      { ctx with ioValue := halves (read 128 ctx.world addr w.bytes) } := by
    rw [← hsize]
    exact if_neg ha
  refine ⟨?_, ?_, ?_, fun ctx => ?_⟩
  · rw [hread]
    exact h
  · rw [hread]
  · rw [hread, to128_halves, low_read]
    rfl
  · rw [← hsize]
    rfl

/-- The greatest of 0x80 and, with a dirty upper byte, 1, as signed bytes; and a read that fails. -/
theorem atomics_agree_byte :
    (id (defaultMemAtomic guardedMemory ⟨(0x301#64, 0#64), (0#64, 0#64), 0, fun _ => 0x80#8⟩ 8#64
        Width.b1.size AtomicOp.smax.toU8).world,
      to128 (defaultMemAtomic guardedMemory ⟨(0x301#64, 0#64), (0#64, 0#64), 0, fun _ => 0x80#8⟩
        8#64 Width.b1.size AtomicOp.smax.toU8).ioValue) =
      rmw .smax .b1 8#64 0x301#128 0#128 (fun _ => 0x80#8) ∧
    (defaultMemAtomic guardedMemory ⟨(1#64, 0#64), (0#64, 0#64), 0, fun _ => 0x80#8⟩ 0#64
      Width.b1.size AtomicOp.smax.toU8).world = fun _ => 0x80#8 :=
  ⟨(atomics_agree .b1 .smax (fun _ => 0x80#8) 8#64 0x301#128 0#128).2.1 (Mem 64) guardedMemory id
    ⟨(0x301#64, 0#64), (0#64, 0#64), 0, fun _ => 0x80#8⟩
    (guardedMemory_serves .b1 _ (by decide) rfl) rfl (by decide) (by decide),
   ((atomics_agree .b1 .smax (fun _ => 0x80#8) 0#64 1#128 0#128).2.2 (Mem 64) guardedMemory
    ⟨(1#64, 0#64), (0#64, 0#64), 0, fun _ => 0x80#8⟩ (by decide)).1⟩

end Rustarmic
