import Rustarmic.Backend.AtomicNodes
import Rustarmic.Frontend.IntegerEmitter
import Rustarmic.Frontend.Table
import Rustarmic.Guest.Atomics

/-!
# Translating the LSE atomics

`LDADD` and its siblings, `SWP`, `CAS` and `CASP`, with every ordering and every size.

* `LseAtomic.translate` — the translator.
* `LseAtomic.decode` — the instruction that the architecture has for an encoding.
* `LseAtomic.request`, `LseAtomic.exec_eq` — its access, whose effect is the instruction.
* `LseAtomic.lse_atomic_exact` — the emitted code is the instruction, whichever way the access
  takes.

An atomic instruction is one access to memory between two parts that only concern registers:
operands are read, the access is made, and what was loaded is written back.  Its node is the one
place in a block where another thread may come in, so the proof is split there.

* **The access.**  `request` is the access that the code makes, with its operands as the backend
  passes them: 64-bit registers of which the low bytes count.  `exec_eq` says that the effect of
  this access and of the writing back is `Guest.Atomic.exec`.  It does not speak of code.
* **Which way it goes.**  An access is made inline or by the callback, depending on the fastmem
  mode, the page and the alignment.  `Backend.AtomicNodes` says of each way that it leaves what the
  access is for; here only the conditions under which somebody serves it are assumed (`Served`).
* **Registers.**  A pair starts at an even register, so that its second one is the next, and 31 as
  the second register of the pair at 30 is the zero register.  An odd one is rejected by the
  translator and reserved in the manual.

Ordering suffixes have no effect here: a `lock`-prefixed instruction is a full barrier on the host,
and the memory of the model is one.
-/

set_option autoImplicit false

namespace Rustarmic

open Emitting Interp ModularMemory

/-! ## The translator -/

inductive AtomicKind where
  | add | clr | eor | set | smax | smin | umax | umin | swp | cas
  deriving DecidableEq, Repr

/-- The ordering in a mnemonic: none, `A`, `L` or `AL`. -/
inductive AtomicOrder where
  | plain | a | l | al
  deriving DecidableEq, Repr

/-- The size in a mnemonic: none, `B` or `H`. -/
inductive AtomicSuffix where
  | plain | b | h
  deriving DecidableEq, Repr

/-- The decoder's class LSE_ATOMIC: `LDADD` and so on with every ordering and size, and `CASP` with
every ordering.  What else it holds is not translated. -/
inductive LseAtomic where
  | single (kind : AtomicKind) (order : AtomicOrder) (suffix : AtomicSuffix) (i : U32)
  | casp (order : AtomicOrder) (i : U32)
  | other (i : U32)

/-- The operation of a read-modify-write; a compare-and-swap has nodes of its own. -/
def AtomicKind.op : AtomicKind → AtomicOp
  | add => .add
  | clr => .clr
  | eor => .eor
  | set => .set
  | smax => .smax
  | smin => .smin
  | umax => .umax
  | umin => .umin
  | swp => .swp
  | cas => .cas

/-- The column of the dispatch table; 0 stands for the size in the word. -/
def AtomicSuffix.fixedBytes : AtomicSuffix → Nat
  | plain => 0
  | b => 1
  | h => 2

namespace IrEmitter

def vecExtractHi64 (em : IrEmitter) (q : ValueRef) : Emit ValueRef :=
  em.push ((Armlet.new .vecExtractHi64 .u64).withArgs [q])

end IrEmitter

namespace LseAtomic

/-- The node for accesses of `bytes` bytes. -/
def sized (base : Op) (bytes : Nat) : Op :=
  match base, bytes with
  | .atomicCas8, 1 => .atomicCas8
  | .atomicCas8, 2 => .atomicCas16
  | .atomicCas8, 4 => .atomicCas32
  | .atomicCas8, _ => .atomicCas64
  | _, 1 => .atomicRmw8
  | _, 2 => .atomicRmw16
  | _, 4 => .atomicRmw32
  | _, _ => .atomicRmw64

def accessBytes (raw : U32) (fixedBytes : Nat) : Nat :=
  if fixedBytes ≠ 0 then fixedBytes else 1 <<< bits raw 30 2

def atomicRmw (em : IrEmitter) (raw : U32) (kind : AtomicKind) (fixedBytes : Nat) :
    Emit InstStatus := do
  let bytes := accessBytes raw fixedBytes
  let rs := regField raw 16
  let rn := regField raw 5
  let rt := regField raw 0
  let size : RegSize := if bytes = 8 then .x else .w
  let ty : Ty := if bytes = 8 then .u64 else .u32
  let addr ← em.getXOrSp rn true
  let rsVal ← em.getGpr rs size
  if kind = .cas then
    let rtVal ← em.getGpr rt size
    let old ← em.push ((Armlet.new (sized .atomicCas8 bytes) ty).withArgs [addr, rsVal, rtVal])
    em.setGpr rs old size
  else
    let old ← em.push (((Armlet.new (sized .atomicRmw8 bytes) ty).withArgs [addr, rsVal]).withImm
      (kind.op.toU8.setWidth 64))
    em.setGpr rt old size
  return .continues

/-- The registers `r` and `r + 1` as one operand, the low half first. -/
def pair (em : IrEmitter) (wide : Bool) (r : U8) : Emit ValueRef := do
  let lo ← em.getX r
  let hi ← em.getX (r + 1)
  if wide then em.vecBuildQ lo hi
  else
    let m ← em.constU64 0xFFFFFFFF
    let lo ← em.and lo m .x
    let sh ← em.constU64 32
    let hi ← em.lsl hi sh .x
    em.or lo hi .x

/-- CASP, CASPA, CASPL and CASPAL. -/
def caspPair (em : IrEmitter) (raw : U32) : Emit InstStatus :=
  let wide := bits raw 30 1 = 1
  let rs := regField raw 16
  let rn := regField raw 5
  let rt := regField raw 0
  if rs &&& 1 ≠ 0 ∨ rt &&& 1 ≠ 0 then .fail (.error (.unsupported em.currentPc raw))
  else do
    let addr ← em.getXOrSp rn true
    let expected ← pair em wide rs
    let new ← pair em wide rt
    if wide then
      let old ← em.push ((Armlet.new .atomicCas128 .u128).withArgs [addr, expected, new])
      let lo ← em.vecExtractLo64 old
      let hi ← em.vecExtractHi64 old
      em.setX rs lo
      em.setX (rs + 1) hi
    else
      let old ← em.push ((Armlet.new .atomicCas64 .u64).withArgs [addr, expected, new])
      let sh ← em.constU64 32
      let hi ← em.lsr old sh .x
      em.setW rs old
      em.setW (rs + 1) hi
    return .continues

def translate (em : IrEmitter) : LseAtomic → Emit InstStatus
  | single kind _ suffix i => atomicRmw em i kind suffix.fixedBytes
  | casp _ i => caspPair em i
  | other _ => .fail (.error (.unsupported em.currentPc 0))

/-! ## The architecture -/

/-- The operation of the architecture. -/
def memAtomicOp : AtomicKind → Option Guest.MemAtomicOp
  | .add => some .add
  | .clr => some .bic
  | .eor => some .eor
  | .set => some .orr
  | .smax => some .smax
  | .smin => some .smin
  | .umax => some .umax
  | .umin => some .umin
  | .swp => some .swp
  | .cas => none

/-- The size field: `B` and `H` fix it. -/
def sizeField (raw : U32) : AtomicSuffix → Fin 4
  | .b => 0
  | .h => 1
  | .plain => ⟨bits raw 30 2, bits_lt raw 30 (by decide)⟩

/-- The instruction of an encoding; a pair starts at an even register. -/
def decode : LseAtomic → Option Guest.Atomic
  | single kind _ suffix raw =>
    let s := bits raw 16 5
    let n := bits raw 5 5
    let t := bits raw 0 5
    some (match memAtomicOp kind with
      | some op => .mem op (sizeField raw suffix) s n t
      | none => .compareAndSwap (sizeField raw suffix) s n t)
  | casp _ raw =>
    let s := bits raw 16 5
    let t := bits raw 0 5
    if s % 2 = 1 ∨ t % 2 = 1 then none
    else some (.compareAndSwapPair ⟨bits raw 30 1, bits_lt raw 30 (by decide)⟩ s (bits raw 5 5) t)
  | other _ => none

/-! ## What the nodes do -/

open IrEmitter

section plain

variable {em : IrEmitter} {n : Nat} {f : Frame} {Q : ValueRef → Nat → Frame → Prop}

/-- A rule for the other nodes is a rule here. -/
theorem plain_of_rule {α : Type} {p : Emit α} {r : α} {m : Nat} {f' : Frame}
    (h : ∀ R : α → Nat → Frame → Prop, p.wp Armlet.dataStep n f R ↔ R r m f')
    (R : α → Nat → Frame → Prop) : p.wp Armlet.plainStep n f R ↔ R r m f' :=
  Prog.wp_rule_mono (fun _ _ _ _ => Armlet.plainStep_of_data) h R

theorem plain_push {a : Armlet} {f' : Frame}
    (h : Armlet.plainStep n { a with pc := em.currentPc } f = some f') :
    (em.push a).wp Armlet.plainStep n f Q ↔ Q n (n + 1) f' := by
  rw [IrEmitter.push, Prog.wp_emit, h]
  simp only [Option.some.injEq, exists_eq_left']

theorem plain_vecBuildQ {lo hi : ValueRef} : (em.vecBuildQ lo hi).wp Armlet.plainStep n f Q ↔
    Q n (n + 1) (f.define n ⟨.u128, (f.value hi).lo64 ++ (f.value lo).lo64⟩) := plain_push rfl

theorem plain_vecExtractLo64 {q : ValueRef} : (em.vecExtractLo64 q).wp Armlet.plainStep n f Q ↔
    Q n (n + 1) (f.define n (.ofU64 .u64 (f.value q).lo64)) := plain_push rfl

theorem plain_vecExtractHi64 {q : ValueRef} : (em.vecExtractHi64 q).wp Armlet.plainStep n f Q ↔
    Q n (n + 1) (f.define n (.ofU64 .u64 (((f.value q).bits >>> 64).setWidth 64))) := plain_push rfl

/-- The low words of two values, put together by a mask and a shift. -/
theorem mask_or_shift (lo hi : U64) :
    (lo &&& 0xFFFFFFFF#64) ||| (hi <<< 32) = hi.setWidth 32 ++ lo.setWidth 32 := by
  have hmask : lo &&& 0xFFFFFFFF#64 = (lo.setWidth 32).setWidth 64 :=
    Lanes.and_lowMask (by decide : 32 < 64) lo
  rw [hmask]
  refine BitVec.eq_of_getLsbD_eq fun i hi => ?_
  rw [BitVec.getLsbD_or, BitVec.getLsbD_append]
  by_cases hlow : i < 32
  · simp [hlow, hi]
  · have hin : i - 32 < 32 := by omega
    simp [hlow, hi, hin]
    exact (BitVec.getLsbD_eq_getElem _).symm

/-- A pair of registers as one operand. -/
theorem computes_pair (wide : Bool) {r : U8} (hr : (r + 1).toNat = r.toNat + 1) :
    Computes Armlet.plainStep (pair em wide r) n f fun v =>
      v.bits = (Guest.Atomic.pair f.machine (if wide then 8 else 4) r.toNat).setWidth 128 := by
  have hamount : amount (Value.ofU64 Ty.u64 32#64) .x = 32 := rfl
  have hword (reg : Nat) : IrEmitter.operand f.machine reg .x = f.machine.readX reg := BitVec.setWidth_eq _
  rw [Computes, pair, Prog.wp_bind, plain_of_rule fun _ => data_getX r, Prog.wp_bind,
    plain_of_rule fun _ => data_getX (r + 1), hr]
  cases wide
  · simp only [Bool.false_eq_true, if_false]
    rw [Prog.wp_bind, plain_of_rule fun _ => data_constU64 _, Prog.wp_bind,
      plain_of_rule fun _ => data_and .x, Prog.wp_bind, plain_of_rule fun _ => data_constU64 _, Prog.wp_bind,
      plain_of_rule fun _ => data_lsl .x, plain_of_rule fun _ => data_or .x]
    simp [Nat.add_assoc, keeps_refl, hamount]
    exact congrArg (BitVec.setWidth 128) ((mask_or_shift _ _).trans (by rw [hword, hword]; rfl))
  · rw [if_pos rfl, plain_vecBuildQ]
    simp [Nat.add_assoc, keeps_refl]
    rw [hword, hword]
    rfl

end plain

/-! ## The access of an instruction -/

/-- The operation as the callbacks know it. -/
def atomicOp : Guest.MemAtomicOp → AtomicOp
  | .add => .add
  | .bic => .clr
  | .eor => .eor
  | .orr => .set
  | .smax => .smax
  | .smin => .smin
  | .umax => .umax
  | .umin => .umin
  | .swp => .swp

theorem op_eq {kind : AtomicKind} {op : Guest.MemAtomicOp} (h : memAtomicOp kind = some op) :
    kind.op = atomicOp op := by
  cases kind <;> cases h <;> rfl

theorem atomicOp_ne (op : Guest.MemAtomicOp) : atomicOp op ≠ .cas := by
  cases op <;> decide

theorem onBits_eq {w : Nat} (op : Guest.MemAtomicOp) (old value : BitVec w) :
    (atomicOp op).onBits old value = op.result old value := by
  have hflip {p q : Prop} [Decidable p] [Decidable q] (hpq : p → ¬ q) (hqp : ¬ p → ¬ q → old = value) :
      (if p then value else old) = if q then old else value := by
    by_cases hp : p
    · rw [if_pos hp, if_neg (hpq hp)]
    · by_cases hq : q
      · rw [if_neg hp, if_pos hq]
      · rw [if_neg hp, if_neg hq, hqp hp hq]
  cases op with
  | add | bic | eor | orr | swp => rfl
  | smin => simp only [atomicOp, AtomicOp.onBits, Guest.MemAtomicOp.result, BitVec.slt_iff_toInt_lt]
  | umin => simp only [atomicOp, AtomicOp.onBits, Guest.MemAtomicOp.result, BitVec.ult_iff_toNat_lt]
  | smax =>
    simp only [atomicOp, AtomicOp.onBits, Guest.MemAtomicOp.result, BitVec.slt_iff_toInt_lt]
    exact hflip (by omega) fun h h' => BitVec.eq_of_toInt_eq (by omega)
  | umax =>
    simp only [atomicOp, AtomicOp.onBits, Guest.MemAtomicOp.result, BitVec.ult_iff_toNat_lt]
    exact hflip (by omega) fun h h' => BitVec.eq_of_toNat_eq (by omega)

/-- The width of an access of one register. -/
def widthOf : Fin 4 → AtomicWidth
  | 0 => ⟨.b1, Width.b1_ne_b16⟩
  | 1 => ⟨.b2, Width.b2_ne_b16⟩
  | 2 => ⟨.b4, Width.b4_ne_b16⟩
  | 3 => ⟨.b8, Width.b8_ne_b16⟩

theorem bytes_widthOf (size : Fin 4) : (widthOf size).val.bytes = Guest.Atomic.bytesOf size := by
  revert size
  decide

/-- A register as an operand of an access. -/
def regOperand (m : Machine) (size : Fin 4) (reg : Nat) : U64 :=
  operand (widthOf size) ((m.readX reg).setWidth 128)

/-- The access with its operands as the code passes them. -/
def request (r11 : U64) (m : Machine) : Guest.Atomic → MemAccess
  | .mem op size s _ _ => .atomic (atomicOp op) (widthOf size) (regOperand m size s) r11
  | .compareAndSwap size s _ t => .atomic .cas (widthOf size) (regOperand m size t) (regOperand m size s)
  | .compareAndSwapPair 0 s _ t =>
    .atomic .cas ⟨.b8, Width.b8_ne_b16⟩ (Guest.Atomic.pair m 4 t) (Guest.Atomic.pair m 4 s)
  | .compareAndSwapPair 1 s _ t => .cas128 (Guest.Atomic.pair m 8 s) (Guest.Atomic.pair m 8 t)

/-- What the code leaves in the registers after the access. -/
def finish (m : Machine) (loaded : U128) : Guest.Atomic → Machine
  | .mem _ size _ _ t => m.writeX t (operand (widthOf size) loaded)
  | .compareAndSwap size s _ _ => m.writeX s (operand (widthOf size) loaded)
  | .compareAndSwapPair 0 s _ _ =>
    (m.writeX s ((loaded.setWidth 32).setWidth 64)).writeX (s + 1)
      ((((loaded.setWidth 64 : U64) >>> 32).setWidth 32).setWidth 64)
  | .compareAndSwapPair 1 s _ _ =>
    (m.writeX s (loaded.setWidth 64)).writeX (s + 1) ((loaded >>> 64).setWidth 64)

/-- The machine after the access, before the registers are written. -/
def accessed (m : Machine) (x : MemAccess) (addr : U64) (memory : Mem 64) : Machine :=
  { m with memory, accesses := ⟨true, addr, x.width.bytes⟩ :: m.accesses }

/-- An operand of the width of an access. -/
theorem setWidth_operand (w : AtomicWidth) (x : U128) :
    ((operand w.val x).setWidth 128).setWidth (8 * w.val.bytes) = x.setWidth (8 * w.val.bytes) := by
  obtain ⟨w, hw⟩ := w
  cases w with
  | b16 => exact absurd rfl hw
  | b1 | b2 | b4 | b8 =>
    simp only [operand, Width.bytes, reduceCtorEq, if_false, if_true]
    simp

theorem setWidth_regOperand (m : Machine) (size : Fin 4) (reg : Nat) :
    ((regOperand m size reg).setWidth 128).setWidth (8 * (widthOf size).val.bytes) =
      Guest.Atomic.operand m (widthOf size).val.bytes reg := by
  rw [regOperand, setWidth_operand]
  exact BitVec.setWidth_setWidth_of_le _ (widthOf size).val.bits_le

/-- What is loaded, in a register. -/
theorem operand_read (w : AtomicWidth) (memory : Mem 64) (addr : U64) :
    operand w.val (read 128 memory addr w.val.bytes) =
      (read (8 * w.val.bytes) memory addr w.val.bytes).setWidth 64 := by
  obtain ⟨w, hw⟩ := w
  cases w with
  | b16 => exact absurd rfl hw
  | b1 | b2 | b4 =>
    simp only [operand, reduceCtorEq, if_false]
    rw [setWidth_read (by decide), setWidth_read (by decide), setWidth_read (by decide)]
  | b8 =>
    simp only [operand, if_true]
    rw [setWidth_read (by decide), setWidth_read (by decide)]

theorem rmw_memAtomic (op : Guest.MemAtomicOp) (w : Width) (addr : U64) (value expected : U128)
    (memory : Mem 64) :
    rmw (atomicOp op) w addr value expected memory =
      (write memory addr w.bytes (op.result (read (8 * w.bytes) memory addr w.bytes)
        (value.setWidth (8 * w.bytes))), read 128 memory addr w.bytes) := by
  rw [rmw_eq (atomicOp_ne op), onBits_eq]

/-- A compare-and-swap compares and stores as many bits as it accesses. -/
theorem rmw_compareAndSwap (w : Width) (addr : U64) (new expected : U128) (m : Machine) :
    rmw .cas w addr new expected m.memory =
      ((Guest.Atomic.access m addr w.bytes
        (if read (8 * w.bytes) m.memory addr w.bytes = expected.setWidth (8 * w.bytes) then
          some (new.setWidth (8 * w.bytes)) else none)).memory, read 128 m.memory addr w.bytes) := by
  have hle := w.bits_le
  have hold : read 128 m.memory addr w.bytes = low w.bytes expected ↔
      read (8 * w.bytes) m.memory addr w.bytes = expected.setWidth (8 * w.bytes) := by
    rw [← @setWidth_read 64 128 m.memory addr w.bytes (8 * w.bytes) (by omega)]
    constructor
    · intro h
      rw [h, w.setWidth_low]
    · intro h
      rw [← low_read, ModularMemory.low, h, ModularMemory.low]
  rw [rmw_cas]
  by_cases h : read (8 * w.bytes) m.memory addr w.bytes = expected.setWidth (8 * w.bytes)
  · rw [if_pos (hold.mpr h), if_pos h, write_low]
    refine congrArg (·, _) (write_congr ?_)
    exact (BitVec.setWidth_eq _).symm
  · rw [if_neg fun h' => h (hold.mp h'), if_neg h]
    rfl

/-- **The effect of the access is the instruction.** -/
theorem exec_eq (r11 : U64) (m : Machine) (i : Guest.Atomic) :
    let x := request r11 m i
    let r := x.effect (i.address m) m.memory
    i.exec m = finish (accessed m x (i.address m) r.1) r.2 i := by
  match i with
  | .mem op size s n t =>
    simp only [request, MemAccess.effect, finish, Guest.Atomic.exec, Guest.Atomic.address]
    rw [rmw_memAtomic, setWidth_regOperand, operand_read, ← bytes_widthOf]
    rfl
  | .compareAndSwap size s n t =>
    simp only [request, MemAccess.effect, finish, Guest.Atomic.exec, Guest.Atomic.address]
    rw [rmw_compareAndSwap, setWidth_regOperand, setWidth_regOperand, operand_read, ← bytes_widthOf]
    rfl
  | .compareAndSwapPair 0 s n t =>
    have hpair (reg : Nat) : ((Guest.Atomic.pair m 4 reg : U64).setWidth 128).setWidth
        (8 * Width.b8.bytes) = Guest.Atomic.pair m 4 reg :=
      (BitVec.setWidth_setWidth_of_le _ (by decide)).trans (BitVec.setWidth_eq _)
    have hread : (read 128 m.memory (Guest.Atomic.base m n) Width.b8.bytes).setWidth 64 =
        read 64 m.memory (Guest.Atomic.base m n) Width.b8.bytes := setWidth_read (by decide)
    have hlow : (read 128 m.memory (Guest.Atomic.base m n) Width.b8.bytes).setWidth 32 =
        (read 64 m.memory (Guest.Atomic.base m n) Width.b8.bytes).setWidth 32 := by
      rw [setWidth_read (by decide), setWidth_read (by decide)]
    simp only [request, MemAccess.effect, finish, Guest.Atomic.exec, Guest.Atomic.address]
    rw [rmw_compareAndSwap, hpair, hpair]
    dsimp only
    rw [hread, hlow]
    rfl
  | .compareAndSwapPair 1 s n t =>
    have hpair (reg : Nat) : (Guest.Atomic.pair m 8 reg : U128).setWidth (8 * Width.b16.bytes) =
        Guest.Atomic.pair m 8 reg := BitVec.setWidth_eq _
    have hword (x : U64) : x.setWidth 64 = x := BitVec.setWidth_eq x
    simp only [request, MemAccess.effect, finish, Guest.Atomic.exec, Guest.Atomic.address]
    rw [rmw_compareAndSwap, hpair, hpair]
    dsimp only
    rw [← hword ((read 128 m.memory (Guest.Atomic.base m n) Width.b16.bytes).setWidth 64),
      ← hword ((read 128 m.memory (Guest.Atomic.base m n) Width.b16.bytes >>> 64).setWidth 64)]
    rfl

/-! ## Following the code -/

section code

variable {κ ω : Type} {env : Surroundings ω} {em : IrEmitter} {n : Nat} {f : Frame}
  {ctx : GuestContext κ ω}

/-- A rule for the nodes without an access is a rule here. -/
theorem code_of_rule {α : Type} {p : Emit α} {r : α} {m : Nat} {f' : Frame}
    (h : ∀ R : α → Nat → Frame → Prop, p.wp Armlet.plainStep n f R ↔ R r m f')
    (R : α → Nat → CodeState κ ω → Prop) : p.wp env.step n ⟨f, ctx⟩ R ↔ R r m ⟨f', ctx⟩ :=
  show p.wp env.step n ((fun f => CodeState.mk f ctx) f) R ↔ R r m ((fun f => CodeState.mk f ctx) f') from
    Prog.wp_rule_lift (fun _ _ _ _ h => env.step_plain h) h R

theorem code_of_data {α : Type} {p : Emit α} {r : α} {m : Nat} {f' : Frame}
    (h : ∀ R : α → Nat → Frame → Prop, p.wp Armlet.dataStep n f R ↔ R r m f')
    (R : α → Nat → CodeState κ ω → Prop) : p.wp env.step n ⟨f, ctx⟩ R ↔ R r m ⟨f', ctx⟩ :=
  code_of_rule (fun _ => plain_of_rule h _) R

theorem code_of_step {α : Type} {p : Emit α} {r : α} {m : Nat} {f' : Frame}
    (h : ∀ R : α → Nat → Frame → Prop, p.wp Armlet.step n f R ↔ R r m f')
    (R : α → Nat → CodeState κ ω → Prop) : p.wp env.step n ⟨f, ctx⟩ R ↔ R r m ⟨f', ctx⟩ :=
  code_of_data (fun _ => data_of_rule h _) R

/-- A piece of code that computes a value leaves the context alone. -/
theorem code_of_computes {p : Emit ValueRef} {φ : Value → Prop}
    (h : Computes Armlet.plainStep p n f φ) :
    p.wp env.step n (⟨f, ctx⟩ : CodeState κ ω) fun r n' s' =>
      ∃ f', s' = ⟨f', ctx⟩ ∧ n ≤ n' ∧ r < n' ∧ Keeps n f f' ∧ φ (f'.value r) :=
  have hstep (n : Nat) (a : Armlet) (f f' : Frame) (h : a.plainStep n f = some f') :
      env.step n a ((fun f => CodeState.mk f ctx) f) = some ((fun f => CodeState.mk f ctx) f') :=
    env.step_plain h
  Prog.wp_lift_step hstep h

theorem code_access {a : Armlet} {x : MemAccess} {r : GuestContext κ ω × U128}
    {Q : ValueRef → Nat → CodeState κ ω → Prop}
    (hnone : Armlet.plainStep n { a with pc := em.currentPc } f = none)
    (hx : Armlet.atomicAccess { a with pc := em.currentPc } f env.r11 = some x)
    (hr : x.run env.cb env.mode em.currentPc (a.arg f 0).lo64 env.others ctx = some r) :
    (em.push a).wp env.step n ⟨f, ctx⟩ Q ↔
      Q n (n + 1) ⟨env.after n { a with pc := em.currentPc } f x r, r.1⟩ := by
  rw [IrEmitter.push, Prog.wp_emit, env.step_access hnone hx hr]
  simp only [Option.some.injEq, exists_eq_left']

end code

/-! ## One register -/

/-- The size of the registers of an access. -/
def regSize (size : Fin 4) : RegSize := if (widthOf size).val.bytes = 8 then .x else .w

theorem accessBytes_eq (raw : U32) (suffix : AtomicSuffix) :
    accessBytes raw suffix.fixedBytes = (widthOf (sizeField raw suffix)).val.bytes := by
  rw [bytes_widthOf]
  cases suffix <;> rfl

theorem base_eq (m : Machine) (reg : Nat) :
    (if reg = zrEncoding ∧ (true : Bool) then m.sp else m.readX reg) = Guest.Atomic.base m reg := by
  by_cases h : reg = zrEncoding
  · simp [Guest.Atomic.base, h]
  · simp [Guest.Atomic.base, Machine.readX, h]

theorem operand_sizedValue (m : Machine) (size : Fin 4) (reg : Nat) :
    operand (widthOf size).val
      (sizedValue (regSize size) (IrEmitter.operand m reg (regSize size))).bits =
        regOperand m size reg := by
  have hword (x : U64) : ((x.setWidth 32).setWidth 128 : U128).setWidth 32 = (x.setWidth 128).setWidth 32 := by
    rw [BitVec.setWidth_setWidth_of_le _ (by decide), BitVec.setWidth_eq]
    exact (BitVec.setWidth_setWidth_of_le _ (by decide)).symm
  match size with
  | 0 | 1 | 2 => exact congrArg (BitVec.setWidth 64) (hword _)
  | 3 => exact congrArg (BitVec.setWidth 64) (congrArg (BitVec.setWidth 128) (BitVec.setWidth_eq _))

/-- What `set_gpr` makes of the value of a node. -/
theorem lowBits_atomicValue (size : Fin 4) {a : Armlet} (loaded : U128) (hop : a.op =
      sized .atomicRmw8 (widthOf size).val.bytes ∨ a.op = sized .atomicCas8 (widthOf size).val.bytes) :
    (lowBits (a.atomicValue loaded) (regSize size)).setWidth 64 = operand (widthOf size).val loaded := by
  rw [Armlet.atomicValue]
  match size with
  | 0 | 1 | 2 =>
    rcases hop with hop | hop <;>
      rw [hop] <;> exact congrArg (BitVec.setWidth 64) (Value.lo32_ofU32 a.ty _)
  | 3 =>
    rcases hop with hop | hop <;>
      rw [hop] <;> exact congrArg (BitVec.setWidth 64) (Value.lo64_ofU64 a.ty _)

section single

variable {κ ω : Type} {env : Surroundings ω} {em : IrEmitter} {n : ValueRef} {f : Frame}
  {ctx : GuestContext κ ω} {r : GuestContext κ ω × U128} {ty : Ty} {addr : ValueRef}
  {Q : ValueRef → Nat → CodeState κ ω → Prop}

/-- The node of a read-modify-write. -/
abbrev rmwNode (size : Fin 4) (ty : Ty) (op : AtomicOp) (addr value : ValueRef) : Armlet :=
  ((Armlet.new (sized .atomicRmw8 (widthOf size).val.bytes) ty).withArgs [addr, value]).withImm
    (op.toU8.setWidth 64)

/-- The node of a compare-and-swap of a register. -/
abbrev casNode (size : Fin 4) (ty : Ty) (addr expected new : ValueRef) : Armlet :=
  (Armlet.new (sized .atomicCas8 (widthOf size).val.bytes) ty).withArgs [addr, expected, new]

theorem access_rmwNode (size : Fin 4) (op : Guest.MemAtomicOp) (r11 : U64) {value : ValueRef} {pc : U64} :
    Armlet.plainStep n { rmwNode size ty (atomicOp op) addr value with pc } f = none ∧
      Armlet.atomicAccess { rmwNode size ty (atomicOp op) addr value with pc } f r11 =
        some (.atomic (atomicOp op) (widthOf size) (operand (widthOf size).val (f.value value).bits) r11) := by
  have hop : (AtomicOp.fromU8 (((atomicOp op).toU8.setWidth 64).setWidth 8)).filter (· ≠ .cas) =
      some (atomicOp op) := by
    cases op <;> rfl
  match size with
  | 0 | 1 | 2 | 3 => exact ⟨rfl, congrArg (Option.map _) hop⟩

theorem access_casNode (size : Fin 4) (r11 : U64) {expected new : ValueRef} {pc : U64} :
    Armlet.plainStep n { casNode size ty addr expected new with pc } f = none ∧
      Armlet.atomicAccess { casNode size ty addr expected new with pc } f r11 =
        some (.atomic .cas (widthOf size) (operand (widthOf size).val (f.value new).bits)
          (operand (widthOf size).val (f.value expected).bits)) := by
  match size with
  | 0 | 1 | 2 | 3 => exact ⟨rfl, rfl⟩

/-- Where the code of an instruction ends. -/
def Ends (env : Surroundings ω) (m : Machine) (i : Guest.Atomic) (r : GuestContext κ ω × U128)
    (st : InstStatus) (s' : CodeState κ ω) : Prop :=
  st = .continues ∧ s'.ctx = r.1 ∧
    s'.frame.machine = finish (accessed m (request env.r11 m i) (i.address m)
      (guestMemory env.mode env.ext r.1.rest.state)) r.2 i

/-- The node of an access, and the register its value is written to. -/
theorem wp_accessAndWrite {size : Fin 4} {a : Armlet} {i : Guest.Atomic} {reg : U8} {m : Machine}
    (hop : a.op = sized .atomicRmw8 (widthOf size).val.bytes ∨
      a.op = sized .atomicCas8 (widthOf size).val.bytes)
    (hm : f.machine = m) (haddr : (a.arg f 0).lo64 = i.address m)
    (hplain : Armlet.plainStep n { a with pc := em.currentPc } f = none)
    (haccess : Armlet.atomicAccess { a with pc := em.currentPc } f env.r11 = some (request env.r11 m i))
    (hr : (request env.r11 m i).run env.cb env.mode em.currentPc (i.address m) env.others ctx = some r)
    (hfinish : ∀ m', finish m' r.2 i = m'.writeX reg.toNat (operand (widthOf size).val r.2)) :
    (do
      let old ← em.push a
      em.setGpr reg old (regSize size)
      return InstStatus.continues).wp env.step n ⟨f, ctx⟩ fun st _ s' => Ends env m i r st s' := by
  subst hm
  rw [Prog.wp_bind, code_access hplain haccess (by rw [haddr]; exact hr), Prog.wp_bind,
    code_of_data fun _ => data_setGpr _ _ _, Prog.wp_pure]
  refine ⟨rfl, rfl, ?_⟩
  have hvalue : (lowBits (Armlet.atomicValue { a with pc := em.currentPc } r.2) (regSize size)).setWidth 64 =
      operand (widthOf size).val r.2 := lowBits_atomicValue size r.2 hop
  rw [hfinish, Surroundings.after, Frame.value_define, if_pos rfl, result, hvalue]
  exact congrArg (fun addr => (accessed f.machine (request env.r11 f.machine i) addr _).writeX _ _) haddr

theorem wp_atomicRmw {kind : AtomicKind} {suffix : AtomicSuffix} {raw : U32} {op : Guest.MemAtomicOp}
    (hop : memAtomicOp kind = some op) {i : Guest.Atomic}
    (hi : i = .mem op (sizeField raw suffix) (bits raw 16 5) (bits raw 5 5) (bits raw 0 5))
    (hr : (request env.r11 f.machine i).run env.cb env.mode em.currentPc (i.address f.machine)
      env.others ctx = some r) :
    (atomicRmw em raw kind suffix.fixedBytes).wp env.step n ⟨f, ctx⟩ fun st _ s' =>
      Ends env f.machine i r st s' := by
  have hkind : kind ≠ .cas := by
    rintro rfl
    cases hop
  have hne : n ≠ n + 1 := Nat.ne_of_lt (Nat.lt_succ_self n)
  subst hi
  rw [atomicRmw, accessBytes_eq, op_eq hop]
  simp only [if_neg hkind]
  rw [Prog.wp_bind, code_of_data fun _ => data_getXOrSp _ _, Prog.wp_bind,
    code_of_data fun _ => data_getGpr _ _, toNat_regField, toNat_regField, base_eq]
  generalize hf2 : (f.define n _).define (n + 1) _ = f2
  have haddr : (f2.value n).lo64 = Guest.Atomic.base f.machine (bits raw 5 5) := by
    simp [← hf2]
  have hvalue : operand (widthOf (sizeField raw suffix)).val (f2.value (n + 1)).bits =
      regOperand f.machine (sizeField raw suffix) (bits raw 16 5) := by
    rw [← operand_sizedValue, ← hf2]
    simp [regSize]
  have hm : f2.machine = f.machine := by
    rw [← hf2]
    rfl
  obtain ⟨hplain, haccess⟩ := @access_rmwNode (n + 2) f2
    (if (widthOf (sizeField raw suffix)).val.bytes = 8 then .u64 else .u32) n (sizeField raw suffix) op
    env.r11 (n + 1) em.currentPc
  rw [hvalue] at haccess
  exact wp_accessAndWrite (.inl rfl) hm haddr hplain haccess hr fun _ => by rw [toNat_regField]; rfl

theorem wp_atomicRmw_cas {suffix : AtomicSuffix} {raw : U32} {i : Guest.Atomic}
    (hi : i = .compareAndSwap (sizeField raw suffix) (bits raw 16 5) (bits raw 5 5) (bits raw 0 5))
    (hr : (request env.r11 f.machine i).run env.cb env.mode em.currentPc (i.address f.machine)
      env.others ctx = some r) :
    (atomicRmw em raw .cas suffix.fixedBytes).wp env.step n ⟨f, ctx⟩ fun st _ s' =>
      Ends env f.machine i r st s' := by
  subst hi
  rw [atomicRmw, accessBytes_eq]
  simp only [if_true]
  rw [Prog.wp_bind, code_of_data fun _ => data_getXOrSp _ _, Prog.wp_bind,
    code_of_data fun _ => data_getGpr _ _, Prog.wp_bind, code_of_data fun _ => data_getGpr _ _,
    toNat_regField, toNat_regField, toNat_regField, base_eq]
  generalize hf3 : ((f.define n _).define (n + 1) _).define (n + 1 + 1) _ = f3
  have haddr : (f3.value n).lo64 = Guest.Atomic.base f.machine (bits raw 5 5) := by
    simp [← hf3, Nat.add_assoc]
  have hexpected : operand (widthOf (sizeField raw suffix)).val (f3.value (n + 1)).bits =
      regOperand f.machine (sizeField raw suffix) (bits raw 16 5) := by
    rw [← operand_sizedValue, ← hf3]
    simp [regSize]
  have hnew : operand (widthOf (sizeField raw suffix)).val (f3.value (n + 1 + 1)).bits =
      regOperand f.machine (sizeField raw suffix) (bits raw 0 5) := by
    rw [← operand_sizedValue, ← hf3]
    simp [regSize]
  have hm : f3.machine = f.machine := by
    rw [← hf3]
    rfl
  obtain ⟨hplain, haccess⟩ := @access_casNode (n + 1 + 1 + 1) f3
    (if (widthOf (sizeField raw suffix)).val.bytes = 8 then .u64 else .u32) n (sizeField raw suffix)
    env.r11 (n + 1) (n + 1 + 1) em.currentPc
  rw [hexpected, hnew] at haccess
  exact wp_accessAndWrite (.inr rfl) hm haddr hplain haccess hr fun _ => by rw [toNat_regField]; rfl

/-! ## A pair of registers -/

theorem regField_and_one (raw : U32) (lsb : Nat) : regField raw lsb &&& 1 ≠ 0 ↔ bits raw lsb 5 % 2 = 1 := by
  have hlow : (regField raw lsb &&& 1).toNat = bits raw lsb 5 % 2 := by
    rw [BitVec.toNat_and, toNat_regField]
    exact Nat.and_one_is_mod _
  have hzero : regField raw lsb &&& 1 = 0 ↔ bits raw lsb 5 % 2 = 0 := by
    rw [← hlow]
    exact BitVec.toNat_inj.symm
  rw [Ne, hzero]
  omega

theorem toNat_regField_succ (raw : U32) (lsb : Nat) :
    (regField raw lsb + 1).toNat = (regField raw lsb).toNat + 1 := by
  have := bits_lt raw lsb (by decide : 5 < 32)
  rw [BitVec.toNat_add, toNat_regField, Nat.mod_eq_of_lt (by simp; omega)]
  rfl

/-- The address and the two operands of a pair. -/
theorem wp_pairOperands {raw : U32} {wide : Bool} {m : Machine} (hm : f.machine = m)
    {k : ValueRef → ValueRef → ValueRef → Emit InstStatus} {R : InstStatus → Nat → CodeState κ ω → Prop}
    (hk : ∀ addr expected new n f, f.machine = m →
      (f.value addr).lo64 = Guest.Atomic.base m (bits raw 5 5) →
      (f.value expected).bits =
        (Guest.Atomic.pair m (if wide then 8 else 4) (bits raw 16 5)).setWidth 128 →
      (f.value new).bits = (Guest.Atomic.pair m (if wide then 8 else 4) (bits raw 0 5)).setWidth 128 →
      (k addr expected new).wp env.step n ⟨f, ctx⟩ R) :
    (do
      let addr ← em.getXOrSp (regField raw 5) true
      let expected ← pair em wide (regField raw 16)
      let new ← pair em wide (regField raw 0)
      k addr expected new).wp env.step n ⟨f, ctx⟩ R := by
  subst hm
  rw [Prog.wp_bind, code_of_data fun _ => data_getXOrSp _ _, toNat_regField, base_eq, Prog.wp_bind]
  refine Prog.wp_mono (code_of_computes (computes_pair wide (toNat_regField_succ raw 16))) ?_
  rintro expected n1 _ ⟨f1, rfl, hn1, hlt1, hkeep1, hval1⟩
  rw [Prog.wp_bind]
  refine Prog.wp_mono (code_of_computes (computes_pair wide (toNat_regField_succ raw 0))) ?_
  rintro new n2 _ ⟨f2, rfl, hn2, hlt2, hkeep2, hval2⟩
  have hn : n < n1 := Nat.lt_of_lt_of_le (Nat.lt_succ_self n) hn1
  rw [hkeep1.machine, Frame.machine_define, toNat_regField] at hval2
  rw [Frame.machine_define, toNat_regField] at hval1
  refine hk n expected new n2 f2 ?_ ?_ ?_ hval2
  · exact hkeep2.machine.trans hkeep1.machine
  · rw [hkeep2.value n hn, hkeep1.value n (Nat.lt_succ_self n), Frame.value_define, if_pos rfl,
      Value.lo64_ofU64]
  · rw [hkeep2.value expected hlt1, hval1]

theorem machine_after {a : Armlet} {m : Machine} {x : MemAccess} {address : U64} (hm : f.machine = m)
    (haddr : (a.arg f 0).lo64 = address) :
    (env.after n a f x r).machine = accessed m x address (guestMemory env.mode env.ext r.1.rest.state) := by
  subst hm haddr
  rfl

theorem value_after {a : Armlet} {x : MemAccess} : (env.after n a f x r).value n = a.atomicValue r.2 := by
  rw [Surroundings.after, Frame.value_define, if_pos rfl]

theorem wp_caspPair_narrow {raw : U32} (hwide : ¬ bits raw 30 1 = 1) (hs : bits raw 16 5 % 2 ≠ 1)
    (ht : bits raw 0 5 % 2 ≠ 1) {i : Guest.Atomic}
    (hi : i = .compareAndSwapPair 0 (bits raw 16 5) (bits raw 5 5) (bits raw 0 5))
    (hr : (request env.r11 f.machine i).run env.cb env.mode em.currentPc (i.address f.machine)
      env.others ctx = some r) :
    (caspPair em raw).wp env.step n ⟨f, ctx⟩ fun st _ s' => Ends env f.machine i r st s' := by
  subst hi
  rw [caspPair]
  simp only [regField_and_one, hs, ht, or_self, if_false, hwide, decide_false]
  refine wp_pairOperands rfl ?_
  intro addr expected new n f' hm haddr hexpected hnew
  have hpair {v : Value} {reg : Nat}
      (h : v.bits = (Guest.Atomic.pair f.machine 4 reg : U64).setWidth 128) :
      operand (widthOf 3).val v.bits = Guest.Atomic.pair f.machine 4 reg := by
    have hback (x : U64) : (x.setWidth 128).setWidth 64 = x := by
      rw [BitVec.setWidth_setWidth_of_le x (by decide), BitVec.setWidth_eq]
    rw [h]
    exact hback _
  let a : Armlet := (Armlet.new .atomicCas64 .u64).withArgs [addr, expected, new]
  have haccess : Armlet.atomicAccess { a with pc := em.currentPc } f' env.r11 = some (.atomic .cas (widthOf 3)
      (operand (widthOf 3).val (f'.value new).bits) (operand (widthOf 3).val (f'.value expected).bits)) := rfl
  rw [hpair hexpected, hpair hnew] at haccess
  have hrun : MemAccess.run env.cb env.mode em.currentPc (a.arg f' 0).lo64 env.others ctx _ = some r :=
    (congrArg (fun addr => MemAccess.run env.cb env.mode em.currentPc addr env.others ctx _) haddr).trans hr
  have hvalue : (env.after n { a with pc := em.currentPc } f' (.atomic .cas (widthOf 3)
      (Guest.Atomic.pair f.machine 4 (bits raw 0 5)) (Guest.Atomic.pair f.machine 4 (bits raw 16 5)))
        r).value n = .ofU64 .u64 (r.2.setWidth 64) := value_after
  have hmachine := @machine_after κ ω env n f' r { a with pc := em.currentPc } f.machine
    (.atomic .cas (widthOf 3) (Guest.Atomic.pair f.machine 4 (bits raw 0 5))
      (Guest.Atomic.pair f.machine 4 (bits raw 16 5))) _ hm haddr
  have hamount : amount64 32 = 32 := rfl
  have hcut : (r.2.setWidth 64 : U64).setWidth 32 = r.2.setWidth 32 :=
    BitVec.setWidth_setWidth_of_le r.2 (by decide)
  rw [Prog.wp_bind, code_access rfl haccess hrun]
  generalize env.after n _ f' _ r = fA at hmachine hvalue ⊢
  rw [Prog.wp_bind, code_of_step fun _ => em.wp_constU64 _, Prog.wp_bind, code_of_step fun _ => em.wp_lsr .x,
    Prog.wp_bind, code_of_step fun _ => em.wp_setW _ _, Prog.wp_bind, code_of_step fun _ => em.wp_setW _ _,
    Prog.wp_pure, toNat_regField_succ, toNat_regField]
  refine ⟨rfl, rfl, ?_⟩
  simp only [Frame.machine_define, Frame.value_define, hmachine, hvalue, Nat.add_assoc, if_true,
    Nat.left_eq_add, OfNat.ofNat_ne_zero, one_ne_zero, if_false, Nat.reduceAdd, binaryValue,
    Value.lo64_ofU64, Value.lo32_ofU64, hamount, hcut]
  rfl

theorem wp_caspPair_wide {raw : U32} (hwide : bits raw 30 1 = 1) (hs : bits raw 16 5 % 2 ≠ 1)
    (ht : bits raw 0 5 % 2 ≠ 1) {i : Guest.Atomic}
    (hi : i = .compareAndSwapPair 1 (bits raw 16 5) (bits raw 5 5) (bits raw 0 5))
    (hr : (request env.r11 f.machine i).run env.cb env.mode em.currentPc (i.address f.machine)
      env.others ctx = some r) :
    (caspPair em raw).wp env.step n ⟨f, ctx⟩ fun st _ s' => Ends env f.machine i r st s' := by
  subst hi
  rw [caspPair]
  simp only [regField_and_one, hs, ht, or_self, if_false, hwide, decide_true, if_true]
  refine wp_pairOperands rfl ?_
  intro addr expected new n f' hm haddr hexpected hnew
  have hpair {v : Value} {reg : Nat}
      (h : v.bits = (Guest.Atomic.pair f.machine 8 reg : U128).setWidth 128) :
      v.bits = Guest.Atomic.pair f.machine 8 reg := h.trans (BitVec.setWidth_eq _)
  let a : Armlet := (Armlet.new .atomicCas128 .u128).withArgs [addr, expected, new]
  have haccess : Armlet.atomicAccess { a with pc := em.currentPc } f' env.r11 =
      some (.cas128 (f'.value expected).bits (f'.value new).bits) := rfl
  rw [hpair hexpected, hpair hnew] at haccess
  have hrun : MemAccess.run env.cb env.mode em.currentPc (a.arg f' 0).lo64 env.others ctx _ = some r :=
    (congrArg (fun addr => MemAccess.run env.cb env.mode em.currentPc addr env.others ctx _) haddr).trans hr
  rw [Prog.wp_bind, code_access rfl haccess hrun]
  have hmachine := @machine_after κ ω env n f' r { a with pc := em.currentPc } f.machine
    (.cas128 (Guest.Atomic.pair f.machine 8 (bits raw 16 5)) (Guest.Atomic.pair f.machine 8 (bits raw 0 5)))
    _ hm haddr
  have hvalue : (env.after n { a with pc := em.currentPc } f'
      (.cas128 (Guest.Atomic.pair f.machine 8 (bits raw 16 5))
        (Guest.Atomic.pair f.machine 8 (bits raw 0 5))) r).value n = ⟨.u128, r.2⟩ := value_after
  generalize env.after n _ f' _ r = fA at hmachine hvalue ⊢
  rw [Prog.wp_bind, code_of_rule fun _ => plain_vecExtractLo64, Prog.wp_bind,
    code_of_rule fun _ => plain_vecExtractHi64, Prog.wp_bind, code_of_step fun _ => em.wp_setX _ _,
    Prog.wp_bind, code_of_step fun _ => em.wp_setX _ _, Prog.wp_pure, toNat_regField_succ, toNat_regField]
  refine ⟨rfl, rfl, ?_⟩
  simp [hmachine, hvalue]
  rfl

/-- The code of an instruction makes its access, and then writes the registers. -/
theorem wp_translate {insn : LseAtomic} {i : Guest.Atomic} (hi : insn.decode = some i)
    (hr : (request env.r11 f.machine i).run env.cb env.mode em.currentPc (i.address f.machine)
      env.others ctx = some r) :
    (insn.translate em).wp env.step n ⟨f, ctx⟩ fun st _ s' => Ends env f.machine i r st s' := by
  cases insn with
  | other raw => cases hi
  | single kind order suffix raw =>
    rw [decode, Option.some.injEq] at hi
    cases hop : memAtomicOp kind with
    | some op =>
      rw [hop] at hi
      exact wp_atomicRmw hop hi.symm hr
    | none =>
      rw [hop] at hi
      obtain rfl : kind = .cas := by
        cases kind <;> first | rfl | cases hop
      exact wp_atomicRmw_cas hi.symm hr
  | casp order raw =>
    rw [decode] at hi
    split at hi
    · cases hi
    · next heven =>
      obtain ⟨hs, ht⟩ := not_or.mp heven
      rw [Option.some.injEq] at hi
      by_cases hwide : bits raw 30 1 = 1
      · exact wp_caspPair_wide hwide hs ht
          (by rw [← hi]; exact congrArg (Guest.Atomic.compareAndSwapPair · _ _ _) (Fin.ext hwide)) hr
      · have := bits_lt raw 30 (by decide : 1 < 32)
        exact wp_caspPair_narrow hwide hs ht
          (by rw [← hi]; exact congrArg (Guest.Atomic.compareAndSwapPair · _ _ _) (Fin.ext (show bits raw 30 1 = 0 by omega))) hr

end single

/-- What the rest of the system has to see to: the callback serves atomics, and a direct access that
crosses the end of its region traps. -/
structure Served {κ ω : Type} (env : Surroundings ω) (x : MemAccess) (address : U64)
    (ctx : GuestContext κ ω) : Prop where
  serves : ServesAtomics env.mode env.cb env.ext
  direct : ∀ bits a, env.mode = .direct bits → x.touched env.mode ctx.rest.state address = some a →
    address.toNat + x.width.bytes ≤ 2 ^ bits.val

theorem isAtomic_request (r11 : U64) (m : Machine) (i : Guest.Atomic) : (request r11 m i).isAtomic := by
  match i with
  | .mem .. | .compareAndSwap .. | .compareAndSwapPair 0 .. | .compareAndSwapPair 1 .. => trivial

theorem request_memory (r11 : U64) (m : Machine) (memory : Mem 64) (i : Guest.Atomic) :
    request r11 { m with memory } i = request r11 m i := by
  match i with
  | .mem .. | .compareAndSwap .. | .compareAndSwapPair 0 .. | .compareAndSwapPair 1 .. => rfl

theorem address_memory (m : Machine) (memory : Mem 64) (i : Guest.Atomic) :
    i.address { m with memory } = i.address m := by
  match i with
  | .mem .. | .compareAndSwap .. | .compareAndSwapPair .. => rfl

/-- **The LSE atomics follow the architecture.**  An encoding that it does not have is rejected.
The code of any other makes the one access of the instruction, which is not held up if no other
thread is at the memory; and what it leaves is what the instruction makes of the state, with the
memory as one of the threads left it. -/
theorem lse_atomic_exact (em : IrEmitter) (insn : LseAtomic) :
    match insn.decode with
    | none => ∃ opcode, insn.translate em = .fail (.error (.unsupported em.currentPc opcode))
    | some i => ∀ {κ ω : Type} (env : Surroundings ω) (n : ValueRef) (f : Frame) (ctx : GuestContext κ ω),
      let access := request env.r11 f.machine i
      let run := access.run env.cb env.mode em.currentPc (i.address f.machine) env.others ctx
      Served env access (i.address f.machine) ctx →
        (env.others = [] → run.isSome) ∧
        ∀ r, run = some r →
          (insn.translate em).wp env.step n ⟨f, ctx⟩ fun st _ s' =>
            st = .continues ∧ s'.ctx = r.1 ∧ ∃ seen ∈ ctx.rest.state.host :: env.others,
              s'.frame.machine = i.exec { f.machine with
                memory := guestMemory env.mode env.ext { ctx.rest.state with host := seen } } := by
  cases hi : insn.decode with
  | none =>
    cases insn with
    | other raw => exact ⟨0, rfl⟩
    | single kind order suffix raw => cases hi
    | casp order raw =>
      rw [decode] at hi
      split at hi
      · next hodd =>
        rw [← regField_and_one, ← regField_and_one] at hodd
        exact ⟨raw, if_pos hodd⟩
      · cases hi
  | some i =>
    intro κ ω env n f ctx access run hserved
    constructor
    · intro halone
      simp only [run, halone]
      exact MemAccess.run_alone ..
    · intro r hr
      refine Prog.wp_mono (wp_translate hi hr) ?_
      rintro st n' s' ⟨hst, hctx, hmachine⟩
      obtain ⟨seen, hseen, heffect⟩ :=
        MemAccess.atomic_effect hserved.serves (isAtomic_request ..) hserved.direct hr
      refine ⟨hst, hctx, seen, hseen, hmachine.trans ?_⟩
      rw [exec_eq env.r11]
      simp only [request_memory, address_memory]
      rw [← heffect]
      rfl

/-- `LDADDALB W1, W2, [X0]` in the middle of a window, which goes inline. -/
theorem lse_atomic_exact_ldaddalb :
    let insn := LseAtomic.single .add .al .b 0x38E10002#32
    let i := Guest.Atomic.mem .add 0 1 0 2
    let env : Surroundings (Mem 64) := ⟨flatCallbacks .window, .window, id, [], 0⟩
    let f : Frame := ⟨⟨fun _ => 0x1010, 0, 0, fun _ => 0, fun _ => 0, []⟩, fun _ => ⟨.void, 0⟩⟩
    let ctx : GuestContext Unit (Mem 64) := ⟨0, 0, 0, 0, 0, 0, 0, 0, 0, 0,
      ⟨(), fun _ => 0, ⟨fun _ => 0, ⟨0, 0, 0⟩, 0, 0, ⟨0x7000, 0x1000, 0x100, fun _ => 0⟩,
        ⟨fun _ => 0, fun _ _ => false⟩, fun _ => 0⟩, []⟩⟩
    insn.decode = some i ∧ (request env.r11 f.machine i).touched .window ctx.rest.state 0x1010 = some 0x7010 ∧
      ∃ r, (request env.r11 f.machine i).run env.cb env.mode 0 (i.address f.machine) env.others ctx = some r ∧
        (insn.translate ⟨0⟩).wp env.step 1 ⟨f, ctx⟩ fun st _ s' =>
          st = .continues ∧ s'.ctx = r.1 ∧ ∃ seen ∈ ctx.rest.state.host :: env.others,
            s'.frame.machine = i.exec { f.machine with
              memory := guestMemory env.mode env.ext { ctx.rest.state with host := seen } } := by
  intro insn i env f ctx
  obtain ⟨halone, hall⟩ := lse_atomic_exact ⟨0⟩ insn env 1 f ctx
    ⟨(flatCallbacks_implements .window).servesAtomics, fun _ _ h => by cases h⟩
  obtain ⟨r, hr⟩ := Option.isSome_iff_exists.mp (halone rfl)
  exact ⟨rfl, by decide, r, hr, hall r hr⟩

end LseAtomic

end Rustarmic
