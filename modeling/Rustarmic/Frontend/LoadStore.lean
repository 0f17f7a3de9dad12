import Rustarmic.Frontend.AddSub
import Rustarmic.Frontend.MemoryEmitter

/-!
# Translating loads and stores of one register

* `LdstPos.translate`, `LdstUnscaled.translate`, `LdstImm9.translate`, `LdstRegoff.translate` — the
  translators.
* `does_emitAccess` — what the part they share does.
* `FollowsArm` — what a translator owes the encodings it accepts.
* `LdstOp.decodeSingle_eq` — the architecture reads the fields as the translators do, except where
  it has no instruction.

The four classes differ in the address and share the access: a load into a general register,
zero-extended or sign-extended, a store, or the same with a vector register.  `AccessKind` says
which, and `emitAccess` is the code the source repeats in each translator.  So there is one lemma
about the access, and a class adds its address and, where it has one, the new base.

**The order of effects.**  An instruction with a new base writes two registers.  The nodes read the
base once, access memory, write the transferred register, and then the base; `Guest.indexed` has the
same order.

**What is owed.**  A translator may refuse an encoding with an error.  If it accepts one, its nodes
are the instruction, and there has to *be* an instruction; `FollowsArm` says both.  The decoder has
looked at some fields already, and what it has seen is a hypothesis (`Decoded`), in terms of the
fields alone.
-/

set_option autoImplicit false

namespace Rustarmic

open Emitting Interp ModularMemory

/-! ## The access -/

/-- What a translator does with the register. -/
inductive AccessKind where
  | loadU | loadS | store | fpLoad | fpStore
  deriving DecidableEq, Repr

/-- A narrow value as one of 32 bits. -/
def emitPromote (em : IrEmitter) (bytes : Nat) (v : ValueRef) : Emit ValueRef :=
  if bytes < 4 then do
    let mask ← em.constU32 ((1#32 <<< (bytes * 8)) - 1)
    em.and v mask .w
  else pure v

/-- Sign extension by two shifts. -/
def emitSignExtend (em : IrEmitter) (shift : Nat) (v : ValueRef) : Emit ValueRef := do
  let shl ← em.constU64 (BitVec.ofNat 64 shift)
  let s1 ← em.lsl v shl .x
  let s2 ← em.constU64 (BitVec.ofNat 64 shift)
  em.asr s1 s2 .x

def emitSetSigned (em : IrEmitter) (targetX : Bool) (rt : U8) (sx : ValueRef) : Emit Unit :=
  if targetX then em.setX rt sx else em.setW rt sx

def emitSetUnsigned (em : IrEmitter) (size : Nat) (rt : U8) (v : ValueRef) : Emit Unit :=
  if size ≤ 2 then em.setW rt v else em.setX rt v

/-- The part that the translators of single registers share: the access at an address, and its
register. -/
def emitAccess (em : IrEmitter) (kind : AccessKind) (targetX : Bool) (raw : U32) (size bytes : Nat) (rt : U8)
    (addr : ValueRef) : Emit Unit :=
  match kind with
  | .store => do
    let val ← em.getGpr rt (if size = 3 then .x else .w)
    em.store addr val bytes
  | .loadU => do
    let v ← em.load addr bytes
    emitSetUnsigned em size rt v
  | .loadS => do
    let v ← em.load addr bytes
    let sx ← emitSignExtend em (64 - bytes * 8) v
    emitSetSigned em targetX rt sx
  | .fpLoad =>
    if bytes = 16 then do
      let q ← em.load addr 16
      em.setVQ rt q
    else if bytes = 8 then do
      let v ← em.load addr bytes
      em.setVD rt v
    else if bytes = 1 ∨ bytes = 2 ∨ bytes = 4 then do
      let v ← em.load addr bytes
      let v ← emitPromote em bytes v
      em.setVS rt v
    else .fail (.error (.unsupported em.currentPc raw))
  | .fpStore =>
    if bytes = 16 then do
      let q ← em.getVQ rt
      em.store addr q 16
    else if bytes = 8 then do
      let v ← em.getVD rt
      em.store addr v bytes
    else if bytes = 1 ∨ bytes = 2 ∨ bytes = 4 then do
      let v ← em.getVS rt
      em.store addr v bytes
    else .fail (.error (.unsupported em.currentPc raw))

namespace AccessKind

def isFp : AccessKind → Bool
  | fpLoad | fpStore => true
  | _ => false

/-- The transfer of the architecture. -/
def transfer (targetX : Bool) : AccessKind → Guest.Transfer
  | loadU => .load
  | loadS => .loadSigned (if targetX then 64 else 32)
  | store => .store
  | fpLoad => .loadV
  | fpStore => .storeV

end AccessKind

/-! ## What the access does -/

open IrEmitter

variable {em : IrEmitter} {n : Nat} {f : Frame}

/-- The code leaves a machine, and the values that were there. -/
def Does (p : Emit Unit) (n : Nat) (f : Frame) (m : Machine) : Prop :=
  p.wp Armlet.step n f fun _ n' f' => n ≤ n' ∧ (∀ r < n, f'.value r = f.value r) ∧ f'.machine = m

/-- What is done after other code is done by both. -/
theorem Does.after {p : Emit Unit} {n1 : Nat} {f1 : Frame} {m : Machine} (h : Does p n1 f1 m) (hle : n ≤ n1)
    (hkeep : ∀ r < n, f1.value r = f.value r) :
    p.wp Armlet.step n1 f1 fun _ n' f' => n ≤ n' ∧ (∀ r < n, f'.value r = f.value r) ∧ f'.machine = m := by
  refine Prog.wp_mono h ?_
  rintro _ n' f' ⟨hle', hkeep', hm⟩
  refine ⟨hle.trans hle', fun r hr => ?_, hm⟩
  exact (hkeep' r (Nat.lt_of_lt_of_le hr hle)).trans (hkeep r hr)

/-- The same after the node of a value. -/
theorem Does.after_define {p : Emit Unit} {v : Value} {m : Machine} {f1 : Frame}
    (h : Does p (n + 1) (f1.define n v) m)
    (hkeep : f1.value = f.value) : p.wp Armlet.step (n + 1) (f1.define n v) fun _ n' f' =>
      n ≤ n' ∧ (∀ r < n, f'.value r = f.value r) ∧ f'.machine = m := by
  refine h.after (Nat.le_succ n) fun r hr => ?_
  rw [Frame.value_define, if_neg (Nat.ne_of_lt hr), hkeep]

theorem does_setX (rt : U8) (value : ValueRef) {x : U64} (hx : (f.value value).lo64 = x) :
    Does (em.setX rt value) n f (f.machine.writeX rt.toNat x) := by
  subst hx
  rw [Does, em.wp_setX]
  refine ⟨?_, fun _ _ => rfl, rfl⟩
  split <;> omega

theorem does_setW (rt : U8) (value : ValueRef) {x : U64} (hx : (f.value value).lo32.setWidth 64 = x) :
    Does (em.setW rt value) n f (f.machine.writeX rt.toNat x) := by
  subst hx
  rw [Does, em.wp_setW]
  refine ⟨?_, fun _ _ => rfl, rfl⟩
  split <;> omega

/-- What is done with a value that is loaded. -/
theorem does_load {k : Nat} (hk : k ≤ 4) {addr : ValueRef} {g : ValueRef → Emit Unit} {m : Machine}
    (h : ∀ f1 : Frame, f1.machine = f.machine.load (f.value addr).lo64 (2 ^ k) →
      (∀ r < n, f1.value r = f.value r) →
      f1.value n = ⟨loadTy (2 ^ k), read 128 f.machine.memory (f.value addr).lo64 (2 ^ k)⟩ →
        Does (g n) (n + 1) f1 m) :
    Does (do
      let v ← em.load addr (2 ^ k)
      g v) n f m := by
  rw [Does, Prog.wp_bind, wp_load hk]
  refine (h _ rfl (fun r hr => ?_) (Function.update_self ..)).after_define rfl
  rw [Frame.value_define, if_neg (Nat.ne_of_lt hr)]

/-- One piece of code after another. -/
theorem Does.seq {p q : Emit Unit} {m m' : Machine} (h : Does p n f m)
    (hq : ∀ n1 f1, n ≤ n1 → (∀ r < n, f1.value r = f.value r) → f1.machine = m → Does q n1 f1 m') :
    Does (p >>= fun _ => q) n f m' := by
  rw [Does, Prog.wp_bind]
  refine Prog.wp_mono h ?_
  rintro _ n1 f1 ⟨hle, hkeep, hm⟩
  exact (hq n1 f1 hle hkeep hm).after hle hkeep

theorem store_congr {m : Machine} {addr : U64} {bytes : Nat} {x y : U128}
    (h : x.setWidth (8 * bytes) = y.setWidth (8 * bytes)) : m.store addr bytes x = m.store addr bytes y := by
  rw [Machine.store, Machine.store, write_congr h]

theorem pow_le {k b : Nat} (hk : k ≤ b) : 8 * 2 ^ k ≤ 8 * 2 ^ b :=
  Nat.mul_le_mul_left 8 (Nat.pow_le_pow_right (by decide) hk)

/-- A node that stores a value whose low bits are known. -/
theorem does_store {k : Nat} (hk : k ≤ 4) (addr value : ValueRef) {data : BitVec (8 * 2 ^ k)}
    (h : (f.value value).bits.setWidth (8 * 2 ^ k) = data) :
    Does (em.store addr value (2 ^ k)) n f (Guest.memWrite f.machine (f.value addr).lo64 (2 ^ k) data) := by
  have hle : 8 * 2 ^ k ≤ 128 := pow_le hk
  rw [Does, wp_store hk]
  refine ⟨Nat.le_succ n, fun _ _ => rfl, store_congr ?_⟩
  rw [h, BitVec.setWidth_setWidth (by omega), BitVec.setWidth_eq]

/-- What is known of a loaded value. -/
theorem setWidth_memRead {m : Machine} {addr : U64} {bytes N : Nat} (h : bytes ≤ 16) :
    (Guest.memRead m addr bytes).setWidth N = (read 128 m.memory addr bytes).setWidth N := by
  rw [Guest.memRead, setWidth_read (by omega), setWidth_read (by omega)]

/-- A cut that keeps all bytes. -/
theorem setWidth_read_fits {m : Mem 64} {addr : U64} {bytes N M : Nat} (h : 8 * bytes ≤ N) (h16 : bytes ≤ 16) :
    ((read 128 m addr bytes).setWidth N).setWidth M = (read 128 m addr bytes).setWidth M := by
  rw [setWidth_read (by omega), setWidth_read (by omega), setWidth_read (by omega)]

theorem does_storeGpr {k : Nat} (hk : k ≤ 3) {rt : U8} {addr : ValueRef} (haddr : addr < n) :
    Does (do
      let val ← em.getGpr rt (if k = 3 then .x else .w)
      em.store addr val (2 ^ k)) n f
      (Guest.Transfer.store.exec (2 ^ k) rt.toNat (f.value addr).lo64 f.machine) := by
  rw [Does, Prog.wp_bind, wp_getGpr]
  have hval : ((readGpr f.machine rt.toNat (if k = 3 then .x else .w)).bits).setWidth (8 * 2 ^ k) =
      Guest.X (8 * 2 ^ k) f.machine rt.toNat := by
    by_cases h3 : k = 3
    · subst h3
      rw [if_pos rfl]
      exact BitVec.setWidth_setWidth_of_le _ (by decide)
    · have hle : 8 * 2 ^ k ≤ 32 := pow_le (by omega : k ≤ 2)
      rw [if_neg h3]
      exact (BitVec.setWidth_setWidth_of_le _ (by omega)).trans (BitVec.setWidth_setWidth_of_le _ hle)
  have hdata :
    ((f.define n (readGpr f.machine rt.toNat (if k = 3 then .x else .w))).value n).bits.setWidth (8 * 2 ^ k) =
      Guest.X (8 * 2 ^ k) f.machine rt.toNat := by
    rw [Frame.value_define, if_pos rfl, hval]
  have hstore : Does (em.store addr n (2 ^ k)) (n + 1) _ _ := does_store (by omega : k ≤ 4) addr n hdata
  rw [Frame.value_define, if_neg (Nat.ne_of_lt haddr)] at hstore
  exact hstore.after_define rfl

theorem does_loadUnsigned {k : Nat} (hk : k ≤ 3) {rt : U8} {addr : ValueRef} :
    Does (do
      let v ← em.load addr (2 ^ k)
      emitSetUnsigned em k rt v) n f
      (Guest.Transfer.load.exec (2 ^ k) rt.toNat (f.value addr).lo64 f.machine) := by
  have hbytes : 2 ^ k ≤ 8 := Nat.pow_le_pow_right (by decide) hk
  refine does_load (by omega) fun f1 hm _ hv => ?_
  have hexec : Guest.Transfer.load.exec (2 ^ k) rt.toNat (f.value addr).lo64 f.machine =
      f1.machine.writeX rt.toNat ((read 128 f.machine.memory (f.value addr).lo64 (2 ^ k)).setWidth 64) := by
    rw [hm, ← setWidth_memRead (by omega)]
    rfl
  rw [emitSetUnsigned, hexec]
  split
  · next h2 =>
    have hle : 8 * 2 ^ k ≤ 32 := pow_le h2
    refine does_setW rt n ?_
    rw [hv, Value.lo32, setWidth_read_fits hle (by omega)]
  · refine does_setX rt n ?_
    rw [hv, Value.lo64]

theorem computes_emitSignExtend {w : Nat} (hpos : 0 < w) (hw : w ≤ 64) {v : ValueRef} (hv : v < n) :
    Computes Armlet.step (emitSignExtend em (64 - w) v) n f fun r =>
      r.lo64 = ((f.value v).lo64.setWidth w).signExtend 64 := by
  have hshift := Lanes.shiftLeft_sshiftRight hw (f.value v).lo64
  have hne : v ≠ n := Nat.ne_of_lt hv
  simp [Computes, emitSignExtend, Nat.add_assoc, keeps_refl, hne,
    amount64_ofNat (by omega : 64 - w < 64), hshift]

/-- Code that computes a value, and what is done with it. -/
theorem Does.of_computes {p : Emit ValueRef} {g : ValueRef → Emit Unit} {φ : Value → Prop} {m : Machine}
    (h : Computes Armlet.step p n f φ)
    (hg : ∀ r n1 f1, n ≤ n1 → r < n1 → Keeps n f f1 → φ (f1.value r) → Does (g r) n1 f1 m) :
    Does (p >>= g) n f m :=
  wp_bind_computes h fun r n1 f1 hle hlt hkeep hφ => (hg r n1 f1 hle hlt hkeep hφ).after hle hkeep.value

theorem setWidth_signExtend_of_le {w N M : Nat} (x : BitVec w) (h : M ≤ N) :
    (x.signExtend N).setWidth M = x.signExtend M := by
  refine BitVec.eq_of_getLsbD_eq fun i hi => ?_
  rw [BitVec.getLsbD_setWidth, BitVec.getLsbD_signExtend, BitVec.getLsbD_signExtend, decide_eq_true hi,
    decide_eq_true (by omega : i < N), Bool.true_and]

theorem does_loadSigned {k : Nat} (hk : k ≤ 2) (targetX : Bool) {rt : U8} {addr : ValueRef} :
    Does (do
      let v ← em.load addr (2 ^ k)
      let sx ← emitSignExtend em (64 - 2 ^ k * 8) v
      emitSetSigned em targetX rt sx) n f
      ((Guest.Transfer.loadSigned (if targetX then 64 else 32)).exec (2 ^ k) rt.toNat (f.value addr).lo64
        f.machine) := by
  have hbits : 8 * 2 ^ k ≤ 32 := pow_le hk
  have hpos : 0 < 2 ^ k := Nat.two_pow_pos k
  rw [Nat.mul_comm (2 ^ k) 8]
  refine does_load (by omega) fun f1 hm _ hv => ?_
  refine Does.of_computes (computes_emitSignExtend (by omega) (by omega) (Nat.lt_succ_self n)) ?_
  rintro r n2 f2 - - ⟨hm2, -⟩ hr
  have hexec : (Guest.Transfer.loadSigned (if targetX then 64 else 32)).exec (2 ^ k) rt.toNat
      (f.value addr).lo64 f.machine = f2.machine.writeX rt.toNat
        (((Guest.memRead f.machine (f.value addr).lo64 (2 ^ k)).signExtend
          (if targetX then 64 else 32)).setWidth 64) := by
    rw [hm2, hm]
    rfl
  have hdata : (f1.value n).lo64.setWidth (8 * 2 ^ k) =
      Guest.memRead f.machine (f.value addr).lo64 (2 ^ k) := by
    rw [hv, Value.lo64, setWidth_read_fits (by omega) (by omega), Guest.memRead, setWidth_read (by omega)]
  rw [hdata] at hr
  rw [hexec, emitSetSigned]
  cases targetX
  · refine does_setW rt r (congrArg (BitVec.setWidth 64) ?_)
    rw [← Value.setWidth_lo64, hr]
    exact setWidth_signExtend_of_le _ (by decide)
  · refine does_setX rt r (hr.trans ?_)
    exact (BitVec.setWidth_eq _).symm

/-! ### Vector registers -/

theorem does_setV {p : Emit Unit} {rt : U8} {x : U128}
    (h : ∀ P : Unit → Nat → Frame → Prop, p.wp Armlet.step n f P ↔
      P () (n + 1) { f with machine := f.machine.writeV rt.toNat x }) :
    Does p n f (f.machine.writeV rt.toNat x) :=
  (h _).mpr ⟨Nat.le_succ n, fun _ _ => rfl, rfl⟩

/-- The mask leaves a narrow value as it is, with the type a vector register takes. -/
theorem computes_emitPromote {k : Nat} (hk : k ≤ 2) {v : ValueRef} (hv : v < n) {x : U128}
    (hval : f.value v = ⟨loadTy (2 ^ k), x⟩) (hx : (x.setWidth (8 * 2 ^ k)).setWidth 128 = x) :
    Computes Armlet.step (emitPromote em (2 ^ k) v) n f fun r => vectorPart r = some x := by
  have hne : v ≠ n := Nat.ne_of_lt hv
  have hle : 8 * 2 ^ k ≤ 32 := pow_le hk
  rw [emitPromote]
  split
  · next hlt =>
    have hmask := Lanes.and_lowMask (by omega : 2 ^ k * 8 < 32) (f.value v).lo32
    have hcut : (((f.value v).lo32.setWidth (2 ^ k * 8)).setWidth 32).setWidth 128 = x := by
      rw [Nat.mul_comm, hval, Value.lo32, BitVec.setWidth_setWidth_of_le x hle,
        BitVec.setWidth_setWidth (by omega), hx]
    rw [Computes, Prog.wp_bind, wp_constU32, wp_and]
    refine ⟨Nat.le_add_right n 2, Nat.lt_succ_self _, ?_, ?_⟩
    · simp [keeps_refl]
    · simp only [Frame.value_define, if_pos, if_neg hne]
      have hlo := lo32_binaryValue (· &&& ·) (· &&& ·) (f.value v) (.ofU32 .u32 ((1#32 <<< (2 ^ k * 8)) - 1))
      rw [Value.lo32_ofU32] at hlo
      rw [← hmask] at hcut
      exact congrArg some ((congrArg (BitVec.setWidth 128) hlo).trans hcut)
  · next hge =>
    obtain rfl : k = 2 := by
      obtain rfl | rfl | rfl : k = 0 ∨ k = 1 ∨ k = 2 := by omega
      · exact absurd (by decide) hge
      · exact absurd (by decide) hge
      · rfl
    refine computes_pure hv ?_
    rw [hval]
    exact congrArg some hx

theorem does_fpLoad {k : Nat} (hk : k ≤ 4) (raw : U32) {size : Nat} {targetX : Bool} {rt : U8}
    {addr : ValueRef} :
    Does (emitAccess em .fpLoad targetX raw size (2 ^ k) rt addr) n f
      (Guest.Transfer.loadV.exec (2 ^ k) rt.toNat (f.value addr).lo64 f.machine) := by
  have hbytes : 2 ^ k ≤ 16 := Nat.pow_le_pow_right (by decide) hk
  have hexec : Guest.Transfer.loadV.exec (2 ^ k) rt.toNat (f.value addr).lo64 f.machine =
      (f.machine.load (f.value addr).lo64 (2 ^ k)).writeV rt.toNat
        (read 128 f.machine.memory (f.value addr).lo64 (2 ^ k)) := by
    refine congrArg ((f.machine.load (f.value addr).lo64 (2 ^ k)).writeV rt.toNat) ?_
    exact (setWidth_memRead hbytes).trans (BitVec.setWidth_eq _)
  have hfits {N : Nat} (h : 8 * 2 ^ k ≤ N) :
      ((read 128 f.machine.memory (f.value addr).lo64 (2 ^ k)).setWidth N).setWidth 128 =
        read 128 f.machine.memory (f.value addr).lo64 (2 ^ k) :=
    (setWidth_read_fits h hbytes).trans (BitVec.setWidth_eq _)
  rw [hexec, emitAccess]
  obtain rfl | rfl | h2 : k = 4 ∨ k = 3 ∨ k ≤ 2 := by omega
  · rw [if_pos (by decide)]
    refine does_load (k := 4) hk fun f1 hm _ hv => ?_
    rw [← hm]
    refine does_setV fun _ => wp_setVQ rt ?_
    rw [hv]
    rfl
  · rw [if_neg (by decide), if_pos (by decide)]
    refine does_load hk fun f1 hm _ hv => ?_
    rw [← hm]
    refine does_setV fun _ => wp_setVD rt ?_
    rw [hv]
    exact congrArg some (hfits (by decide))
  · have hsmall : 2 ^ k = 1 ∨ 2 ^ k = 2 ∨ 2 ^ k = 4 := by
      obtain rfl | rfl | rfl : k = 0 ∨ k = 1 ∨ k = 2 := by omega
      · decide
      · decide
      · decide
    rw [if_neg (by omega), if_neg (by omega), if_pos hsmall]
    refine does_load hk fun f1 hm _ hv => ?_
    refine Does.of_computes (computes_emitPromote h2 (Nat.lt_succ_self n) hv (hfits (Nat.le_refl _))) ?_
    rintro r n2 f2 - - ⟨hm2, -⟩ hr
    rw [← hm, ← hm2]
    exact does_setV fun _ => wp_setVS rt hr

theorem does_fpStore {k : Nat} (hk : k ≤ 4) (raw : U32) {size : Nat} {targetX : Bool} {rt : U8}
    {addr : ValueRef}
    (haddr : addr < n) : Does (emitAccess em .fpStore targetX raw size (2 ^ k) rt addr) n f
      (Guest.Transfer.storeV.exec (2 ^ k) rt.toNat (f.value addr).lo64 f.machine) := by
  have hstore {v : Value} (hv : v.bits.setWidth (8 * 2 ^ k) = (f.machine.v rt.toNat).setWidth (8 * 2 ^ k)) :
      (em.store addr n (2 ^ k)).wp Armlet.step (n + 1) (f.define n v) fun _ n' f' => n ≤ n' ∧
        (∀ r < n, f'.value r = f.value r) ∧
          f'.machine = Guest.Transfer.storeV.exec (2 ^ k) rt.toNat (f.value addr).lo64 f.machine := by
    have hdata : ((f.define n v).value n).bits.setWidth (8 * 2 ^ k) =
        (f.machine.v rt.toNat).setWidth (8 * 2 ^ k) := by
      rw [Frame.value_define, if_pos rfl, hv]
    have h : Does (em.store addr n (2 ^ k)) (n + 1) (f.define n v) _ := does_store hk addr n hdata
    rw [Frame.value_define, if_neg (Nat.ne_of_lt haddr)] at h
    exact h.after_define rfl
  rw [emitAccess]
  obtain rfl | rfl | h2 : k = 4 ∨ k = 3 ∨ k ≤ 2 := by omega
  · rw [if_pos (by decide), Does, Prog.wp_bind, wp_getVQ]
    exact hstore rfl
  · rw [if_neg (by decide), if_pos (by decide), Does, Prog.wp_bind, wp_getVD]
    exact hstore ((BitVec.setWidth_setWidth_of_le _ (by decide)).trans
      (BitVec.setWidth_setWidth_of_le _ (by decide)))
  · have hsmall : 2 ^ k = 1 ∨ 2 ^ k = 2 ∨ 2 ^ k = 4 := by
      obtain rfl | rfl | rfl : k = 0 ∨ k = 1 ∨ k = 2 := by omega
      · decide
      · decide
      · decide
    have hle : 8 * 2 ^ k ≤ 32 := pow_le h2
    rw [if_neg (by omega), if_neg (by omega), if_pos hsmall, Does, Prog.wp_bind, wp_getVS]
    exact hstore ((BitVec.setWidth_setWidth_of_le _ (by omega)).trans (BitVec.setWidth_setWidth_of_le _ hle))

/-- **The shared part is the transfer.** -/
theorem does_emitAccess (kind : AccessKind) {targetX : Bool} {raw : U32} {size k : Nat} {rt : U8}
    {addr : ValueRef}
    (haddr : addr < n) (hk : k ≤ 4) (hsize : kind.isFp = false → k = size ∧ size ≤ 3)
    (hsigned : kind = .loadS → size ≤ 2) :
    Does (emitAccess em kind targetX raw size (2 ^ k) rt addr) n f
      ((kind.transfer targetX).exec (2 ^ k) rt.toNat (f.value addr).lo64 f.machine) := by
  cases kind with
  | loadU =>
    obtain ⟨rfl, h3⟩ := hsize rfl
    exact does_loadUnsigned h3
  | loadS =>
    obtain ⟨rfl, -⟩ := hsize rfl
    exact does_loadSigned (hsigned rfl) targetX
  | store =>
    obtain ⟨rfl, h3⟩ := hsize rfl
    exact does_storeGpr h3 haddr
  | fpLoad => exact does_fpLoad hk raw
  | fpStore => exact does_fpStore hk raw haddr

/-! ## The translators -/

/-- The loads and stores that the four classes share; the mnemonics of the unscaled ones have a
`U`. -/
inductive LdstOp where
  | ldr | ldrb | ldrh | ldrsb | ldrsh | ldrsw | str | strb | strh | ldrFt | strFt
  deriving DecidableEq, Repr

namespace LdstOp

def kind : LdstOp → AccessKind
  | ldr | ldrb | ldrh => .loadU
  | ldrsb | ldrsh | ldrsw => .loadS
  | str | strb | strh => .store
  | ldrFt => .fpLoad
  | strFt => .fpStore

/-- Whether the target is a register of 64 bits: `opc` tells it for signed loads. -/
def targetX (op : LdstOp) (raw : U32) : Bool :=
  match op with
  | ldr | ldrsw | str => true
  | ldrsb | ldrsh => bit raw 22 = 0
  | _ => false

def qForm (op : LdstOp) (raw : U32) : Prop := op.kind.isFp ∧ bits raw 30 2 = 0 ∧ bit raw 23 = 1

instance (op : LdstOp) (raw : U32) : Decidable (op.qForm raw) := inferInstanceAs (Decidable (_ ∧ _))

def bytes (op : LdstOp) (raw : U32) : Nat := if op.qForm raw then 16 else 1 <<< bits raw 30 2

/-- The fields that the decoder read the instruction from. -/
def Decoded (op : LdstOp) (raw : U32) : Prop :=
  match op with
  | ldr => bit raw 26 = 0 ∧ bits raw 22 2 = 0b01 ∧ 2 ≤ bits raw 30 2
  | ldrb => bit raw 26 = 0 ∧ bits raw 22 2 = 0b01 ∧ bits raw 30 2 = 0
  | ldrh => bit raw 26 = 0 ∧ bits raw 22 2 = 0b01 ∧ bits raw 30 2 = 1
  | ldrsb => bit raw 26 = 0 ∧ 0b10 ≤ bits raw 22 2 ∧ bits raw 30 2 = 0
  | ldrsh => bit raw 26 = 0 ∧ 0b10 ≤ bits raw 22 2 ∧ bits raw 30 2 = 1
  | ldrsw => bit raw 26 = 0 ∧ bits raw 22 2 = 0b10 ∧ bits raw 30 2 = 2
  | str => bit raw 26 = 0 ∧ bits raw 22 2 = 0b00 ∧ 2 ≤ bits raw 30 2
  | strb => bit raw 26 = 0 ∧ bits raw 22 2 = 0b00 ∧ bits raw 30 2 = 0
  | strh => bit raw 26 = 0 ∧ bits raw 22 2 = 0b00 ∧ bits raw 30 2 = 1
  | ldrFt => bit raw 26 = 1 ∧ bit raw 22 = 1
  | strFt => bit raw 26 = 1 ∧ bit raw 22 = 0

end LdstOp

/-- The access of an instruction at an address. -/
def emitLdst (em : IrEmitter) (op : LdstOp) (raw : U32) (addr : ValueRef) : Emit Unit :=
  emitAccess em op.kind (op.targetX raw) raw (bits raw 30 2) (op.bytes raw) (regField raw 0) addr

/-- The decoder's class of loads and stores with an unsigned offset. -/
inductive LdstPos where
  | access (op : LdstOp) (i : U32)
  | prfm (i : U32)

def LdstPos.translate (em : IrEmitter) : LdstPos → Emit InstStatus
  | prfm _ => return .continues
  | access op raw => do
    let base ← em.getXOrSp (regField raw 5) true
    let off ← em.constU64 (BitVec.ofNat 64 (bits raw 10 12 * op.bytes raw))
    let addr ← em.add base off .x
    emitLdst em op raw addr
    return .continues

/-- The class with an unscaled offset. -/
inductive LdstUnscaled where
  | access (op : LdstOp) (i : U32)
  | prfum (i : U32)
  | other (i : U32)

/-- The offset of nine bits. -/
def imm9 (raw : U32) : U64 := signExtend (BitVec.ofNat 64 (bits raw 12 9)) 9

def LdstUnscaled.translate (em : IrEmitter) : LdstUnscaled → Emit InstStatus
  | prfum _ => return .continues
  | other _ => .fail (.error (.unsupported em.currentPc 0))
  | access op raw => do
    let base ← em.getXOrSp (regField raw 5) true
    let off ← em.constU64 (imm9 raw)
    let addr ← em.add base off .x
    emitLdst em op raw addr
    return .continues

/-- The class that writes the base back. -/
inductive LdstImm9 where
  | access (op : LdstOp) (i : U32)
  | other (i : U32)

def LdstImm9.emitWriteback (em : IrEmitter) (mode : Nat) (rn : U8) (effectiveAddr : ValueRef) : Emit Unit :=
  if mode = 0b01 ∨ mode = 0b11 then em.setXOrSp rn effectiveAddr true else pure ()

def LdstImm9.translate (em : IrEmitter) : LdstImm9 → Emit InstStatus
  | other _ => .fail (.error (.unsupported em.currentPc 0))
  | access op raw => do
    let mode := bits raw 10 2
    let base ← em.getXOrSp (regField raw 5) true
    let off ← em.constU64 (imm9 raw)
    let effectiveAddr ← em.add base off .x
    let accessAddr := if mode = 0b01 then base else effectiveAddr
    emitLdst em op raw accessAddr
    LdstImm9.emitWriteback em mode (regField raw 5) effectiveAddr
    return .continues

/-- The class with a register as the offset. -/
inductive LdstRegoff where
  | access (op : LdstOp) (i : U32)
  | prfm (i : U32)

namespace LdstRegoff

/-- The width of an offset and whether it is signed; the other values of the field are reserved. -/
def extraction : Nat → Option (Nat × Bool)
  | 0b010 => some (32, false)
  | 0b011 => some (64, false)
  | 0b110 => some (32, true)
  | 0b111 => some (64, true)
  | _ => none

def emitScale (em : IrEmitter) (op : LdstOp) (raw : U32) (off : ValueRef) : Emit ValueRef :=
  if bit raw 12 = 1 then do
    let shamtV := if op.qForm raw then 4 else bits raw 30 2
    let shamt ← em.constU64 (BitVec.ofNat 64 shamtV)
    em.lsl off shamt .x
  else pure off

def translate (em : IrEmitter) : LdstRegoff → Emit InstStatus
  | prfm _ => return .continues
  | access op raw => do
    let base ← em.getXOrSp (regField raw 5) true
    let off ← em.getX (regField raw 16)
    match extraction (bits raw 13 3) with
    | none => .fail (.error (.decode em.currentPc raw))
    | some (extractedWidth, signed) => do
      let off ← AddsubExt.emitExtend em extractedWidth signed off
      let off ← emitScale em op raw off
      let addr ← em.add base off .x
      emitLdst em op raw addr
      return .continues

end LdstRegoff

/-! ## The architecture's reading of the fields -/

/-- The instruction of a word, with the offset that its class gives to a machine and a scale. -/
def armSingle (raw : U32) (index : Guest.Index) (offset : Machine → Nat → U64) : Option (Machine → Machine) :=
  (Guest.decodeSingle (bits raw 30 2) (bit raw 26) (bits raw 22 2)).map fun (transfer, scale) m =>
    Guest.indexed index (bits raw 5 5) (offset m scale) (transfer.exec (2 ^ scale) (bits raw 0 5)) m

theorem bits_opc (raw : U32) : bits raw 22 2 = 2 * bit raw 23 + bit raw 22 := by
  have hbits := bits_eq raw 22 (by decide : 2 < 32)
  have h22 := bit_eq raw 22
  have h23 := bit_eq raw 23
  omega

namespace LdstOp

variable {op : LdstOp} {raw : U32}

/-- The logarithm of the bytes. -/
def scale (op : LdstOp) (raw : U32) : Nat := if op.qForm raw then 4 else bits raw 30 2

theorem bytes_eq (op : LdstOp) (raw : U32) : op.bytes raw = 2 ^ op.scale raw := by
  rw [bytes, scale]
  split
  · rfl
  · exact Nat.one_shiftLeft _

theorem scale_le (op : LdstOp) (raw : U32) : op.scale raw ≤ 4 := by
  have hsize := bits_lt raw 30 (by decide : 2 < 32)
  rw [scale]
  split
  · exact Nat.le_refl 4
  · omega

/-- The encodings of vector registers with a larger `opc`: only bytes have it, for 16 of them. -/
def Unallocated (op : LdstOp) (raw : U32) : Prop := op.kind.isFp ∧ bits raw 30 2 ≠ 0 ∧ bit raw 23 = 1

instance (op : LdstOp) (raw : U32) : Decidable (op.Unallocated raw) := inferInstanceAs (Decidable (_ ∧ _))

theorem decodeSingle_vector {L : Bool} (hL : bit raw 22 = L.toNat) :
    Guest.decodeSingle (bits raw 30 2) 1 (bits raw 22 2) =
      if bits raw 30 2 ≠ 0 ∧ bit raw 23 = 1 then none
      else some (if L then .loadV else .storeV,
        if bits raw 30 2 = 0 ∧ bit raw 23 = 1 then 4 else bits raw 30 2) := by
  have hsize := bits_lt raw 30 (by decide : 2 < 32)
  have hL2 := L.toNat_lt
  have hopc := bits_opc raw
  have hdiv : bits raw 22 2 / 2 = bit raw 23 := by omega
  have hmod : bits raw 22 2 % 2 = L.toNat := by omega
  have hload : (L.toNat = 1) = (L = true) := by cases L <;> simp
  rw [Guest.decodeSingle.eq_def, if_pos rfl, hdiv, hmod]
  rcases bit_cases raw 23 with h | h
  · simp [h, hload, show ¬ 4 < bits raw 30 2 by omega]
  · by_cases h0 : bits raw 30 2 = 0
    · simp [h, h0, hload]
    · simp [h, h0, show 4 < 4 + bits raw 30 2 by omega]

theorem general_of_not_fp (h : op.kind.isFp = false) (raw : U32) :
    ¬ op.Unallocated raw ∧ op.scale raw = bits raw 30 2 :=
  ⟨fun hno => Bool.false_ne_true (h.symm.trans hno.1), if_neg fun hq => Bool.false_ne_true (h.symm.trans hq.1)⟩

theorem size_le_of_loadS (h : op.Decoded raw) (hkind : op.kind = .loadS) : bits raw 30 2 ≤ 2 := by
  cases op with
  | ldrsb | ldrsh | ldrsw =>
    obtain ⟨-, -, hsize⟩ := h
    omega
  | _ => cases hkind

/-- **The fields say what the translators read**, where an instruction is allocated. -/
theorem decodeSingle_eq (h : op.Decoded raw) : Guest.decodeSingle (bits raw 30 2) (bit raw 26) (bits raw 22 2) =
    if op.Unallocated raw then none else some (op.kind.transfer (op.targetX raw), op.scale raw) := by
  have hopc := bits_opc raw
  have h22 := bit_cases raw 22
  have h23 := bit_cases raw 23
  have hlarge : 2 ≤ bits raw 30 2 → bits raw 30 2 = 2 ∨ bits raw 30 2 = 3 := by
    have hsize := bits_lt raw 30 (by decide : 2 < 32)
    omega
  have hsigned : 2 ≤ bits raw 22 2 →
      (bit raw 22 = 0 ∧ bits raw 22 2 = 2) ∨ (bit raw 22 = 1 ∧ bits raw 22 2 = 3) := by omega
  by_cases hfp : op.kind.isFp
  · cases op with
    | ldrFt =>
      rw [h.1, decodeSingle_vector (L := true) h.2]
      simp only [Unallocated, scale, qForm, hfp, true_and]
      rfl
    | strFt =>
      rw [h.1, decodeSingle_vector (L := false) h.2]
      simp only [Unallocated, scale, qForm, hfp, true_and]
      rfl
    | _ => cases hfp
  · -- The other registers are general ones, and the fields are those of the mnemonic.
    obtain ⟨hno, hscale⟩ := general_of_not_fp (Bool.not_eq_true _ ▸ hfp) raw
    rw [if_neg hno, hscale]
    cases op with
    | ldr | str =>
      obtain ⟨hV, hopc, hsize⟩ := h
      rw [hV, hopc]
      rcases hlarge hsize with hsize | hsize
      · rw [hsize]
        rfl
      · rw [hsize]
        rfl
    | ldrb | ldrh | ldrsw | strb | strh =>
      obtain ⟨hV, hopc, hsize⟩ := h
      rw [hV, hopc, hsize]
      rfl
    | ldrsb | ldrsh =>
      obtain ⟨hV, hopc, hsize⟩ := h
      rw [hV, hsize, targetX]
      rcases hsigned hopc with ⟨h22, hopc⟩ | ⟨h22, hopc⟩
      · rw [hopc, h22]
        rfl
      · rw [hopc, h22]
        rfl
    | ldrFt | strFt => exact absurd rfl hfp

end LdstOp

/-! ## What a translator owes -/

/-- The code of a translator leaves a machine. -/
def Ends (p : Emit InstStatus) (n : Nat) (f : Frame) (m : Machine) : Prop :=
  p.wp Armlet.step n f fun st _ f' => st = .continues ∧ f'.machine = m

/-- What is accepted has an instruction in the architecture, and the code is that instruction. -/
def FollowsArm (p : Emit InstStatus) (arm : Option (Machine → Machine)) (n : Nat) (f : Frame) : Prop :=
  (∃ st, p.result n = .ok st) → ∃ exec, arm = some exec ∧ Ends p n f (exec f.machine)

theorem ends_pure : Ends (pure .continues) n f f.machine := ⟨rfl, rfl⟩

theorem Ends.machine_unique {p : Emit InstStatus} {m m' : Machine} (h : Ends p n f m)
    (h' : Ends p n f m') : m = m' := by
  obtain ⟨_, _, _, hm, hm'⟩ := Prog.wp_common h h'
  exact hm.2.symm.trans hm'.2

/-- Code that leaves a machine is accepted. -/
theorem followsArm_iff {p : Emit InstStatus} {arm : Option (Machine → Machine)} {m : Machine}
    (h : Ends p n f m) :
    FollowsArm p arm n f ↔ ∃ exec, arm = some exec ∧ exec f.machine = m := by
  obtain ⟨st, _, hres, -, -⟩ := (Prog.wp_iff p).mp h
  constructor
  · intro hf
    obtain ⟨exec, harm, hexec⟩ := hf ⟨st, hres⟩
    exact ⟨exec, harm, hexec.machine_unique h⟩
  · rintro ⟨exec, harm, rfl⟩ -
    exact ⟨exec, harm, h⟩

/-- Nothing is owed to what is rejected, whatever was pushed before. -/
theorem followsArm_rejected {α : Type} {p : Emit α} {g : α → Emit InstStatus} {arm : Option (Machine → Machine)}
    (h : ∀ a m st, (g a).result m ≠ .ok st) : FollowsArm (p >>= g) arm n f := by
  rintro ⟨st, hst⟩
  obtain ⟨a, m, hm⟩ := Prog.result_bind hst
  exact absurd hm (h a m st)

theorem followsArm_fail {e : Stop} {arm : Option (Machine → Machine)} : FollowsArm (.fail e) arm n f := by
  rintro ⟨st, hst⟩
  cases hst

/-- Code, and what comes after it. -/
theorem Ends.of_does {p : Emit Unit} {q : Emit InstStatus} {m m' : Machine} (h : Does p n f m)
    (hq : ∀ n1 f1, n ≤ n1 → (∀ r < n, f1.value r = f.value r) → f1.machine = m → Ends q n1 f1 m') :
    Ends (p >>= fun _ => q) n f m' := by
  rw [Ends, Prog.wp_bind]
  refine Prog.wp_mono h ?_
  rintro _ n1 f1 ⟨hle, hkeep, hm⟩
  exact hq n1 f1 hle hkeep hm

theorem Ends.of_computes {p : Emit ValueRef} {g : ValueRef → Emit InstStatus} {φ : Value → Prop} {m : Machine}
    (h : Computes Armlet.step p n f φ)
    (hg : ∀ r n1 f1, n ≤ n1 → r < n1 → Keeps n f f1 → φ (f1.value r) → Ends (g r) n1 f1 m) :
    Ends (p >>= g) n f m := wp_bind_computes h hg

/-- The base of an address. -/
theorem computes_base (rn : U8) :
    Computes Armlet.step (em.getXOrSp rn true) n f fun v => v.lo64 = Guest.base f.machine rn.toNat := by
  have hval :
    (Value.ofU64 .u64 (if rn.toNat = zrEncoding ∧ true then f.machine.sp else f.machine.readX rn.toNat)).lo64 =
      Guest.base f.machine rn.toNat := by
    rw [Value.lo64_ofU64, Guest.base, Machine.readX]
    split <;> simp_all
  exact computes_of_value (fun _ => em.wp_getXOrSp rn true) hval

theorem computes_add {a b : ValueRef} :
    Computes Armlet.step (em.add a b .x) n f fun v => v.lo64 = (f.value a).lo64 + (f.value b).lo64 :=
  computes_of_value (fun _ => em.wp_add .x) (lo64_binaryValue ..)

theorem computes_constU64 (x : U64) : Computes Armlet.step (em.constU64 x) n f fun v => v.lo64 = x :=
  computes_of_value (fun _ => em.wp_constU64 x) (Value.lo64_ofU64 .u64 x)

theorem computes_getX {reg : U8} :
    Computes Armlet.step (em.getX reg) n f fun v => v.lo64 = f.machine.readX reg.toNat :=
  computes_of_value (fun _ => em.wp_getX reg) (Value.lo64_ofU64 .u64 _)

/-- A base, a constant offset and their sum. -/
theorem ends_offset {rn : U8} {offset : U64} {g : ValueRef → ValueRef → Emit InstStatus} {m : Machine}
    (h : ∀ base addr n1 f1, base < n1 → addr < n1 → f1.machine = f.machine →
      (f1.value base).lo64 = Guest.base f.machine rn.toNat →
      (f1.value addr).lo64 = Guest.base f.machine rn.toNat + offset → Ends (g base addr) n1 f1 m) :
    Ends (do
      let base ← em.getXOrSp rn true
      let off ← em.constU64 offset
      let addr ← em.add base off .x
      g base addr) n f m := by
  refine Ends.of_computes (computes_base rn) fun base n1 f1 hle1 hbase hkeep1 hval1 => ?_
  refine Ends.of_computes (computes_constU64 offset) fun off n2 f2 hle2 hoff hkeep2 hval2 => ?_
  refine Ends.of_computes computes_add fun addr n3 f3 hle3 haddr hkeep3 hval3 => ?_
  have hbase2 := hkeep2.value base hbase
  have hbase3 := hkeep3.value base (Nat.lt_of_lt_of_le hbase hle2)
  refine h base addr n3 f3 ?_ haddr ?_ ?_ ?_
  · exact Nat.lt_of_lt_of_le hbase (hle2.trans hle3)
  · exact hkeep3.machine.trans (hkeep2.machine.trans hkeep1.machine)
  · rw [hbase3, hbase2, hval1]
  · rw [hval3, hval2, hbase2, hval1]

theorem does_emitLdst (op : LdstOp) (raw : U32) (h : op.Decoded raw) {addr : ValueRef} (haddr : addr < n) :
    Does (emitLdst em op raw addr) n f ((op.kind.transfer (op.targetX raw)).exec (2 ^ op.scale raw)
      (bits raw 0 5)
      (f.value addr).lo64 f.machine) := by
  have hsize := bits_lt raw 30 (by decide : 2 < 32)
  rw [emitLdst, op.bytes_eq, ← toNat_regField raw 0]
  refine does_emitAccess op.kind haddr (op.scale_le raw) ?_ ?_
  · intro hfp
    exact ⟨(LdstOp.general_of_not_fp hfp raw).2, by omega⟩
  · exact LdstOp.size_le_of_loadS h

/-! ## The four classes -/

theorem map_eq_some_iff_of_unallocated {α β : Type} {c : Prop} [Decidable c] {a : α} {g : α → β} {P : β → Prop}
    (h : P (g a)) : (∃ b, (if c then none else some a).map g = some b ∧ P b) ↔ ¬ c := by
  split
  · next hc => simp [hc]
  · next hc => simp [hc, h]

/-- **An instruction of one register**, whose code makes the access of the fields: it follows the
architecture except where that has no instruction. -/
theorem followsArm_single {op : LdstOp} {raw : U32} (hdec : op.Decoded raw) {p : Emit InstStatus}
    {index : Guest.Index}
    (offset : Machine → Nat → U64)
    (h : Ends p n f (Guest.indexed index (bits raw 5 5) (offset f.machine (op.scale raw))
      ((op.kind.transfer (op.targetX raw)).exec (2 ^ op.scale raw) (bits raw 0 5)) f.machine)) :
    FollowsArm p (armSingle raw index offset) n f ↔ ¬ op.Unallocated raw := by
  rw [followsArm_iff h, armSingle, LdstOp.decodeSingle_eq hdec]
  exact map_eq_some_iff_of_unallocated rfl

/-- A prefetch is no access. -/
theorem followsArm_prefetch {raw : U32} (hV : bit raw 26 = 0) (hopc : bits raw 22 2 = 0b10)
    (hsize : bits raw 30 2 = 3)
    {offset : Machine → Nat → U64} : FollowsArm (pure .continues) (armSingle raw .offset offset) n f := by
  rw [followsArm_iff ends_pure, armSingle, hV, hopc, hsize]
  exact ⟨_, rfl, rfl⟩

/-- The fields of a prefetch. -/
def PrefetchFields (raw : U32) : Prop := bit raw 26 = 0 ∧ bits raw 22 2 = 0b10 ∧ bits raw 30 2 = 3

namespace LdstPos

def Decoded : LdstPos → Prop
  | access op raw => op.Decoded raw
  | prfm raw => PrefetchFields raw

def arm : LdstPos → Option (Machine → Machine)
  | access _ raw | prfm raw =>
    armSingle raw .offset fun _ scale => BitVec.ofNat 64 (bits raw 10 12 <<< scale)

/-- What is accepted though no instruction is allocated there. -/
def Unallocated : LdstPos → Prop
  | access op raw => op.Unallocated raw
  | prfm _ => False

theorem followsArm (insn : LdstPos) (h : insn.Decoded) :
    FollowsArm (insn.translate em) insn.arm n f ↔ ¬ insn.Unallocated := by
  cases insn with
  | prfm raw =>
    obtain ⟨hV, hopc, hsize⟩ := h
    rw [translate, arm, Unallocated]
    exact iff_of_true (followsArm_prefetch hV hopc hsize) not_false
  | access op raw =>
    have hends : Ends ((access op raw).translate em) n f
        (Guest.indexed .offset (bits raw 5 5) (BitVec.ofNat 64 (bits raw 10 12 <<< op.scale raw))
          ((op.kind.transfer (op.targetX raw)).exec (2 ^ op.scale raw) (bits raw 0 5)) f.machine) := by
      rw [translate]
      refine ends_offset fun base addr n1 f1 _ haddr hm _ hval => ?_
      refine Ends.of_does (does_emitLdst op raw h haddr) fun n2 f2 _ _ hm2 => ?_
      rw [hval, hm, op.bytes_eq, toNat_regField, ← Nat.shiftLeft_eq] at hm2
      rw [Guest.indexed, ← hm2]
      exact ends_pure
    exact followsArm_single h (fun _ scale => BitVec.ofNat 64 (bits raw 10 12 <<< scale)) hends

end LdstPos

theorem imm9_eq (raw : U32) : imm9 raw = (BitVec.ofNat 9 (bits raw 12 9)).signExtend 64 := by
  rw [imm9, signExtend_eq _ (by decide), BitVec.setWidth_ofNat_of_le (by decide)]

namespace LdstUnscaled

def Decoded : LdstUnscaled → Prop
  | access op raw => op.Decoded raw
  | prfum raw => PrefetchFields raw
  | other _ => True

/-- The instructions of the class that are not translated are left out. -/
def arm : LdstUnscaled → Option (Machine → Machine)
  | access _ raw | prfum raw => armSingle raw .offset fun _ _ => (BitVec.ofNat 9 (bits raw 12 9)).signExtend 64
  | other _ => none

def Unallocated : LdstUnscaled → Prop
  | access op raw => op.Unallocated raw
  | prfum _ | other _ => False

theorem followsArm (insn : LdstUnscaled) (h : insn.Decoded) :
    FollowsArm (insn.translate em) insn.arm n f ↔ ¬ insn.Unallocated := by
  cases insn with
  | prfum raw =>
    obtain ⟨hV, hopc, hsize⟩ := h
    rw [translate, arm, Unallocated]
    exact iff_of_true (followsArm_prefetch hV hopc hsize) not_false
  | other raw => exact iff_of_true followsArm_fail not_false
  | access op raw =>
    have hends : Ends ((access op raw).translate em) n f
        (Guest.indexed .offset (bits raw 5 5) ((BitVec.ofNat 9 (bits raw 12 9)).signExtend 64)
          ((op.kind.transfer (op.targetX raw)).exec (2 ^ op.scale raw) (bits raw 0 5)) f.machine) := by
      rw [translate]
      refine ends_offset fun base addr n1 f1 _ haddr hm _ hval => ?_
      refine Ends.of_does (does_emitLdst op raw h haddr) fun n2 f2 _ _ hm2 => ?_
      rw [hval, hm, toNat_regField, imm9_eq] at hm2
      rw [Guest.indexed, ← hm2]
      exact ends_pure
    exact followsArm_single h (fun _ _ => (BitVec.ofNat 9 (bits raw 12 9)).signExtend 64) hends

end LdstUnscaled

namespace LdstImm9

/-- The class has two modes. -/
def Decoded : LdstImm9 → Prop
  | access op raw => op.Decoded raw ∧ (bits raw 10 2 = 0b01 ∨ bits raw 10 2 = 0b11)
  | other _ => True

/-- The index of a mode. -/
def index (raw : U32) : Guest.Index := if bits raw 10 2 = 0b01 then .post else .pre

def arm : LdstImm9 → Option (Machine → Machine)
  | access _ raw => armSingle raw (index raw) fun _ _ => (BitVec.ofNat 9 (bits raw 12 9)).signExtend 64
  | other _ => none

def Unallocated : LdstImm9 → Prop
  | access op raw => op.Unallocated raw
  | other _ => False

theorem followsArm (insn : LdstImm9) (h : insn.Decoded) :
    FollowsArm (insn.translate em) insn.arm n f ↔ ¬ insn.Unallocated := by
  cases insn with
  | other raw => exact iff_of_true followsArm_fail not_false
  | access op raw =>
    obtain ⟨hdec, hmode⟩ := h
    have hends : Ends ((access op raw).translate em) n f
        (Guest.indexed (index raw) (bits raw 5 5) ((BitVec.ofNat 9 (bits raw 12 9)).signExtend 64)
          ((op.kind.transfer (op.targetX raw)).exec (2 ^ op.scale raw) (bits raw 0 5)) f.machine) := by
      rw [translate]
      refine ends_offset fun base addr n1 f1 hbase haddr hm hval1 hval2 => ?_
      have haccess : (if bits raw 10 2 = 0b01 then base else addr) < n1 := by split <;> assumption
      refine Ends.of_does (does_emitLdst op raw hdec haccess) fun n2 f2 _ hkeep hm2 => ?_
      rw [emitWriteback, if_pos hmode, Ends, Prog.wp_bind, wp_setXOrSp]
      refine ⟨rfl, ?_⟩
      rw [toNat_regField] at hval1 hval2 ⊢
      rw [hkeep addr haddr, hm2, hm, hval2, imm9_eq, index]
      rcases hmode with hpost | hpre
      · rw [if_pos hpost, if_pos hpost, hval1]
        rfl
      · have hne : bits raw 10 2 ≠ 0b01 := by omega
        rw [if_neg hne, if_neg hne, hval2, imm9_eq]
        rfl
    exact followsArm_single hdec (fun _ _ => (BitVec.ofNat 9 (bits raw 12 9)).signExtend 64) hends

end LdstImm9

namespace LdstRegoff

def Decoded : LdstRegoff → Prop
  | access op raw => op.Decoded raw
  | prfm raw => PrefetchFields raw

/-- The offset of the architecture. -/
def armOffset (raw : U32) (m : Machine) (scale : Nat) : U64 :=
  Guest.extendReg (Guest.X 64 m (bits raw 16 5)) (bits raw 13 3) (if bit raw 12 = 1 then scale else 0)

def arm : LdstRegoff → Option (Machine → Machine)
  | access _ raw | prfm raw => if bit raw 14 = 0 then none else armSingle raw .offset (armOffset raw)

/-- A prefetch is accepted with every extension. -/
def Unallocated : LdstRegoff → Prop
  | access op raw => bit raw 14 = 1 ∧ op.Unallocated raw
  | prfm raw => bit raw 14 = 0

/-- The reserved values have the middle bit clear. -/
theorem extraction_eq (raw : U32) : extraction (bits raw 13 3) =
    if bit raw 14 = 0 then none else some (Guest.decodeExtend (bits raw 13 3)) := by
  have htable : ∀ option < 8, extraction option =
      if option / 2 % 2 = 0 then none else some (Guest.decodeExtend option) := by decide
  have hlt := bits_lt raw 13 (by decide : 3 < 32)
  have hmiddle : bits raw 13 3 / 2 % 2 = bit raw 14 := by
    have hbits := bits_eq raw 13 (by decide : 3 < 32)
    have hbit := bit_eq raw 14
    omega
  rw [htable _ hlt, hmiddle]

theorem computes_emitScale (op : LdstOp) (raw : U32) {off : ValueRef} (hoff : off < n) :
    Computes Armlet.step (emitScale em op raw off) n f fun v =>
      v.lo64 = (f.value off).lo64 <<< (if bit raw 12 = 1 then op.scale raw else 0) := by
  have hne : off ≠ n := Nat.ne_of_lt hoff
  have hscale := op.scale_le raw
  have hamount : amount64 (BitVec.ofNat 64 (if op.qForm raw then 4 else bits raw 30 2)) = op.scale raw :=
    amount64_ofNat (by omega : op.scale raw < 64)
  rw [emitScale]
  split
  · simp [Computes, Nat.add_assoc, keeps_refl, hne, hamount]
  · exact computes_pure hoff (by simp)

theorem followsArm (insn : LdstRegoff) (h : insn.Decoded) :
    FollowsArm (insn.translate em) insn.arm n f ↔ ¬ insn.Unallocated := by
  cases insn with
  | prfm raw =>
    obtain ⟨hV, hopc, hsize⟩ := h
    rw [translate, arm, Unallocated]
    split
    · next hno =>
      rw [followsArm_iff ends_pure]
      simp [hno]
    · next hyes => exact iff_of_true (followsArm_prefetch hV hopc hsize) hyes
  | access op raw =>
    have hext := extraction_eq raw
    rw [translate, arm, Unallocated]
    rcases bit_cases raw 14 with hno | hyes
    · -- The registers are read before the extension is rejected.
      rw [if_pos hno] at hext
      rw [hext]
      refine iff_of_true (followsArm_rejected fun base m st hst => ?_) (by simp [hno])
      obtain ⟨off, m', hst⟩ := Prog.result_bind hst
      cases hst
    · rw [if_neg (by omega)] at hext
      rw [hext, if_neg (by omega), hyes]
      simp only [true_and]
      refine followsArm_single h (armOffset raw) ?_
      obtain ⟨hpos, hwidth⟩ := Guest.decodeExtend_bounds (bits raw 13 3)
      refine Ends.of_computes (computes_base (regField raw 5)) fun base n1 f1 hle1 hbase hkeep1 hval1 => ?_
      refine Ends.of_computes computes_getX fun rm n2 f2 hle2 hrm hkeep2 hval2 => ?_
      refine Ends.of_computes (computes_emitExtend hpos hwidth hrm _)
        fun ext n3 f3 hle3 hext3 hkeep3 hval3 => ?_
      refine Ends.of_computes (computes_emitScale op raw hext3) fun off n4 f4 hle4 hoff hkeep4 hval4 => ?_
      refine Ends.of_computes computes_add fun addr n5 f5 hle5 haddr hkeep5 hval5 => ?_
      have hkeep := ((hkeep2.trans hkeep3 hle2).trans hkeep4 (hle2.trans hle3))
      have hm : f5.machine = f.machine := (hkeep5.machine.trans hkeep.machine).trans hkeep1.machine
      have haddress : (f5.value addr).lo64 =
          Guest.base f.machine (bits raw 5 5) + armOffset raw f.machine (op.scale raw) := by
        have hscale := op.scale_le raw
        rw [hval5, hkeep.value base hbase, hval1, hval4, hval3, hval2, hkeep1.machine, armOffset,
          Guest.X, Guest.extendReg_eq (Nat.le_refl 64) (by split <;> omega), Guest.extended,
          BitVec.setWidth_eq, toNat_regField, toNat_regField]
      refine Ends.of_does (does_emitLdst op raw h haddr) fun n6 f6 _ _ hm6 => ?_
      rw [haddress, hm] at hm6
      rw [Guest.indexed, ← hm6]
      exact ends_pure

end LdstRegoff

end Rustarmic
