import Rustarmic.Frontend.Emitter
import Rustarmic.Frontend.Translator
import Rustarmic.Guest.LoadStore

/-!
# The emitter of loads and stores

The functions of `IrEmitter` for memory and vector registers, with one rule for each.

* `wp_load`, `wp_store`, `wp_setV` — the nodes.
* `vectorPart` — what a vector register takes of a value.

An access has one, two, four, eight or sixteen bytes, which the source writes as a `match` on the
number with an `unreachable!` behind it.  The rules are stated of `2 ^ k` with `k ≤ 4`, which is how
the translators come by the number, so nobody who follows a translator meets the branch that fails.

Values are kept by type, and types matter here more than elsewhere.  A byte is loaded as a `u8`, and
it is the *type* that decides how much of a vector register `SetV` writes: the rest is cleared, so a
load of a byte into `B0` leaves zeros above it.  `vectorPart` says which types may go into a vector
register, and it has no value for the others; the rules for `set_v_s`, `set_v_d` and `set_v_q` have
it as a hypothesis, since the three functions push the same node.
-/

set_option autoImplicit false

namespace Rustarmic

open Emitting Interp ModularMemory

/-- `sign_extend` of the low bits of a field. -/
def signExtend (value : U64) (bits : Nat) : U64 := (value <<< (64 - bits)).sshiftRight (64 - bits)

theorem signExtend_eq (value : U64) {bits : Nat} (h : bits ≤ 64) :
    signExtend value bits = (value.setWidth bits).signExtend 64 := Lanes.shiftLeft_sshiftRight h value

namespace IrEmitter

variable (em : IrEmitter)

/-! ## The emitter -/

def setXOrSp (reg : U8) (value : ValueRef) (spForm : Bool) : Emit Unit :=
  if reg.toNat = zrEncoding then if spForm then em.setSp value else pure () else em.setX reg value

def load (addr : ValueRef) (sizeBytes : Nat) : Emit ValueRef :=
  match sizeBytes with
  | 1 => em.push ((Armlet.new .load8 .u8).withArgs [addr])
  | 2 => em.push ((Armlet.new .load16 .u16).withArgs [addr])
  | 4 => em.push ((Armlet.new .load32 .u32).withArgs [addr])
  | 8 => em.push ((Armlet.new .load64 .u64).withArgs [addr])
  | 16 => em.push ((Armlet.new .load128 .u128).withArgs [addr])
  | _ => .fail .panic

/-- The node of a store. -/
def storeNode (op : Op) (addr value : ValueRef) : Emit Unit := do
  let _ ← em.push ((Armlet.new op .void).withArgs [addr, value])

def store (addr value : ValueRef) (sizeBytes : Nat) : Emit Unit :=
  match sizeBytes with
  | 1 => em.storeNode .store8 addr value
  | 2 => em.storeNode .store16 addr value
  | 4 => em.storeNode .store32 addr value
  | 8 => em.storeNode .store64 addr value
  | 16 => em.storeNode .store128 addr value
  | _ => .fail .panic

/-! ## What the nodes do -/

/-- The type of what an access loads. -/
def loadTy : Nat → Ty
  | 1 => .u8
  | 2 => .u16
  | 4 => .u32
  | 8 => .u64
  | _ => .u128

variable {em : IrEmitter} {n : Nat} {f : Frame} {Q : ValueRef → Nat → Frame → Prop}
  {P : Unit → Nat → Frame → Prop}

/-- What a load leaves, and how its value is kept. -/
theorem wp_load {k : Nat} (hk : k ≤ 4) (addr : ValueRef) : (em.load addr (2 ^ k)).wp Armlet.step n f Q ↔
    Q n (n + 1) (Frame.define { f with machine := f.machine.load (f.value addr).lo64 (2 ^ k) } n
      ⟨loadTy (2 ^ k), read 128 f.machine.memory (f.value addr).lo64 (2 ^ k)⟩) := by
  obtain rfl | rfl | rfl | rfl | rfl : k = 0 ∨ k = 1 ∨ k = 2 ∨ k = 3 ∨ k = 4 := by omega
  · exact em.wp_push_of_step (a := (Armlet.new .load8 .u8).withArgs [addr]) rfl
  · exact em.wp_push_of_step (a := (Armlet.new .load16 .u16).withArgs [addr]) rfl
  · exact em.wp_push_of_step (a := (Armlet.new .load32 .u32).withArgs [addr]) rfl
  · exact em.wp_push_of_step (a := (Armlet.new .load64 .u64).withArgs [addr]) rfl
  · exact em.wp_push_of_step (a := (Armlet.new .load128 .u128).withArgs [addr]) rfl

theorem wp_store {k : Nat} (hk : k ≤ 4) (addr value : ValueRef) :
    (em.store addr value (2 ^ k)).wp Armlet.step n f P ↔
      P () (n + 1) { f with machine := f.machine.store (f.value addr).lo64 (2 ^ k) (f.value value).bits } := by
  obtain rfl | rfl | rfl | rfl | rfl : k = 0 ∨ k = 1 ∨ k = 2 ∨ k = 3 ∨ k = 4 := by omega
  · exact (Prog.wp_bind _ _).trans (em.wp_push_of_step
      (a := (Armlet.new .store8 .void).withArgs [addr, value]) rfl)
  · exact (Prog.wp_bind _ _).trans (em.wp_push_of_step
      (a := (Armlet.new .store16 .void).withArgs [addr, value]) rfl)
  · exact (Prog.wp_bind _ _).trans (em.wp_push_of_step
      (a := (Armlet.new .store32 .void).withArgs [addr, value]) rfl)
  · exact (Prog.wp_bind _ _).trans (em.wp_push_of_step
      (a := (Armlet.new .store64 .void).withArgs [addr, value]) rfl)
  · exact (Prog.wp_bind _ _).trans (em.wp_push_of_step
      (a := (Armlet.new .store128 .void).withArgs [addr, value]) rfl)

@[simp] theorem wp_getVS (reg : U8) : (em.getVS reg).wp Armlet.step n f Q ↔
    Q n (n + 1) (f.define n (.ofU32 .u32 ((f.machine.v reg.toNat).setWidth 32))) := by
  rw [getVS, em.wp_push_of_step rfl]
  simp only [Armlet.withImm, toNat_reg]
  rfl

@[simp] theorem wp_getVD (reg : U8) : (em.getVD reg).wp Armlet.step n f Q ↔
    Q n (n + 1) (f.define n (.ofU64 .u64 ((f.machine.v reg.toNat).setWidth 64))) := by
  rw [getVD, em.wp_push_of_step rfl]
  simp only [Armlet.withImm, toNat_reg]
  rfl

@[simp] theorem wp_getVQ (reg : U8) : (em.getVQ reg).wp Armlet.step n f Q ↔
    Q n (n + 1) (f.define n ⟨.u128, f.machine.v reg.toNat⟩) := by
  rw [getVQ, em.wp_push_of_step rfl]
  simp only [Armlet.withImm, toNat_reg]
  rfl

/-- What a vector register takes of a value; the rest of it is cleared. -/
def vectorPart (v : Value) : Option U128 :=
  match v.ty with
  | .u32 => some (v.lo32.setWidth 128)
  | .u64 => some (v.lo64.setWidth 128)
  | .u128 => some v.bits
  | _ => none

theorem wp_setV {a : Armlet} (hop : a.op = .setV) {x : U128} (hx : vectorPart (a.arg f 0) = some x) :
    (em.push a).wp Armlet.step n f Q ↔ Q n (n + 1) { f with machine := f.machine.writeV a.imm.toNat x } := by
  refine em.wp_push_of_step ?_
  cases a with
  | mk op ty flags prev next args imm pc =>
    subst hop
    simp only [Armlet.step, Armlet.registerStep, Armlet.arg, vectorPart] at hx ⊢
    split at hx <;> simp_all

theorem wp_setVS (reg : U8) {value : ValueRef} {x : U128} (hx : vectorPart (f.value value) = some x) :
    (em.setVS reg value).wp Armlet.step n f P ↔
      P () (n + 1) { f with machine := f.machine.writeV reg.toNat x } := by
  rw [setVS, Prog.wp_bind, wp_setV (x := x) rfl]
  · simp only [Armlet.withImm, Armlet.withFlags, toNat_reg]
    exact Iff.rfl
  · exact hx

theorem wp_setVD (reg : U8) {value : ValueRef} {x : U128} (hx : vectorPart (f.value value) = some x) :
    (em.setVD reg value).wp Armlet.step n f P ↔
      P () (n + 1) { f with machine := f.machine.writeV reg.toNat x } := by
  rw [setVD, Prog.wp_bind, wp_setV (x := x) rfl]
  · simp only [Armlet.withImm, toNat_reg]
    exact Iff.rfl
  · exact hx

theorem wp_setVQ (reg : U8) {value : ValueRef} {x : U128} (hx : vectorPart (f.value value) = some x) :
    (em.setVQ reg value).wp Armlet.step n f P ↔
      P () (n + 1) { f with machine := f.machine.writeV reg.toNat x } := wp_setVD reg hx

theorem wp_setXOrSp (reg : U8) (value : ValueRef) : (em.setXOrSp reg value true).wp Armlet.step n f P ↔
    P () (n + 1) { f with machine := Guest.writeBase f.machine reg.toNat (f.value value).lo64 } := by
  rw [setXOrSp, Guest.writeBase]
  split
  · exact em.wp_setSp value
  · next h =>
    rw [em.wp_setX, if_neg h, Machine.writeX, if_neg h]

end IrEmitter

end Rustarmic
