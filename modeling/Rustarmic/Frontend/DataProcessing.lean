import Rustarmic.Frontend.Conditional
import Rustarmic.Frontend.Logical
import Rustarmic.Frontend.Multiply

/-!
# Data processing of registers and conditions

Ten classes of instructions as one type, so that what holds of all of them can be said once.

* `DataInsn` — an instruction of one of the ten classes; `DataInsn.translate` and `DataInsn.arm` are
  its translator and the instruction of the architecture.
* `data_processing_exact` — the emitted nodes are the instruction, and reserved encodings are
  rejected.

The theorem has two assumptions about the encoding and the state, and neither is a restriction on
programs.

* **`DataInsn.Decoded`** speaks of the checksums, whose translator reads the polynomial and the
  width from the word although the decoder has told the variants apart by these very bits.
* **`FlagsOnly`** says that the byte of the flags holds four flags and nothing else.  A run keeps
  it: the architecture's instructions do (`DataInsn.flagsOnly_arm`), and since the code does what
  they do, so does the code.  The conclusion of the theorem contains that, so that the assumption
  need be made only once, at the start of a run.

Additions and subtractions with an immediate or an extended register are not among the ten: the
translator of those is wrong in some forms (`Frontend.AddSub`).
-/

set_option autoImplicit false

namespace Rustarmic

open Interp

/-- An instruction of one of the classes. -/
inductive DataInsn where
  | addsubShift (insn : AddsubShift)
  | logShift (insn : LogShift)
  | logImm (insn : LogImm)
  | addsubCarry (insn : AddsubCarry)
  | condsel (insn : Condsel)
  | condcmpReg (insn : CondcmpReg)
  | condcmpImm (insn : CondcmpImm)
  | dp3src (insn : Dp3src)
  | dp2src (insn : Dp2src)
  | extract (insn : Extract)

namespace DataInsn

def translate (em : IrEmitter) : DataInsn → Emit InstStatus
  | addsubShift insn => insn.translate em
  | logShift insn => insn.translate em
  | logImm insn => insn.translate em
  | addsubCarry insn => insn.translate em
  | condsel insn => insn.translate em
  | condcmpReg insn => insn.translate em
  | condcmpImm insn => insn.translate em
  | dp3src insn => insn.translate em
  | dp2src insn => insn.translate em
  | extract insn => insn.translate em

/-- The instruction of the architecture, when the encoding is not reserved. -/
def arm : DataInsn → Option (Machine → Machine)
  | addsubShift insn => insn.arm
  | logShift insn => insn.arm
  | logImm insn => insn.arm
  | addsubCarry insn => insn.arm
  | condsel insn => insn.arm
  | condcmpReg insn => insn.arm
  | condcmpImm insn => insn.arm
  | dp3src insn => insn.arm
  | dp2src insn => insn.arm
  | extract insn => insn.arm

/-- What the decoder promises of an instruction. -/
def Decoded : DataInsn → Prop
  | dp2src insn => insn.Decoded
  | _ => True

end DataInsn

/-! ## The flags -/

/-- Four flags are in the byte, and nothing else. -/
def FlagsOnly (m : Machine) : Prop := m.nzcv.toNat < 16

theorem packNzcv_lt (n z c v : Bool) : (packNzcv n z c v).toNat < 16 := by
  revert n z c v
  decide

namespace Guest

variable {N : Nat} {m : Machine}

theorem flagsOnly_setX (h : FlagsOnly m) (d : Nat) (x : BitVec N) : FlagsOnly (setX m d x) := by
  rw [setX, Machine.writeX]
  split <;> exact h

theorem flagsOnly_setResult (h : FlagsOnly m) (setFlags : Bool) (d : Nat) {r : BitVec N × U8}
    (hr : r.2.toNat < 16) : FlagsOnly (setResult setFlags d r m) := by
  refine flagsOnly_setX ?_ d r.1
  cases setFlags
  · exact h
  · exact hr

theorem addSub_snd_lt (sub : Bool) (x y : BitVec N) : (addSub sub x y).2.toNat < 16 := by
  cases sub <;> exact packNzcv_lt ..

theorem flagsOnly_logicalImmediate (h : FlagsOnly m) (op : LogicalOp) (setFlags : Bool) (d n : Nat)
    (imm : BitVec N) : FlagsOnly (logicalImmediate op setFlags d n imm m) := by
  rw [logicalImmediate]
  split
  · exact h
  · exact flagsOnly_setResult h setFlags d (packNzcv_lt ..)

theorem flagsOnly_conditionalCompare (m : Machine) (sub : Bool) (cond : Nat) {flags : U8}
    (hflags : flags.toNat < 16) (x y : BitVec N) : FlagsOnly (conditionalCompare sub cond flags x y m) := by
  rw [FlagsOnly, conditionalCompare]
  dsimp only
  split
  · exact addSub_snd_lt sub x y
  · exact hflags

end Guest

/-- **The byte of the flags holds four flags** after an instruction if it did before. -/
theorem DataInsn.flagsOnly_arm {insn : DataInsn} {exec : Machine → Machine} (harm : insn.arm = some exec)
    {m : Machine} (h : FlagsOnly m) : FlagsOnly (exec m) := by
  have hcond (raw : U32) : (BitVec.ofNat 8 (bits raw 0 4)).toNat < 16 := by
    have := bits_lt raw 0 (by decide : 4 < 32)
    rw [BitVec.toNat_ofNat]
    omega
  cases insn with
  | addsubShift insn =>
    rw [arm, AddsubShift.arm] at harm
    obtain ⟨-, ⟨⟩⟩ := Option.ite_none_left_eq_some.mp harm
    exact Guest.flagsOnly_setResult h _ _ (Guest.addSub_snd_lt ..)
  | logShift insn =>
    rw [arm, LogShift.arm] at harm
    obtain ⟨-, ⟨⟩⟩ := Option.ite_none_left_eq_some.mp harm
    exact Guest.flagsOnly_setResult h _ _ (packNzcv_lt ..)
  | logImm insn =>
    rw [arm, LogImm.arm] at harm
    obtain ⟨-, harm⟩ := Option.ite_none_left_eq_some.mp harm
    obtain ⟨imm, -, rfl⟩ := Option.map_eq_some_iff.mp harm
    exact Guest.flagsOnly_logicalImmediate h ..
  | addsubCarry insn =>
    cases harm
    exact Guest.flagsOnly_setResult h _ _ (packNzcv_lt ..)
  | condsel insn =>
    cases harm
    exact Guest.flagsOnly_setX h ..
  | condcmpReg insn =>
    cases harm
    exact Guest.flagsOnly_conditionalCompare m _ _ (hcond _) ..
  | condcmpImm insn =>
    cases harm
    exact Guest.flagsOnly_conditionalCompare m _ _ (hcond _) ..
  | dp3src insn =>
    rw [arm, Dp3src.arm] at harm
    cases harm
    split <;> exact Guest.flagsOnly_setX h ..
  | dp2src insn =>
    cases insn <;> cases harm <;> exact Guest.flagsOnly_setX h ..
  | extract insn =>
    rw [arm, Extract.arm] at harm
    obtain ⟨-, ⟨⟩⟩ := Option.ite_none_left_eq_some.mp harm
    exact Guest.flagsOnly_setX h ..

/-- **The emitted nodes are the instruction**: registers, stack pointer and flags end as the
architecture says, for every encoding it does not reserve, and the others are rejected.  The byte of
the flags goes on holding four flags. -/
theorem data_processing_exact (insn : DataInsn) (hdecoded : insn.Decoded) (em : IrEmitter) (n : Nat) (f : Frame)
    (hflags : FlagsOnly f.machine) : Translates (insn.translate em) insn.arm n f ∧
      ∀ exec, insn.arm = some exec → FlagsOnly (exec f.machine) := by
  refine ⟨?_, fun _ harm => DataInsn.flagsOnly_arm harm hflags⟩
  cases insn with
  | addsubShift insn => exact insn.translates em n f
  | logShift insn => exact insn.translates em n f
  | logImm insn => exact insn.translates em n f
  | addsubCarry insn => exact insn.translates em n f
  | condsel insn => exact insn.translates em n f hflags
  | condcmpReg insn => exact insn.translates em n f hflags
  | condcmpImm insn => exact insn.translates em n f hflags
  | dp3src insn => exact insn.translates em n f
  | dp2src insn => exact insn.translates hdecoded em n f
  | extract insn => exact insn.translates em n f

theorem data_processing_exact_ccmp :
    (DataInsn.condcmpReg (.ccmpRnRmNzcvCond 0xFA421024)).Decoded ∧
      FlagsOnly ⟨fun _ => 5, 0, 4, fun _ => 0, fun _ => 0, []⟩ ∧
      Translates ((DataInsn.condcmpReg (.ccmpRnRmNzcvCond 0xFA421024)).translate ⟨0⟩)
        (DataInsn.condcmpReg (.ccmpRnRmNzcvCond 0xFA421024)).arm 1
        ⟨⟨fun _ => 5, 0, 4, fun _ => 0, fun _ => 0, []⟩, fun _ => ⟨.void, 0⟩⟩ := by
  have hflags : FlagsOnly ⟨fun _ => 5, 0, 4, fun _ => 0, fun _ => 0, []⟩ := by
    rw [FlagsOnly]
    decide
  refine ⟨trivial, hflags, ?_⟩
  exact (data_processing_exact (.condcmpReg (.ccmpRnRmNzcvCond 0xFA421024)) trivial ⟨0⟩ 1
    ⟨⟨fun _ => 5, 0, 4, fun _ => 0, fun _ => 0, []⟩, fun _ => ⟨.void, 0⟩⟩ hflags).1

end Rustarmic
