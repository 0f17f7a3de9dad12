import Rustarmic.Arch
import Rustarmic.Ir.Opcode

/-!
# What the code of an operation clobbers

`clobbersForOp` gives the host registers the code of an operation may overwrite, under the SysV
calling convention: an operation that may call out clobbers every caller-saved register, and no
vector register is callee-saved there.  The crypto operations call out unless the host has the
instructions for them.

The table is the contract between the two halves of the backend.  Instruction selection may
overwrite what is listed, and the register allocator keeps out of these registers every value that
is alive *across* the operation.  Neither half looks at the other, and nothing checks that the
emitted code keeps to the table.

A value that is used by the operation for the last time is not alive across it.  It may sit in a
listed register, and code that reads its operand again after a call finds whatever the callee has
left there.

Registers are bits of a mask by their hardware numbers.  `clobbersForOp_gpr` says that the table
never names a callee-saved register, so that a value in one of these is alive across every
operation.
-/

set_option autoImplicit false

namespace Rustarmic

/-- Bit `r` stands for the register with hardware number `r`. -/
abbrev GprMask := U16
abbrev XmmMask := U16

namespace GprMask

def rax : GprMask := 1#16 <<< 0
def rcx : GprMask := 1#16 <<< 1
def rdx : GprMask := 1#16 <<< 2
def rsi : GprMask := 1#16 <<< 6
def rdi : GprMask := 1#16 <<< 7
def r8 : GprMask := 1#16 <<< 8
def r9 : GprMask := 1#16 <<< 9
def r10 : GprMask := 1#16 <<< 10
def r11 : GprMask := 1#16 <<< 11

end GprMask

namespace XmmMask

def xmm0 : XmmMask := 1#16 <<< 0
def xmm1 : XmmMask := 1#16 <<< 1
def xmm2 : XmmMask := 1#16 <<< 2
def xmm3 : XmmMask := 1#16 <<< 3

end XmmMask

open GprMask XmmMask

def callerSavedGprs : GprMask :=
  rax ||| rcx ||| rdx ||| rsi ||| rdi ||| r8 ||| r9 ||| r10 ||| r11

def callerSavedXmms : XmmMask := 0xFFFF

/-- `gpr_id::RAX`. -/
def raxId : Nat := 0

structure ClobberSet where
  gpr : GprMask
  xmm : XmmMask
  resultPinnedToGpr : Option Nat
  resultPinnedToXmm : Option Nat
  deriving DecidableEq, Repr

/-- The host features the table depends on. -/
structure HostFeatures where
  hasSm4 : Bool
  hasAesni : Bool
  deriving DecidableEq, Repr

/-- What an operation that may call back into the host clobbers. -/
def callsHost : ClobberSet := ⟨callerSavedGprs, callerSavedXmms, none, none⟩

/-- The same with the result in `RAX`. -/
def callsWithResult : ClobberSet := ⟨callerSavedGprs, callerSavedXmms, some raxId, none⟩

def clobbersForOp (features : HostFeatures) : Op → ClobberSet
  | .uDiv32 | .uDiv64 | .sDiv32 | .sDiv64 => ⟨rax ||| rcx ||| rdx, 0, some raxId, none⟩
  | .lsl32 | .lsl64 | .lsr32 | .lsr64 | .asr32 | .asr64 | .ror32 | .ror64 =>
    ⟨rax ||| rcx, 0, some raxId, none⟩
  | .logicFlags32 | .logicFlags64 => ⟨rax ||| rcx, 0, none, none⟩
  | .addsFlags32 | .addsFlags64 | .subsFlags32 | .subsFlags64 | .adcs32 | .adcs64 | .sbcs32
  | .sbcs64 => ⟨rax ||| rcx ||| rdx ||| rsi ||| r8 ||| r9 ||| r10 ||| r11, 0, some raxId, none⟩
  | .adc32 | .adc64 | .sbc32 | .sbc64 => ⟨rax ||| rcx ||| rdx, 0, some raxId, none⟩
  | .clz32 | .clz64 | .cls32 | .cls64 => ⟨rax ||| rcx, 0, some raxId, none⟩
  | .rbit32 | .rbit64 =>
    ⟨rax ||| rcx ||| rdx, xmm0 ||| xmm1 ||| xmm2 ||| xmm3, some raxId, none⟩
  | .vecBitAffine | .vecShlImm8 | .vecUshrImm8 | .vecSshrImm8 =>
    ⟨rax, xmm0 ||| xmm1 ||| xmm2 ||| xmm3, none, none⟩
  | .vecClz16 => ⟨rax ||| rcx, xmm0 ||| xmm1, none, none⟩
  | .vecClz32 => ⟨rax ||| rcx, xmm0 ||| xmm1 ||| xmm2, none, none⟩
  | .vecRev16 | .vecRev32 | .vecRev64 => ⟨rax, xmm0 ||| xmm1 ||| xmm2, none, none⟩
  | .vecExt => ⟨0, xmm0 ||| xmm1, none, none⟩
  | .rev16 | .rev32 | .rev64 => ⟨rax ||| rcx ||| rdx, 0, some raxId, none⟩
  | .csel32 | .csel64 =>
    ⟨rax ||| rcx ||| rdx ||| rsi ||| rdi ||| r8 ||| r9, 0, some raxId, none⟩
  | .load128 | .store8 | .store16 | .store32 | .store64 | .store128 | .loadEx128
  | .atomicCas128 => callsHost
  | .load8 | .load16 | .load32 | .load64 | .loadEx8 | .loadEx16 | .loadEx32 | .loadEx64
  | .storeEx8 | .storeEx16 | .storeEx32 | .storeEx64 | .storeEx128 | .atomicRmw8 | .atomicRmw16
  | .atomicRmw32 | .atomicRmw64 | .atomicCas8 | .atomicCas16 | .atomicCas32 | .atomicCas64 =>
    callsWithResult
  | .mrs | .callHelper | .fmadd32 | .fmadd64 | .frsqrtEstimate32 | .frsqrtEstimate64
  | .frsqrtStep32 | .frsqrtStep64 | .frecipEstimate32 | .frecipEstimate64 | .frecipStep32
  | .frecipStep64 | .saturatingNarrow | .fabsDiff32 | .fabsDiff64 | .fpMinMaxReduce32
  | .intMinMaxReduce32 | .fpMinMaxNum32 | .fpMinMaxNum64 | .fpAbsoluteCompare32
  | .fpAbsoluteCompare64 | .scalarFpPair32 | .scalarFpPair64 => callsWithResult
  | .saturatingBinary => callsHost
  | .sha256Hash | .sha256Hash2 | .sha256Schedule0 | .sha256Schedule1 => callsHost
  | .sm4Encrypt | .sm4KeySchedule =>
    if features.hasSm4 then ⟨0, xmm0 ||| xmm1, none, none⟩ else callsHost
  | .aesEncrypt | .aesDecrypt | .aesMixColumns | .aesInverseMixColumns =>
    if features.hasAesni then ⟨0, xmm0 ||| xmm1, none, none⟩ else callsHost
  | _ => ⟨rax ||| rcx ||| rdx ||| rsi ||| rdi ||| r8, 0, some raxId, none⟩

/-- Every register the table can name is caller-saved. -/
theorem clobbersForOp_gpr (features : HostFeatures) (op : Op) :
    (clobbersForOp features op).gpr &&& ~~~callerSavedGprs = 0 := by
  rcases features with ⟨_ | _, _ | _⟩ <;> cases op <;> rfl

end Rustarmic
