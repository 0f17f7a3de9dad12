import Rustarmic.Ir.Block

/-!
# What a block returns, and what the dispatcher makes of it

Generated code hands the dispatcher one 64-bit number.  For a branch it is the guest address to
continue at; for an exception it is a code with `0xE` in the top nibble, the immediate in bits 8 to
23 and the kind in the low byte; `u64::MAX` is the stop sentinel.  The dispatcher has nothing but
the number, so it decodes by the top nibble first and by the sentinel second.

* `Terminal.exitValue` is the number the emitted terminal leaves in `RAX`.
* `decodeExit` is what `run_bounded` does with it.
* `Terminal.meaning` is what the terminal stands for.

`decodeExit_exitValue_iff` says exactly when the three agree: a guest address is read back as an
address unless it has `0xE` in its top nibble or is all ones, and an immediate survives when it
fits in sixteen bits.
-/

set_option autoImplicit false

namespace Rustarmic

/-! ## The two directions of the encoding -/

/-- Why `run_bounded` returns, in the compatibility view. -/
inductive ExitReason where
  | stopped
  | budgetExhausted
  | svc (imm : U32)
  | brk (imm : U32)
  | hvc (imm : U32)
  | memoryFault (address : U64)
  deriving DecidableEq, Repr

/-- What the dispatcher does next: continue at a guest address or report a reason. -/
inductive Next where
  | goto (pc : U64)
  | stop (reason : ExitReason)
  deriving DecidableEq, Repr

/-- The values the emitted terminal reads: SSA values as 64-bit reads of their location, the flags
byte of the context, and, when the conditional branch was fused with its flag producer, whether the
host condition holds. -/
structure ExitEnv where
  value : ValueRef → U64
  nzcv : U8
  fused : Option Bool

namespace ExceptionKind

/-- The low byte of an exception's exit value. -/
def kindByte : ExceptionKind → U8
  | svc => 0x01
  | brk => 0x02
  | hvc => 0x03
  | unknownInst => 0xFF

/-- The number an exception terminal returns. -/
def exitValue (kind : ExceptionKind) (imm : U32) : U64 :=
  0xE000000000000000#64 ||| ((imm.setWidth 64 &&& 0xFFFF#64) <<< 8) ||| kind.kindByte.setWidth 64

/-- The PC an exception terminal stores in the context.  A breakpoint's preferred return address is
the breakpoint itself. -/
def pcAfter (kind : ExceptionKind) (endPc : U64) : U64 :=
  if kind = brk then endPc - 4 else endPc

/-- The reason an exception stands for. -/
def reason (kind : ExceptionKind) (imm : U32) : ExitReason :=
  match kind with
  | svc => .svc imm
  | brk => .brk imm
  | hvc => .hvc imm
  | unknownInst => .stopped

end ExceptionKind

namespace Terminal

/-- Whether a two-way terminal takes its branch: the fused host condition or the truth-table bit
for a condition, a (sign-agnostic) zero test of the W or X value, a test of one bit. -/
def takes (env : ExitEnv) : Terminal → Bool
  | conditionalBranch _ condCode _ _ =>
    env.fused.getD ((condTruth (Cond.fromBits condCode)).getLsbD (env.nzcv.toNat % 32))
  | compareBranchZero value inverse is64 _ _ =>
    ((if is64 then env.value value else (env.value value).setWidth 32 |>.setWidth 64) == 0) ^^
      inverse
  | testBranchBit value bit inverse _ _ =>
    (env.value value).getLsbD (bit.toNat % 64) == inverse
  | _ => false

/-- The guest address the terminal branches to; `none` for an exception. -/
def target (env : ExitEnv) (endPc : U64) (t : Terminal) : Option U64 :=
  match t with
  | invalid => some endPc
  | linkBlock nextPc => some nextPc
  | directBranch targetPc _ => some targetPc
  | conditionalBranch _ _ takenPc notTakenPc => some (if t.takes env then takenPc else notTakenPc)
  | compareBranchZero _ _ _ takenPc notTakenPc =>
    some (if t.takes env then takenPc else notTakenPc)
  | testBranchBit _ _ _ takenPc notTakenPc => some (if t.takes env then takenPc else notTakenPc)
  | indirectBranch target _ _ => some (env.value target)
  | exception _ _ => none

/-- The number the emitted terminal returns when its exits are not linked: the address it branches
to, or the exception's code. -/
def exitValue (env : ExitEnv) (endPc : U64) (t : Terminal) : U64 :=
  match t with
  | exception kind imm => kind.exitValue imm
  | t => (t.target env endPc).getD endPc

/-- What the terminal stands for. -/
def meaning (env : ExitEnv) (endPc : U64) (t : Terminal) : Next :=
  match t with
  | exception kind imm => .stop (kind.reason imm)
  | t => .goto ((t.target env endPc).getD endPc)

end Terminal

/-- How `run_bounded` reads the number a block returned. -/
def decodeExit (nextPc : U64) : Next :=
  if nextPc >>> 60 = 0xE#64 then
    let kind := nextPc &&& 0xFF#64
    let imm := (nextPc >>> 8 &&& 0xFFFF#64).setWidth 32
    if kind = 0x01 then .stop (.svc imm)
    else if kind = 0x02 then .stop (.brk imm)
    else if kind = 0x03 then .stop (.hvc imm)
    else .stop .stopped
  else if nextPc = BitVec.allOnes 64 then .stop .stopped
  else .goto nextPc

/-! ## Decoding an exception code -/

theorem toNat_and_ffff (x : U64) : (x &&& 0xFFFF#64).toNat = x.toNat % 65536 := by
  have h := Nat.and_two_pow_sub_one_eq_mod x.toNat 16
  simpa [BitVec.toNat_and] using h

theorem toNat_and_ff (x : U64) : (x &&& 0xFF#64).toNat = x.toNat % 256 := by
  have h := Nat.and_two_pow_sub_one_eq_mod x.toNat 8
  simpa [BitVec.toNat_and] using h

/-- The three fields of an exit code do not overlap, so `|||` adds them up. -/
theorem exitFields_or (m k : Nat) (hk : k < 256) :
    0xE000000000000000 ||| (m % 65536) * 256 ||| k
      = 0xE000000000000000 + (m % 65536) * 256 + k := by
  have h1 := Nat.two_pow_add_eq_or_of_lt (i := 8) (b := k) (by simpa using hk)
    (0xE0000000000000 + m % 65536)
  have h2 := Nat.two_pow_add_eq_or_of_lt (i := 61) (b := m % 65536 * 256) (by omega) 7
  simp only [Nat.reducePow, Nat.reduceMul] at h1 h2
  rw [← h2, show 16140901064495857664 + m % 65536 * 256
    = 256 * (63050394783186944 + m % 65536) by omega, ← h1]

theorem ExceptionKind.toNat_exitValue (kind : ExceptionKind) (imm : U32) :
    (kind.exitValue imm).toNat
      = 0xE000000000000000 + (imm.toNat % 65536) * 256 + kind.kindByte.toNat := by
  have hk := kind.kindByte.isLt
  have hi : (imm.setWidth 64).toNat = imm.toNat := by
    rw [BitVec.toNat_setWidth, Nat.mod_eq_of_lt (by omega)]
  have himm : ((imm.setWidth 64 &&& 0xFFFF#64) <<< 8).toNat = imm.toNat % 65536 * 256 := by
    rw [BitVec.toNat_shiftLeft, toNat_and_ffff, hi, Nat.shiftLeft_eq]
    omega
  have hkind : (kind.kindByte.setWidth 64).toNat = kind.kindByte.toNat := by
    rw [BitVec.toNat_setWidth, Nat.mod_eq_of_lt (by omega)]
  rw [← exitFields_or _ _ hk, exitValue, BitVec.toNat_or, BitVec.toNat_or, himm, hkind]
  rfl

theorem ExceptionKind.exitValue_top (kind : ExceptionKind) (imm : U32) :
    kind.exitValue imm >>> 60 = 0xE#64 := by
  have h := kind.toNat_exitValue imm
  have hk := kind.kindByte.isLt
  apply BitVec.eq_of_toNat_eq
  rw [BitVec.toNat_ushiftRight, h, Nat.shiftRight_eq_div_pow]
  simp only [BitVec.toNat_ofNat]
  omega

theorem ExceptionKind.exitValue_kind (kind : ExceptionKind) (imm : U32) :
    kind.exitValue imm &&& 0xFF#64 = kind.kindByte.setWidth 64 := by
  have h := kind.toNat_exitValue imm
  have hk := kind.kindByte.isLt
  apply BitVec.eq_of_toNat_eq
  rw [toNat_and_ff, h, BitVec.toNat_setWidth]
  omega

theorem ExceptionKind.exitValue_imm (kind : ExceptionKind) (imm : U32) :
    (kind.exitValue imm >>> 8 &&& 0xFFFF#64).setWidth 32 = BitVec.ofNat 32 (imm.toNat % 65536) := by
  have h := kind.toNat_exitValue imm
  have hk := kind.kindByte.isLt
  apply BitVec.eq_of_toNat_eq
  rw [BitVec.toNat_setWidth, toNat_and_ffff, BitVec.toNat_ushiftRight, h,
    Nat.shiftRight_eq_div_pow, BitVec.toNat_ofNat]
  omega

/-- An exception code is read back as the same exception with the low sixteen bits of its
immediate. -/
theorem decodeExit_exception (kind : ExceptionKind) (imm : U32) :
    decodeExit (kind.exitValue imm)
      = .stop (kind.reason (BitVec.ofNat 32 (imm.toNat % 65536))) := by
  rw [decodeExit, if_pos (kind.exitValue_top imm)]
  simp only [kind.exitValue_kind imm, kind.exitValue_imm imm]
  cases kind <;> simp [ExceptionKind.kindByte, ExceptionKind.reason]

/-! ## When the encoding is unambiguous -/

/-- The addresses that cannot be told from an exit code: those with `0xE` in the top nibble, and
the stop sentinel. -/
def Reserved (pc : U64) : Prop := pc >>> 60 = 0xE#64 ∨ pc = BitVec.allOnes 64

instance (pc : U64) : Decidable (Reserved pc) := inferInstanceAs (Decidable (_ ∨ _))

/-- The terminal's exit value stands for the terminal and nothing else: a branch goes to an
address that is not reserved, an exception that carries an immediate carries one of sixteen bits. -/
def Terminal.Unambiguous (env : ExitEnv) (endPc : U64) (t : Terminal) : Prop :=
  match t with
  | exception kind imm => kind = .unknownInst ∨ imm.toNat < 65536
  | t => ¬ Reserved ((t.target env endPc).getD endPc)

/-- An address is read back as that address exactly when it is not reserved. -/
theorem decodeExit_eq_goto_iff (pc : U64) : decodeExit pc = .goto pc ↔ ¬ Reserved pc := by
  rw [decodeExit, Reserved]
  by_cases h1 : pc >>> 60 = 0xE#64
  · simp only [h1, if_true, true_or, not_true_eq_false, iff_false]
    split_ifs <;> simp
  · by_cases h2 : pc = BitVec.allOnes 64 <;> simp [h1, h2]

/-- The dispatcher only ever continues at addresses that are not reserved. -/
theorem not_reserved_of_decodeExit {x pc : U64} (h : decodeExit x = .goto pc) :
    ¬ Reserved pc := by
  rw [decodeExit] at h
  by_cases h1 : x >>> 60 = 0xE#64
  · simp only [h1, if_true] at h
    split_ifs at h
  · rw [if_neg h1] at h
    split_ifs at h with h2
    cases h
    exact not_or.mpr ⟨h1, h2⟩

theorem reason_mod_eq_iff (kind : ExceptionKind) (imm : U32) :
    kind.reason (BitVec.ofNat 32 (imm.toNat % 65536)) = kind.reason imm
      ↔ kind = .unknownInst ∨ imm.toNat < 65536 := by
  have h : BitVec.ofNat 32 (imm.toNat % 65536) = imm ↔ imm.toNat < 65536 := by
    rw [← BitVec.toNat_inj, BitVec.toNat_ofNat]
    omega
  cases kind <;> simp [ExceptionKind.reason, h]

/-- **Exit values are unambiguous exactly off the reserved addresses.**  For every terminal, every
content of the values it reads and every outcome of its condition, the dispatcher's reading of the
returned number is what the terminal stands for if and only if the terminal is `Unambiguous`. -/
theorem decodeExit_exitValue_iff (t : Terminal) (env : ExitEnv) (endPc : U64) :
    decodeExit (t.exitValue env endPc) = t.meaning env endPc ↔ t.Unambiguous env endPc := by
  cases t with
  | exception kind imm =>
    rw [Terminal.exitValue, Terminal.meaning, Terminal.Unambiguous, decodeExit_exception,
      Next.stop.injEq]
    exact reason_mod_eq_iff kind imm
  | _ => exact decodeExit_eq_goto_iff _

/-- An indirect branch to `0xE000_0000_0000_0501` is reported as `SVC #5`. -/
theorem decodeExit_indirect_svc :
    decodeExit ((Terminal.indirectBranch 1 false false).exitValue
        ⟨fun _ => 0xE000000000000501, 0, none⟩ 0x1004) = .stop (.svc 5) ∧
      decodeExit ((Terminal.indirectBranch 1 false false).exitValue
          ⟨fun _ => 0xE000000000000501, 0, none⟩ 0x1004)
        ≠ (Terminal.indirectBranch 1 false false).meaning
          ⟨fun _ => 0xE000000000000501, 0, none⟩ 0x1004 := by
  decide

end Rustarmic
