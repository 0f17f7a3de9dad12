import Rustarmic.Backend.HostFloat
import Rustarmic.Backend.VariableShift
import Rustarmic.Backend.VectorNodes

/-!
# Leading zeros of vectors

Three ways to count the leading zeros of lanes: with a vector instruction, lane by lane in `eax`,
and, for lanes of 32 bits, by the exponent of the lane as a float.  Before the conversion the bits
eight below a set bit are cleared, so that no rounding reaches the next power of two.

* `Cpu`, `run` — the registers that the code uses besides the vectors, MXCSR among them.
* `emitOpVecClz16`, `emitOpVecClz32` — the sequences.
* `floatCount_eq` — the exponent gives the count, however the conversion rounds.
* `vecClz_exact` — every path counts, in every block, and leaves MXCSR alone.
-/

set_option autoImplicit false

namespace Rustarmic

namespace LeadingZeros

open VectorCode Lanes Interp

/-! ## The machine -/

/-- What the code asks of the processor. -/
structure CpuFeatures where
  hasAvx2 : Bool
  hasAvx512Clz16 : Bool
  hasAvx512Clz32 : Bool
  preferAvx2Clz32 : Bool
  hasLzcnt : Bool
  deriving DecidableEq, Repr

/-- What is left open: the destination of `bsr` of zero, by its old value, the conversion of a lane
by MXCSR, and MXCSR after a conversion, which collects status. -/
structure Host where
  bsrZero : U32 → U32
  cvtdq2ps : U32 → U32 → U32
  collect : U32 → U128 → U32

/-- The conversion of a signed integer is rounded, in whatever mode. -/
def Host.Converts (host : Host) : Prop :=
  ∀ mxcsr x, ∃ mode : Round,
    Fmt.s.Rounded mode x.msb |(x.toInt : ℚ)| ((host.cvtdq2ps mxcsr x).setWidth 64)

/-- `upper` is the upper half of `ymm0`, and `zero` the flag. -/
structure Cpu where
  eax : U32
  ecx : U32
  zero : Bool
  mxcsr : U32
  rsp : U64
  dword : U64 → U32
  upper : U128
  vec : Contents

namespace Cpu

variable (c : Cpu)

/-- The result of an operation that sets the flag, in `eax`. -/
def result (x : U32) : Cpu := { c with eax := x, zero := x == 0#32 }

def setXmm (r : Nat) (x : U128) : Cpu := { c with vec := c.vec.set (.xmm r) x }

def xmm (r : Nat) : U128 := c.vec (.xmm r)

/-- Write `ymm0`. -/
def setWide (low high : U128) : Cpu := { c.setXmm 0 low with upper := high }

def store (off : U64) (x : U32) : Cpu := { c with dword := Function.update c.dword (c.rsp + off) x }

def load (off : U64) : U32 := c.dword (c.rsp + off)

end Cpu

@[simp] theorem Cpu.xmm_setXmm_self (c : Cpu) (r : Nat) (x : U128) : (c.setXmm r x).xmm r = x :=
  Contents.set_self ..

section setWide

variable (c : Cpu) (low high : U128)

@[simp] theorem Cpu.xmm_setWide : (c.setWide low high).xmm 0 = low := Cpu.xmm_setXmm_self c 0 low

@[simp] theorem Cpu.upper_setWide : (c.setWide low high).upper = high := rfl

@[simp] theorem Cpu.mxcsr_setWide : (c.setWide low high).mxcsr = c.mxcsr := rfl

@[simp] theorem Cpu.rsp_setWide : (c.setWide low high).rsp = c.rsp := rfl

end setWide

/-- Scalar instructions are on `eax`, `bsr` and `cmovnz` with `ecx`, and those on 256 bits on
`ymm0`.  Stack temporaries are by offset. -/
inductive Instr where
  | vec (i : VectorCode.Instr)
  | vpmovzxwd
  | vplzcntdWide
  | vpmovdw
  | vzeroupper
  | vplzcntd (dst src : Nat)
  | paddw (dst src : Nat)
  | pextrw (src lane : Nat)
  | pinsrw (dst lane : Nat)
  | movdFrom (src : Nat)
  | movdTo (dst : Nat)
  | pslldq (dst bytes : Nat)
  | vpsrld (dst src count : Nat)
  | vpandn (dst a b : Nat)
  | vpsubusw (dst a b : Nat)
  | vpminsw (dst a b : Nat)
  | vcvtdq2ps (dst src : Nat)
  | lzcnt
  | bsr
  | cmovnz
  | mov (imm : U32)
  | and (imm : U32)
  | or (imm : U32)
  | xor (imm : U32)
  | sub (imm : U32)
  | subRsp (imm : U64)
  | addRsp (imm : U64)
  | movLoad (off : U64)
  | movStore (off : U64)
  | stmxcsr (off : U64)
  | ldmxcsr (off : U64)
  deriving DecidableEq, Repr

/-- Unsigned difference, zero where it would be negative. -/
def satSub (a b : BitVec 16) : BitVec 16 := if a.ult b then 0 else a - b

/-- The lesser signed number. -/
def minSigned (a b : BitVec 16) : BitVec 16 := if b.slt a then b else a

/-- The inexact conversion faults unless the exception is masked. -/
def Instr.exec (host : Host) (c : Cpu) : Instr → Option Cpu
  | vec i => some { c with vec := i.exec c.vec }
  | vpmovzxwd =>
    let wide := fun k => (lane 16 (c.xmm 0) k).setWidth 32
    some (c.setWide (ofLanes 128 32 wide) (ofLanes 128 32 fun k => wide (k + 4)))
  | vplzcntdWide =>
    some (c.setWide (Packed.mapLanes 32 BitVec.clz (c.xmm 0)) (Packed.mapLanes 32 BitVec.clz c.upper))
  | vpmovdw =>
    let low := fun k => if k < 4 then lane 32 (c.xmm 0) k else lane 32 c.upper (k - 4)
    some (c.setWide (ofLanes 128 16 fun k => (low k).setWidth 16) 0)
  | vzeroupper => some { c with upper := 0 }
  | vplzcntd dst src => some (c.setXmm dst (Packed.mapLanes 32 BitVec.clz (c.xmm src)))
  | paddw dst src => some (c.setXmm dst (Packed.zipLanes 16 (· + ·) (c.xmm dst) (c.xmm src)))
  | pextrw src k => some { c with eax := (lane 16 (c.xmm src) k).setWidth 32 }
  | pinsrw dst k => some (c.setXmm dst (VariableShift.insertLane 16 k (c.eax.setWidth 16) (c.xmm dst)))
  | movdFrom src => some { c with eax := (c.xmm src).setWidth 32 }
  | movdTo dst => some (c.setXmm dst (c.eax.setWidth 128))
  | pslldq dst bytes => some (c.setXmm dst (c.xmm dst <<< (8 * bytes)))
  | vpsrld dst src count => some (c.setXmm dst (Packed.psrl 32 (c.xmm src) count))
  | vpandn dst a b => some (c.setXmm dst (~~~c.xmm a &&& c.xmm b))
  | vpsubusw dst a b => some (c.setXmm dst (Packed.zipLanes 16 satSub (c.xmm a) (c.xmm b)))
  | vpminsw dst a b => some (c.setXmm dst (Packed.zipLanes 16 minSigned (c.xmm a) (c.xmm b)))
  | vcvtdq2ps dst src =>
    if c.mxcsr.getLsbD 12 then
      some { c.setXmm dst (Packed.mapLanes 32 (host.cvtdq2ps c.mxcsr) (c.xmm src)) with
        mxcsr := host.collect c.mxcsr (c.xmm src) }
    else none
  | lzcnt => some (c.result c.eax.clz)
  | bsr =>
    some { c with
      ecx := if c.eax = 0#32 then host.bsrZero c.ecx else BitVec.ofNat 32 c.eax.toNat.log2
      zero := c.eax == 0#32 }
  | cmovnz => some { c with eax := if c.zero then c.eax else c.ecx }
  | mov imm => some { c with eax := imm }
  | and imm => some (c.result (c.eax &&& imm))
  | or imm => some (c.result (c.eax ||| imm))
  | xor imm => some (c.result (c.eax ^^^ imm))
  | sub imm => some (c.result (c.eax - imm))
  | subRsp imm => some { c with rsp := c.rsp - imm, zero := c.rsp - imm == 0#64 }
  | addRsp imm => some { c with rsp := c.rsp + imm, zero := c.rsp + imm == 0#64 }
  | movLoad off => some { c with eax := c.load off }
  | movStore off => some (c.store off c.eax)
  | stmxcsr off => some (c.store off c.mxcsr)
  | ldmxcsr off => some { c with mxcsr := c.load off }

def run (host : Host) : List Instr → Cpu → Option Cpu
  | [], c => some c
  | i :: code, c => (i.exec host c).bind (run host code)

/-! ## The code -/

def clz32Bsr : List Instr := [.bsr, .mov 63#32, .cmovnz, .xor 31#32]

/-- The leading zeros of `eax`. -/
def clzEax (features : CpuFeatures) : List Instr := if features.hasLzcnt then [.lzcnt] else clz32Bsr

def clz16Lane (features : CpuFeatures) (k : Nat) : List Instr :=
  [.pextrw 0 k] ++ clzEax features ++ [.sub 16#32, .pinsrw 1 k]

def clz32Lane (features : CpuFeatures) (k : Nat) : List Instr :=
  [.movdFrom 0] ++ clzEax features ++ [.movdTo 2] ++ (if k ≠ 0 then [.pslldq 2 (k * 4)] else []) ++
    [.vec (.por 1 2), .vec (.psrldq 0 4)]

/-- Lane by lane, in `xmm1`. -/
def clzLanes (code : Nat → List Instr) (count : Nat) : List Instr :=
  [.vec (.pxor 1 1)] ++ (List.range count).flatMap code ++ [.vec (.mov (.xmm 0) (.xmm 1))]

def clz16Wide : List Instr :=
  [.vpmovzxwd, .vplzcntdWide, .vpmovdw, .vzeroupper, .vec (.pcmpeq 16 1 1), .vec (.psll 16 1 4),
    .paddw 0 1]

/-- The number in every lane of 32 bits of `xmm1`. -/
def splat (imm : U32) : List Instr := [.mov imm, .movdTo 1, .vec (.pshufd 1 1 0)]

/-- All exceptions masked and a rounding mode set; the old MXCSR stays in the first temporary. -/
def maskExceptions : List Instr :=
  [.subRsp 16#64, .stmxcsr 0#64, .movLoad 0#64, .and (~~~0x6000#32), .or 0x7F80#32, .movStore 4#64,
    .ldmxcsr 4#64]

/-- Sign and exponent of every lane. -/
def exponents : List Instr := [.vpsrld 1 0 8, .vpandn 1 1 0, .vcvtdq2ps 0 1, .vpsrld 0 0 23]

/-- The counts from the exponents. -/
def countExponents : List Instr :=
  splat 158#32 ++ [.vpsubusw 0 1 0] ++ splat 32#32 ++ [.vpminsw 0 0 1]

def clz32Float : List Instr :=
  maskExceptions ++ exponents ++ countExponents ++ [.ldmxcsr 0#64, .addRsp 16#64]

def clz16Code (features : CpuFeatures) (q : Bool) : List Instr :=
  if features.hasAvx512Clz16 then clz16Wide
  else clzLanes (clz16Lane features) (if q then 8 else 4)

def clz32Code (features : CpuFeatures) (q : Bool) : List Instr :=
  if features.hasAvx512Clz32 then [.vplzcntd 0 0]
  else if features.hasAvx2 && features.preferAvx2Clz32 then clz32Float
  else clzLanes (clz32Lane features) (if q then 4 else 2)

/-- The operand into `xmm0`, and the result from there. -/
def emitWith (code : List Instr) (locs : Nat → Loc) (a : Armlet) (d : Nat) : Option (List Instr) := do
  let load ← intoXmmQ (locs (a.args.get 0)) 0
  let store ← storeXmmQ (locs d) 0
  pure (load.map .vec ++ code ++ (narrowForm a 0 ++ store).map .vec)

def emitOpVecClz16 (features : CpuFeatures) (locs : Nat → Loc) (a : Armlet) (d : Nat) :
    Option (List Instr) :=
  emitWith (clz16Code features (qForm a)) locs a d

def emitOpVecClz32 (features : CpuFeatures) (locs : Nat → Loc) (a : Armlet) (d : Nat) :
    Option (List Instr) :=
  emitWith (clz32Code features (qForm a)) locs a d

/-- The entries of the dispatch table. -/
def emitClz (features : CpuFeatures) (locs : Nat → Loc) (a : Armlet) (d : Nat) : Option (List Instr) :=
  match a.op with
  | .vecClz16 => emitOpVecClz16 features locs a d
  | .vecClz32 => emitOpVecClz32 features locs a d
  | _ => none

/-! ## Counts -/

theorem toNat_clz {w : Nat} (x : BitVec w) :
    x.clz.toNat = if x = 0#w then w else w - 1 - x.toNat.log2 := by
  have hpow := Nat.lt_two_pow_self (n := w)
  split_ifs with hx
  · have h : x.clz = w := BitVec.clz_eq_iff_eq_zero.mpr hx
    rw [h, BitVec.natCast_eq_ofNat, BitVec.toNat_ofNat, Nat.mod_eq_of_lt hpow]
  · have hlt := BitVec.clz_lt_iff_ne_zero.mpr hx
    rw [BitVec.lt_def, BitVec.natCast_eq_ofNat, BitVec.toNat_ofNat, Nat.mod_eq_of_lt hpow] at hlt
    have hne : x.toNat ≠ 0 := fun h => hx (BitVec.eq_of_toNat_eq h)
    have hlow := BitVec.two_pow_sub_clz_le_toNat_of_ne_zero (by omega) hx
    have hhigh := @BitVec.toNat_lt_two_pow_sub_clz w x
    have h1 := (Nat.le_log2 hne).mpr hlow
    have h2 := (Nat.log2_lt hne).mpr hhigh
    omega

theorem clz_setWidth (x : BitVec 16) : ((x.setWidth 32).clz - 16#32).setWidth 16 = x.clz := by
  have h32 := toNat_clz (x.setWidth 32)
  have h16 := toNat_clz x
  have hnat : (x.setWidth 32).toNat = x.toNat := by
    rw [BitVec.toNat_setWidth, Nat.mod_eq_of_lt (x.isLt.trans (by decide))]
  have hzero : x.setWidth 32 = 0#32 ↔ x = 0#16 := by
    rw [← BitVec.toNat_inj, ← BitVec.toNat_inj, hnat]
    rfl
  have hlog : x.toNat.log2 < 16 ∨ x = 0#16 := by
    by_cases hx : x = 0#16
    · exact .inr hx
    · exact .inl ((Nat.log2_lt fun h => hx (BitVec.eq_of_toNat_eq h)).mpr x.isLt)
  rw [hnat] at h32
  simp only [hzero] at h32
  refine BitVec.eq_of_toNat_eq ?_
  rw [BitVec.toNat_setWidth, BitVec.toNat_sub, h32, h16]
  split_ifs with hx
  · rfl
  · rcases hlog with hlt | h
    · rw [BitVec.toNat_ofNat]
      omega
    · exact absurd h hx

/-! ## The registers -/

section run

variable {host : Host} {c c' : Cpu}

theorem run_append (code code' : List Instr) (c : Cpu) :
    run host (code ++ code') c = (run host code c).bind (run host code') := by
  induction code generalizing c with
  | nil => rfl
  | cons i code ih =>
    rw [List.cons_append, run, run]
    cases i.exec host c with
    | none => rfl
    | some c₁ => exact ih c₁

theorem run_singleton (i : Instr) (c : Cpu) : run host [i] c = i.exec host c := by
  rw [run]
  cases i.exec host c <;> rfl

theorem run_vec (code : List VectorCode.Instr) (c : Cpu) :
    run host (code.map .vec) c = some { c with vec := VectorCode.run code c.vec } := by
  induction code generalizing c with
  | nil => rfl
  | cons i code ih => exact ih _

/-- Everything but `eax`, `ecx` and the flag. -/
structure SameRest (c c' : Cpu) : Prop where
  mxcsr : c'.mxcsr = c.mxcsr
  rsp : c'.rsp = c.rsp
  vec : c'.vec = c.vec

/-- Both ways to count the zeros of `eax`, whatever `bsr` leaves for zero. -/
theorem run_clzEax (features : CpuFeatures) (c : Cpu) :
    ∃ c', run host (clzEax features) c = some c' ∧ c'.eax = c.eax.clz ∧ SameRest c c' := by
  cases h : features.hasLzcnt with
  | true =>
    rw [clzEax, if_pos h]
    exact ⟨_, rfl, rfl, rfl, rfl, rfl⟩
  | false =>
    rw [clzEax, h, if_neg Bool.false_ne_true]
    refine ⟨_, rfl, ?_, rfl, rfl, rfl⟩
    refine BitVec.eq_of_toNat_eq ?_
    rw [toNat_clz]
    change ((if c.eax == 0#32 then 63#32 else if c.eax = 0#32 then host.bsrZero c.ecx
      else BitVec.ofNat 32 c.eax.toNat.log2) ^^^ 31#32).toNat = _
    by_cases hx : c.eax = 0#32
    · rw [if_pos hx, hx, beq_self_eq_true, if_pos rfl, if_pos rfl]
      rfl
    · have hlog : c.eax.toNat.log2 < 32 :=
        (Nat.log2_lt fun h => hx (BitVec.eq_of_toNat_eq h)).mpr c.eax.isLt
      have hall : ∀ i < 32, (BitVec.ofNat 32 i ^^^ 31#32).toNat = 32 - 1 - i := by decide
      rw [if_neg (by simpa using hx), if_neg hx, if_neg hx, hall _ hlog]

theorem run_clz16Lane (features : CpuFeatures) (k : Nat) (c : Cpu) :
    ∃ c', run host (clz16Lane features k) c = some c' ∧ c'.mxcsr = c.mxcsr ∧ c'.rsp = c.rsp ∧
      c'.vec = c.vec.set (.xmm 1)
        (VariableShift.insertLane 16 k (lane 16 (c.xmm 0) k).clz (c.xmm 1)) := by
  obtain ⟨c₁, hrun, heax, hsame⟩ :=
    @run_clzEax host features { c with eax := (lane 16 (c.xmm 0) k).setWidth 32 }
  refine ⟨(c₁.result (c₁.eax - 16#32)).setXmm 1 (VariableShift.insertLane 16 k
    ((c₁.eax - 16#32).setWidth 16) (c₁.xmm 1)), ?_, hsame.mxcsr, hsame.rsp, ?_⟩
  · rw [clz16Lane, run_append, run_append, run_singleton, Instr.exec, Option.bind_some, hrun]
    rfl
  · change c₁.vec.set _ (VariableShift.insertLane 16 k _ (c₁.vec _)) = _
    rw [heax, clz_setWidth, hsame.vec]
    rfl

/-- The counts of the first `count` lanes, in `xmm1`. -/
def countRow (w : Nat) (x : U128) (count : Nat) : U128 :=
  ofLanes 128 w (upTo count fun k => (lane w x k).clz)

theorem run_clz16Lanes (features : CpuFeatures) (count : Nat) (c : Cpu) (hzero : c.xmm 1 = 0) :
    ∃ c', run host ((List.range count).flatMap (clz16Lane features)) c = some c' ∧
      c'.mxcsr = c.mxcsr ∧ c'.rsp = c.rsp ∧ c'.xmm 0 = c.xmm 0 ∧ c'.xmm 1 = countRow 16 (c.xmm 0) count := by
  induction count with
  | zero =>
    refine ⟨c, rfl, rfl, rfl, rfl, ?_⟩
    rw [countRow, ofLanes_upTo_zero]
    exact hzero
  | succ k ih =>
    obtain ⟨c₁, hrun, hmxcsr, hrsp, h0, h1⟩ := ih
    obtain ⟨c₂, hrun', hmxcsr', hrsp', hvec⟩ := @run_clz16Lane host features k c₁
    refine ⟨c₂, ?_, hmxcsr'.trans hmxcsr, hrsp'.trans hrsp, ?_, ?_⟩
    · rw [List.range_succ, List.flatMap_append, List.flatMap_singleton, run_append, hrun]
      exact hrun'
    · rw [← h0, Cpu.xmm, hvec, Contents.set_of_ne (by decide)]
      rfl
    · rw [Cpu.xmm, hvec, Contents.set_self, h0, h1]
      exact VariableShift.insertLane_upTo (by decide) (fun k => (lane 16 (c.xmm 0) k).clz) k

/-- What is done to the vectors after a count: it is put where it belongs, and the next lane comes
down. -/
theorem run_clz32Lane (features : CpuFeatures) (k : Nat) (c : Cpu) :
    ∃ c', run host (clz32Lane features k) c = some c' ∧ c'.mxcsr = c.mxcsr ∧ c'.rsp = c.rsp ∧
      c'.xmm 0 = c.xmm 0 >>> 32 ∧
      c'.xmm 1 = c.xmm 1 ||| ((c.xmm 0).setWidth 32).clz.setWidth 128 <<< (k * 32) := by
  obtain ⟨c₁, hrun, heax, hsame⟩ := @run_clzEax host features { c with eax := (c.xmm 0).setWidth 32 }
  have h0 : c₁.xmm 0 = c.xmm 0 := congrFun hsame.vec _
  have h1 : c₁.xmm 1 = c.xmm 1 := congrFun hsame.vec _
  have hstart : run host ([.movdFrom 0] ++ clzEax features ++ [.movdTo 2]) c =
      some (c₁.setXmm 2 (c₁.eax.setWidth 128)) := by
    rw [run_append, run_append, run_singleton, Instr.exec, Option.bind_some, hrun]
    rfl
  rw [clz32Lane, run_append, run_append, hstart, Option.bind_some]
  by_cases hk : k = 0
  · rw [if_neg (not_not.mpr hk)]
    refine ⟨_, rfl, hsame.mxcsr, hsame.rsp, ?_, ?_⟩
    · change (c₁.xmm 0) >>> 32 = _
      rw [h0]
    · change c₁.xmm 1 ||| c₁.eax.setWidth 128 = _
      rw [h1, heax, hk]
      simp
  · rw [if_pos hk]
    refine ⟨_, rfl, hsame.mxcsr, hsame.rsp, ?_, ?_⟩
    · change (c₁.xmm 0) >>> 32 = _
      rw [h0]
    · change c₁.xmm 1 ||| c₁.eax.setWidth 128 <<< (8 * (k * 4)) = _
      rw [h1, heax, (by omega : 8 * (k * 4) = k * 32)]

theorem run_clz32Lanes (features : CpuFeatures) (count : Nat) (c : Cpu) (hzero : c.xmm 1 = 0) :
    ∃ c', run host ((List.range count).flatMap (clz32Lane features)) c = some c' ∧
      c'.mxcsr = c.mxcsr ∧ c'.rsp = c.rsp ∧ c'.xmm 0 = c.xmm 0 >>> (count * 32) ∧
      c'.xmm 1 = countRow 32 (c.xmm 0) count := by
  induction count with
  | zero =>
    refine ⟨c, rfl, rfl, rfl, by simp, ?_⟩
    rw [countRow, ofLanes_upTo_zero]
    exact hzero
  | succ k ih =>
    obtain ⟨c₁, hrun, hmxcsr, hrsp, h0, h1⟩ := ih
    obtain ⟨c₂, hrun', hmxcsr', hrsp', h0', h1'⟩ := @run_clz32Lane host features k c₁
    refine ⟨c₂, ?_, hmxcsr'.trans hmxcsr, hrsp'.trans hrsp, ?_, ?_⟩
    · rw [List.range_succ, List.flatMap_append, List.flatMap_singleton, run_append, hrun]
      exact hrun'
    · rw [h0', h0, ← BitVec.shiftRight_add]
      congr 1
      omega
    · rw [h1', h0, h1, lane_eq_setWidth, countRow, countRow, ofLanes_upTo_succ _ (by decide)]

/-- MXCSR during the conversion. -/
def maskedMxcsr (mxcsr : U32) : U32 := mxcsr &&& ~~~0x6000#32 ||| 0x7F80#32

theorem run_maskExceptions (c : Cpu) :
    ∃ c', run host maskExceptions c = some c' ∧ c'.mxcsr = maskedMxcsr c.mxcsr ∧
      c'.rsp = c.rsp - 16#64 ∧ c'.load 0#64 = c.mxcsr ∧ c'.vec = c.vec := by
  refine ⟨_, rfl, ?_, rfl, ?_, rfl⟩
  · simp [Cpu.load, Cpu.store, Cpu.result, maskedMxcsr]
  · simp [Cpu.load, Cpu.store, Cpu.result]

/-- Every lane without the bits eight below another. -/
def spread (x : U128) : U128 := ~~~Packed.psrl 32 x 8 &&& x

theorem run_exponents (c : Cpu) (h : c.mxcsr.getLsbD 12 = true) :
    ∃ c', run host exponents c = some c' ∧ c'.rsp = c.rsp ∧ c'.dword = c.dword ∧
      c'.xmm 0 = Packed.psrl 32 (Packed.mapLanes 32 (host.cvtdq2ps c.mxcsr) (spread (c.xmm 0))) 23 := by
  let c₁ := (c.setXmm 1 (Packed.psrl 32 (c.xmm 0) 8)).setXmm 1 (spread (c.xmm 0))
  let c₂ : Cpu := { c₁.setXmm 0 (Packed.mapLanes 32 (host.cvtdq2ps c.mxcsr) (spread (c.xmm 0))) with
    mxcsr := host.collect c.mxcsr (spread (c.xmm 0)) }
  have hconvert : Instr.exec host c₁ (.vcvtdq2ps 0 1) = some c₂ := if_pos h
  have hload : run host [.vpsrld 1 0 8, .vpandn 1 1 0] c = some c₁ := rfl
  have hsplit : exponents = [.vpsrld 1 0 8, .vpandn 1 1 0] ++ [.vcvtdq2ps 0 1] ++ [.vpsrld 0 0 23] := rfl
  refine ⟨c₂.setXmm 0 (Packed.psrl 32 (c₂.xmm 0) 23), ?_, rfl, rfl, Cpu.xmm_setXmm_self ..⟩
  rw [hsplit, run_append, run_append, hload, Option.bind_some, run_singleton, hconvert]
  rfl

/-- The number in every lane. -/
def splatBits (imm : U32) : U128 := Packed.pshufd (imm.setWidth 128) 0

theorem run_splat (imm : U32) (c : Cpu) :
    ∃ c', run host (splat imm) c = some c' ∧ c'.mxcsr = c.mxcsr ∧ c'.rsp = c.rsp ∧
      c'.dword = c.dword ∧ c'.xmm 0 = c.xmm 0 ∧ c'.xmm 1 = splatBits imm := by
  refine ⟨_, rfl, rfl, rfl, rfl, ?_, ?_⟩
  · simp [Cpu.xmm, Cpu.setXmm, Contents.set_apply]
  · simp [Cpu.xmm, Cpu.setXmm, splatBits]

/-- The counts from signs and exponents. -/
def countBits (x : U128) : U128 :=
  Packed.zipLanes 16 minSigned (Packed.zipLanes 16 satSub (splatBits 158#32) x) (splatBits 32#32)

theorem run_countExponents (c : Cpu) :
    ∃ c', run host countExponents c = some c' ∧ c'.rsp = c.rsp ∧ c'.dword = c.dword ∧
      c'.xmm 0 = countBits (c.xmm 0) := by
  obtain ⟨c₁, hrun₁, -, hrsp₁, hdword₁, h0₁, h1₁⟩ := @run_splat host 158#32 c
  let c₂ := c₁.setXmm 0 (Packed.zipLanes 16 satSub (c₁.xmm 1) (c₁.xmm 0))
  obtain ⟨c₃, hrun₃, -, hrsp₃, hdword₃, h0₃, h1₃⟩ := @run_splat host 32#32 c₂
  have hsub : Instr.exec host c₁ (.vpsubusw 0 1 0) = some c₂ := rfl
  refine ⟨c₃.setXmm 0 (Packed.zipLanes 16 minSigned (c₃.xmm 0) (c₃.xmm 1)), ?_, hrsp₃.trans hrsp₁,
    hdword₃.trans hdword₁, ?_⟩
  · rw [countExponents, run_append, run_append, run_append, hrun₁, Option.bind_some, run_singleton, hsub,
      Option.bind_some, hrun₃]
    rfl
  · rw [Cpu.xmm_setXmm_self, h0₃, h1₃, Cpu.xmm_setXmm_self, h0₁, h1₁, countBits]

theorem run_clz32Float (c : Cpu) :
    ∃ c', run host clz32Float c = some c' ∧ c'.mxcsr = c.mxcsr ∧ c'.rsp = c.rsp ∧
      c'.xmm 0 = countBits (Packed.psrl 32 (Packed.mapLanes 32 (host.cvtdq2ps (maskedMxcsr c.mxcsr))
        (spread (c.xmm 0))) 23) := by
  have hmasked : (maskedMxcsr c.mxcsr).getLsbD 12 = true := by
    rw [maskedMxcsr, BitVec.getLsbD_or, (by decide : (0x7F80#32).getLsbD 12 = true), Bool.or_true]
  obtain ⟨c₁, hrun₁, hmxcsr₁, hrsp₁, hload₁, hvec₁⟩ := @run_maskExceptions host c
  obtain ⟨c₂, hrun₂, hrsp₂, hdword₂, hxmm₂⟩ := @run_exponents host c₁ (by rwa [hmxcsr₁])
  obtain ⟨c₃, hrun₃, hrsp₃, hdword₃, hxmm₃⟩ := @run_countExponents host c₂
  have hload₃ : c₃.load 0#64 = c.mxcsr := by
    rw [Cpu.load, hdword₃, hrsp₃, hdword₂, hrsp₂]
    exact hload₁
  refine ⟨{ c₃ with mxcsr := c₃.load 0#64, rsp := c₃.rsp + 16#64, zero := c₃.rsp + 16#64 == 0#64 }, ?_,
    hload₃, ?_, ?_⟩
  · rw [clz32Float, run_append, run_append, run_append, hrun₁, Option.bind_some, hrun₂, Option.bind_some,
      hrun₃]
    rfl
  · change c₃.rsp + 16#64 = _
    rw [hrsp₃, hrsp₂, hrsp₁, BitVec.sub_add_cancel]
  · change c₃.xmm 0 = _
    rw [hxmm₃, hxmm₂, hmxcsr₁, Cpu.xmm, hvec₁]
    rfl

end run

/-! ## Exponents -/

section exponents

/-- A number with the bits eight below another bit cleared. -/
def spreadLane (a : U32) : U32 := ~~~(a >>> 8) &&& a

theorem getLsbD_spreadLane (a : U32) (j : Nat) :
    (spreadLane a).getLsbD j = (!a.getLsbD (8 + j) && a.getLsbD j) := by
  rw [spreadLane, BitVec.getLsbD_and, BitVec.getLsbD_not, BitVec.getLsbD_ushiftRight]
  by_cases hj : j < 32
  · rw [decide_eq_true hj, Bool.true_and]
  · rw [BitVec.getLsbD_of_ge a j (Nat.le_of_not_lt hj), Bool.and_false, Bool.and_false]

theorem toNat_spreadLane_le (a : U32) : (spreadLane a).toNat ≤ a.toNat := by
  rw [spreadLane, BitVec.toNat_and]
  exact Nat.and_le_right

/-- A clear bit leaves room. -/
theorem add_two_pow_le {y j : Nat} (hy : y < 512 * 2 ^ j) (hbit : y.testBit j = false) :
    y + 2 ^ j ≤ 512 * 2 ^ j := by
  have hpos := Nat.two_pow_pos j
  have hdiv : y / 2 ^ j < 512 := (Nat.div_lt_iff_lt_mul hpos).mpr hy
  have heven : y / 2 ^ j % 2 = 0 := by
    rw [Nat.testBit_eq_decide_div_mod_eq, decide_eq_false_iff_not] at hbit
    omega
  have hlt := Nat.lt_mul_div_succ y hpos
  have hle : 2 ^ j * (y / 2 ^ j + 1 + 1) ≤ 2 ^ j * 512 := Nat.mul_le_mul_left _ (by omega)
  rw [Nat.mul_succ] at hle
  omega

/-- The leading bit stays, and there is room below the next power of two. -/
theorem spreadLane_bounds {a : U32} (ha : a ≠ 0#32) :
    2 ^ a.toNat.log2 ≤ (spreadLane a).toNat ∧
      (spreadLane a).toNat * 2 ^ 23 ≤ (2 ^ 24 - 1) * 2 ^ a.toNat.log2 := by
  have hne : a.toNat ≠ 0 := fun h => ha (BitVec.eq_of_toNat_eq h)
  have htop : a.getLsbD a.toNat.log2 = true := Nat.testBit_log2 hne
  have hlt := (toNat_spreadLane_le a).trans_lt (Nat.lt_log2_self (n := a.toNat))
  have habove : a.getLsbD (8 + a.toNat.log2) = false :=
    Nat.testBit_lt_two_pow (Nat.lt_log2_self.trans_le (Nat.pow_le_pow_right (by decide) (by omega)))
  generalize a.toNat.log2 = i at *
  constructor
  · refine Nat.ge_two_pow_of_testBit ?_
    change (spreadLane a).getLsbD i = true
    rw [getLsbD_spreadLane, habove, htop]
    rfl
  · rcases Nat.lt_or_ge i 8 with hi | hi
    · have hpow : 2 ^ i ≤ 2 ^ 23 := Nat.pow_le_pow_right (by decide) (by omega)
      rw [pow_succ] at hlt
      omega
    · obtain ⟨j, rfl⟩ := Nat.exists_eq_add_of_le hi
      have hsplit : 2 ^ (8 + j) = 256 * 2 ^ j := pow_add 2 8 j
      have hclear : (spreadLane a).toNat.testBit j = false := by
        change (spreadLane a).getLsbD j = false
        rw [getLsbD_spreadLane, htop]
        rfl
      rw [pow_succ, hsplit] at hlt
      have hroom := add_two_pow_le (by omega) hclear
      rw [hsplit]
      omega

/-- The exponent of a rounded number that is between a power of two and the last encoding below the
next one. -/
theorem low_div_of_bounds {mode : Round} {neg : Bool} {y i l : Nat} (hlo : 2 ^ i ≤ y)
    (hhi : y * 2 ^ 23 ≤ (2 ^ 24 - 1) * 2 ^ i)
    (hl : BinaryFormat.Rounds 23 (mode.Rounds neg) ((y : ℚ) / Fmt.s.unit) l) : l / 2 ^ 23 = i + 127 := by
  have hunit : (y : ℚ) / Fmt.s.unit = (y * 2 ^ 149 : ℕ) := by
    have hu : Fmt.s.unit = ((2 : ℚ) ^ 149)⁻¹ := by
      rw [Fmt.unit, ← zpow_natCast, ← zpow_neg]
      rfl
    rw [hu, div_inv_eq_mul]
    push_cast
    rfl
  rw [hunit] at hl
  have hfirst : BinaryFormat.mag 23 ((i + 126 + 1) * 2 ^ 23 + (2 ^ 23 - 2 ^ 23)) = 2 ^ 23 * 2 ^ (i + 126) :=
    BinaryFormat.mag_normal le_rfl (by decide)
  have hlast : BinaryFormat.mag 23 ((i + 126 + 1) * 2 ^ 23 + (2 ^ 24 - 1 - 2 ^ 23)) =
      (2 ^ 24 - 1) * 2 ^ (i + 126) := BinaryFormat.mag_normal (by decide) (by decide)
  have hclose := close_rounds mode neg
  have hge := hl.le_of_mag_le hclose (k := (i + 126 + 1) * 2 ^ 23 + (2 ^ 23 - 2 ^ 23)) (by
    rw [hfirst, Nat.cast_le]
    calc 2 ^ 23 * 2 ^ (i + 126) = 2 ^ i * 2 ^ 149 := by ring
      _ ≤ y * 2 ^ 149 := Nat.mul_le_mul_right _ hlo)
  have hle := hl.le_of_le_mag hclose (k := (i + 126 + 1) * 2 ^ 23 + (2 ^ 24 - 1 - 2 ^ 23)) (by
    rw [hlast, Nat.cast_le]
    calc y * 2 ^ 149 = y * 2 ^ 23 * 2 ^ 126 := by ring
      _ ≤ (2 ^ 24 - 1) * 2 ^ i * 2 ^ 126 := Nat.mul_le_mul_right _ hhi
      _ = (2 ^ 24 - 1) * 2 ^ (i + 126) := by ring)
  omega

theorem msb_spreadLane (a : U32) : (spreadLane a).msb = a.msb := by
  rw [BitVec.msb_eq_getLsbD_last, BitVec.msb_eq_getLsbD_last, getLsbD_spreadLane,
    BitVec.getLsbD_of_ge a (8 + (32 - 1)) (by decide)]
  exact Bool.true_and _

/-- Sign and exponent after the conversion. -/
theorem exponent_spec {host : Host} (hhost : host.Converts) (mxcsr a : U32) :
    (a = 0#32 → (host.cvtdq2ps mxcsr (spreadLane a) >>> 23).toNat = 0) ∧
    (a.msb = true → 256 ≤ (host.cvtdq2ps mxcsr (spreadLane a) >>> 23).toNat) ∧
    (a ≠ 0#32 → a.msb = false →
      (host.cvtdq2ps mxcsr (spreadLane a) >>> 23).toNat = a.toNat.log2 + 127) := by
  obtain ⟨mode, l, hl, hr⟩ := hhost mxcsr (spreadLane a)
  rw [msb_spreadLane] at hl hr
  generalize host.cvtdq2ps mxcsr (spreadLane a) = r at *
  have hr32 : (r.setWidth 64).toNat = r.toNat := by
    rw [BitVec.toNat_setWidth, Nat.mod_eq_of_lt (r.isLt.trans (by decide))]
  have hsign : Fmt.s.sign (r.setWidth 64) = a.msb := by rw [hr, sign_encode]
  rw [BitVec.toNat_ushiftRight, Nat.shiftRight_eq_div_pow]
  -- Below infinity, the encoding of a number that is not negative is its magnitude.
  have hlow (hneg : a.msb = false) (hlt : l < Fmt.s.infLow) : r.toNat = l := by
    rw [← hr32, hr, hneg, encode_of_lt hlt, toNat_or_zero (hlt.trans (infLow_lt .s)),
      if_neg Bool.false_ne_true, Nat.zero_add]
  have hvalue (hneg : a.msb = false) : |((spreadLane a).toInt : ℚ)| = (spreadLane a).toNat := by
    rw [BitVec.toInt_eq_toNat_of_msb (by rw [msb_spreadLane, hneg]), Int.cast_natCast, Nat.abs_cast]
  refine ⟨?_, fun hmsb => ?_, fun ha hneg => ?_⟩
  · rintro rfl
    have hzero : l ≤ 0 := hl.le_of_le_mag (close_rounds mode _) (by
      have hspread : (spreadLane 0#32).toInt = 0 := by decide
      rw [hspread, BinaryFormat.mag_zero]
      simp)
    rw [hlow rfl (by rw [Nat.le_zero.mp hzero]; decide), Nat.le_zero.mp hzero]
  · rw [hmsb, Fmt.sign_iff, hr32] at hsign
    have hbits : Fmt.s.bits - 1 = 31 := rfl
    rw [hbits] at hsign
    omega
  · obtain ⟨hlo, hhi⟩ := spreadLane_bounds ha
    have hlog : a.toNat.log2 < 32 := (Nat.log2_lt fun h => ha (BitVec.eq_of_toNat_eq h)).mpr a.isLt
    rw [hvalue hneg] at hl
    have hdiv := low_div_of_bounds hlo hhi hl
    have hinf : l < Fmt.s.infLow := (Nat.div_lt_iff_lt_mul (by decide)).mp
      (hdiv.trans_lt (by omega : a.toNat.log2 + 127 < 255))
    rw [hlow hneg hinf, hdiv]

end exponents

/-! ## Lanes -/

section lanes

variable {k : Nat} {x : U128}

/-- An operation on both halves of a lane. -/
def onHalves (f : BitVec 16 → BitVec 16 → BitVec 16) (a b : U32) : U32 :=
  (f ((a >>> 16).setWidth 16) ((b >>> 16).setWidth 16) ++ f (a.setWidth 16) (b.setWidth 16) : BitVec 32)

theorem lane_half (x : U128) (k : Nat) : lane 16 x (2 * k) = (lane 32 x k).setWidth 16 := by
  refine BitVec.eq_of_getLsbD_eq fun i hi => ?_
  have hi32 : i < 32 := by omega
  rw [getLsbD_lane, BitVec.getLsbD_setWidth, getLsbD_lane, decide_eq_true hi, decide_eq_true hi32,
    (by omega : 16 * (2 * k) + i = 32 * k + i), Bool.true_and, Bool.true_and]

theorem lane_half_succ (x : U128) (k : Nat) :
    lane 16 x (2 * k + 1) = (lane 32 x k >>> 16).setWidth 16 := by
  refine BitVec.eq_of_getLsbD_eq fun i hi => ?_
  have hi32 : 16 + i < 32 := by omega
  rw [getLsbD_lane, BitVec.getLsbD_setWidth, BitVec.getLsbD_ushiftRight, getLsbD_lane, decide_eq_true hi,
    decide_eq_true hi32, (by omega : 16 * (2 * k + 1) + i = 32 * k + (16 + i)), Bool.true_and,
    Bool.true_and]

theorem lane_zipLanes_half (f : BitVec 16 → BitVec 16 → BitVec 16) (x y : U128) (hk : k < 4) :
    lane 32 (Packed.zipLanes 16 f x y) k = onHalves f (lane 32 x k) (lane 32 y k) := by
  have hlow := @Packed.lane_zipLanes 16 (2 * k) x y f (by omega)
  have hhigh := @Packed.lane_zipLanes 16 (2 * k + 1) x y f (by omega)
  rw [lane_half, lane_half, lane_half] at hlow
  rw [lane_half_succ, lane_half_succ, lane_half_succ] at hhigh
  rw [onHalves, ← hlow, ← hhigh]
  refine BitVec.eq_of_getLsbD_eq fun i hi => ?_
  rw [BitVec.getLsbD_append]
  split_ifs with h
  · rw [BitVec.getLsbD_setWidth, decide_eq_true h, Bool.true_and]
  · rw [BitVec.getLsbD_setWidth, BitVec.getLsbD_ushiftRight, Nat.add_sub_cancel' (Nat.le_of_not_lt h)]
    have hlt : i - 16 < 16 := by omega
    rw [decide_eq_true hlt, Bool.true_and]

theorem lane_splatBits (imm : U32) (hk : k < 4) : lane 32 (splatBits imm) k = imm := by
  have hzero : ((0 : BitVec 8) >>> (2 * k)).toNat % 4 = 0 := by
    simp
  rw [splatBits, Packed.pshufd, lane_ofLanes _ (by omega), hzero]
  refine BitVec.eq_of_getLsbD_eq fun i hi => ?_
  rw [getLsbD_lane, BitVec.getLsbD_setWidth, decide_eq_true hi, Nat.mul_zero, Nat.zero_add]
  simp [hi]
  omega

/-- The count of a lane from its sign and exponent: at most 32, and none for a negative number. -/
theorem lane_countBits (hk : k < 4) (he : (lane 32 x k).toNat < 512) :
    (lane 32 (countBits x) k).toNat = min (158 - (lane 32 x k).toNat) 32 := by
  have hall : ∀ e < 512, (onHalves minSigned (onHalves satSub 158#32 (BitVec.ofNat 32 e)) 32#32).toNat =
      min (158 - e) 32 := by decide +kernel
  rw [countBits, lane_zipLanes_half _ _ _ hk, lane_zipLanes_half _ _ _ hk, lane_splatBits _ hk,
    lane_splatBits _ hk, ← hall _ he, BitVec.ofNat_toNat, BitVec.setWidth_eq]

/-- **The exponents give the counts**, however the conversion rounds. -/
theorem floatCount_eq {host : Host} (hhost : host.Converts) (mxcsr : U32) (x : U128) (hk : k < 4) :
    lane 32 (countBits (Packed.psrl 32 (Packed.mapLanes 32 (host.cvtdq2ps mxcsr) (spread x)) 23)) k =
      (lane 32 x k).clz := by
  have hle : 32 * k + 32 ≤ 128 := by omega
  have hspread : lane 32 (spread x) k = spreadLane (lane 32 x k) := by
    rw [spread, lane_and, lane_not _ _ hle, Packed.psrl, Packed.lane_mapLanes _ hle, spreadLane]
  have hlane : lane 32 (Packed.psrl 32 (Packed.mapLanes 32 (host.cvtdq2ps mxcsr) (spread x)) 23) k =
      host.cvtdq2ps mxcsr (spreadLane (lane 32 x k)) >>> 23 := by
    rw [Packed.psrl, Packed.lane_mapLanes _ hle, Packed.lane_mapLanes _ hle, hspread]
  have hlt : (lane 32 (Packed.psrl 32 (Packed.mapLanes 32 (host.cvtdq2ps mxcsr) (spread x)) 23) k).toNat
      < 512 := by
    rw [hlane, BitVec.toNat_ushiftRight, Nat.shiftRight_eq_div_pow, Nat.div_lt_iff_lt_mul (by decide)]
    exact BitVec.isLt _
  refine BitVec.eq_of_toNat_eq ?_
  rw [lane_countBits hk hlt, hlane, toNat_clz]
  generalize lane 32 x k = a
  obtain ⟨hzero, hneg, hpos⟩ := exponent_spec hhost mxcsr a
  split_ifs with ha
  · rw [hzero ha]
    rfl
  · have hlog : a.toNat.log2 < 32 := (Nat.log2_lt fun h => ha (BitVec.eq_of_toNat_eq h)).mpr a.isLt
    cases hmsb : a.msb with
    | true =>
      have hlo := hneg hmsb
      have htop : 31 ≤ a.toNat.log2 := by
        rw [Nat.le_log2 fun h => ha (BitVec.eq_of_toNat_eq h)]
        exact BitVec.le_toNat_of_msb_true hmsb
      omega
    | false =>
      rw [hpos ha hmsb]
      omega

/-- The counts of the lanes as numbers of 32 bits. -/
theorem run_widen (host : Host) (c : Cpu) :
    ∃ c', run host [.vpmovzxwd, .vplzcntdWide, .vpmovdw, .vzeroupper] c = some c' ∧
      c'.mxcsr = c.mxcsr ∧ c'.rsp = c.rsp ∧
      ∀ k < 8, lane 16 (c'.xmm 0) k = ((lane 16 (c.xmm 0) k).setWidth 32).clz.setWidth 16 := by
  obtain ⟨c₁, e1, h1, u1, m1, r1⟩ : ∃ c₁, Instr.exec host c .vpmovzxwd = some c₁ ∧
      c₁.xmm 0 = ofLanes 128 32 (fun k => (lane 16 (c.xmm 0) k).setWidth 32) ∧
      c₁.upper = ofLanes 128 32 (fun k => (lane 16 (c.xmm 0) (k + 4)).setWidth 32) ∧
      c₁.mxcsr = c.mxcsr ∧ c₁.rsp = c.rsp :=
    ⟨_, rfl, Cpu.xmm_setWide .., Cpu.upper_setWide .., Cpu.mxcsr_setWide .., Cpu.rsp_setWide ..⟩
  obtain ⟨c₂, e2, h2, u2, m2, r2⟩ : ∃ c₂, Instr.exec host c₁ .vplzcntdWide = some c₂ ∧
      c₂.xmm 0 = Packed.mapLanes 32 BitVec.clz (c₁.xmm 0) ∧
      c₂.upper = Packed.mapLanes 32 BitVec.clz c₁.upper ∧
      c₂.mxcsr = c₁.mxcsr ∧ c₂.rsp = c₁.rsp :=
    ⟨_, rfl, Cpu.xmm_setWide .., Cpu.upper_setWide .., Cpu.mxcsr_setWide .., Cpu.rsp_setWide ..⟩
  obtain ⟨c₃, e3, h3, m3, r3⟩ : ∃ c₃, Instr.exec host c₂ .vpmovdw = some c₃ ∧
      c₃.xmm 0 = ofLanes 128 16 (fun k =>
        (if k < 4 then lane 32 (c₂.xmm 0) k else lane 32 c₂.upper (k - 4)).setWidth 16) ∧
      c₃.mxcsr = c₂.mxcsr ∧ c₃.rsp = c₂.rsp :=
    ⟨_, rfl, Cpu.xmm_setWide .., Cpu.mxcsr_setWide .., Cpu.rsp_setWide ..⟩
  refine ⟨{ c₃ with upper := 0 }, ?_, m3.trans (m2.trans m1), r3.trans (r2.trans r1), fun k hk => ?_⟩
  · rw [run, e1, Option.bind_some, run, e2, Option.bind_some, run, e3]
    rfl
  · change lane 16 (c₃.xmm 0) k = _
    rw [h3, lane_ofLanes _ (by omega)]
    split_ifs with h
    · have hle : 32 * k + 32 ≤ 128 := by omega
      rw [h2, h1, Packed.lane_mapLanes _ hle, lane_ofLanes _ hle]
    · have hle : 32 * (k - 4) + 32 ≤ 128 := by omega
      rw [u2, u1, Packed.lane_mapLanes _ hle, lane_ofLanes _ hle, Nat.sub_add_cancel (Nat.le_of_not_lt h)]

theorem setWidth_sub_sixteen (y : U32) : (y - 16#32).setWidth 16 = y.setWidth 16 + 0xFFF0#16 := by
  refine BitVec.eq_of_toNat_eq ?_
  simp only [BitVec.toNat_add, BitVec.toNat_sub, BitVec.toNat_setWidth, BitVec.toNat_ofNat]
  omega

/-- They are 16 too high. -/
theorem run_clz16Wide (host : Host) (c : Cpu) :
    ∃ c', run host clz16Wide c = some c' ∧ c'.mxcsr = c.mxcsr ∧ c'.rsp = c.rsp ∧
      ∀ k < 8, lane 16 (c'.xmm 0) k = (lane 16 (c.xmm 0) k).clz := by
  obtain ⟨c₁, hrun, hmxcsr, hrsp, hlane⟩ := run_widen host c
  let c₂ : Cpu := { c₁ with vec := VectorCode.run [.pcmpeq 16 1 1, .psll 16 1 4] c₁.vec }
  have h0 : c₂.xmm 0 = c₁.xmm 0 := by simp [c₂, Cpu.xmm]
  have h1 : c₂.xmm 1 = Packed.psll 16 (BitVec.allOnes 128) 4 := by
    rw [← Packed.pcmpeq_self (by decide : 0 < 16) (by decide) (c₁.xmm 1)]
    simp [c₂, Cpu.xmm]
  refine ⟨c₂.setXmm 0 (Packed.zipLanes 16 (· + ·) (c₂.xmm 0) (c₂.xmm 1)), ?_, hmxcsr, hrsp, fun k hk => ?_⟩
  · have hsplit : clz16Wide = [.vpmovzxwd, .vplzcntdWide, .vpmovdw, .vzeroupper] ++
        [.vec (.pcmpeq 16 1 1), .vec (.psll 16 1 4), .paddw 0 1] := rfl
    rw [hsplit, run_append, hrun]
    rfl
  · have hle : 16 * k + 16 ≤ 128 := by omega
    have hminus : lane 16 (Packed.psll 16 (BitVec.allOnes 128) 4) k = 0xFFF0#16 := by
      rw [Packed.psll, Packed.lane_mapLanes _ hle, Packed.lane_allOnes hle]
      rfl
    rw [Cpu.xmm_setXmm_self, Packed.lane_zipLanes _ hle, h0, h1, hlane k hk, hminus,
      ← setWidth_sub_sixteen, clz_setWidth]

end lanes

/-! ## The paths -/

section paths

variable {host : Host} (features : CpuFeatures) (q : Bool) (c : Cpu)

theorem run_clzLanes {w : Nat} {code : Nat → List Instr} {count : Nat}
    (hcode : ∀ c : Cpu, c.xmm 1 = 0 → ∃ c', run host ((List.range count).flatMap code) c = some c' ∧
      c'.mxcsr = c.mxcsr ∧ c'.rsp = c.rsp ∧ c'.xmm 1 = countRow w (c.xmm 0) count) :
    ∃ c', run host (clzLanes code count) c = some c' ∧ c'.mxcsr = c.mxcsr ∧ c'.rsp = c.rsp ∧
      c'.xmm 0 = countRow w (c.xmm 0) count := by
  let c₀ : Cpu := { c with vec := (VectorCode.Instr.pxor 1 1).exec c.vec }
  have hzero : c₀.xmm 1 = 0 := by simp [c₀, Cpu.xmm]
  have hsame : c₀.xmm 0 = c.xmm 0 := by simp [c₀, Cpu.xmm]
  obtain ⟨c₁, hrun, hmxcsr, hrsp, h1⟩ := hcode c₀ hzero
  refine ⟨{ c₁ with vec := (VectorCode.Instr.mov (.xmm 0) (.xmm 1)).exec c₁.vec }, ?_, hmxcsr, hrsp, ?_⟩
  · have hstart : run host [.vec (.pxor 1 1)] c = some c₀ := rfl
    rw [clzLanes, run_append, run_append, hstart, Option.bind_some, hrun]
    rfl
  · rw [← hsame, ← h1]
    simp [Cpu.xmm]

theorem lane_countRow {w count k : Nat} (x : U128) (hk : k < count)
    (hle : w * k + w ≤ 128) : lane w (countRow w x count) k = (lane w x k).clz := by
  rw [countRow, lane_ofLanes _ hle, upTo, if_pos hk]

theorem run_clz16Code :
    ∃ c', run host (clz16Code features q) c = some c' ∧ c'.mxcsr = c.mxcsr ∧ c'.rsp = c.rsp ∧
      ∀ k < activeLanes 16 q false, lane 16 (c'.xmm 0) k = (lane 16 (c.xmm 0) k).clz := by
  have hactive : activeLanes 16 q false = if q then 8 else 4 := by cases q <;> rfl
  have hle : (if q then 8 else 4) ≤ 8 := by cases q <;> decide
  rw [clz16Code, hactive]
  generalize (if q then 8 else 4) = count at *
  split_ifs with hwide
  · obtain ⟨c', hrun, hmxcsr, hrsp, hlane⟩ := run_clz16Wide host c
    exact ⟨c', hrun, hmxcsr, hrsp, fun k hk => hlane k (by omega)⟩
  · obtain ⟨c', hrun, hmxcsr, hrsp, h0⟩ := run_clzLanes c fun c₀ hzero => by
      obtain ⟨c', hrun, hmxcsr, hrsp, -, h1⟩ := @run_clz16Lanes host features count c₀ hzero
      exact ⟨c', hrun, hmxcsr, hrsp, h1⟩
    exact ⟨c', hrun, hmxcsr, hrsp, fun k hk => by rw [h0, lane_countRow _ hk (by omega)]⟩

theorem run_clz32Code (hhost : host.Converts) :
    ∃ c', run host (clz32Code features q) c = some c' ∧ c'.mxcsr = c.mxcsr ∧ c'.rsp = c.rsp ∧
      ∀ k < activeLanes 32 q false, lane 32 (c'.xmm 0) k = (lane 32 (c.xmm 0) k).clz := by
  have hactive : activeLanes 32 q false = if q then 4 else 2 := by cases q <;> rfl
  have hle : (if q then 4 else 2) ≤ 4 := by cases q <;> decide
  rw [clz32Code, hactive]
  generalize (if q then 4 else 2) = count at *
  split_ifs with hwide hfloat
  · exact ⟨c.setXmm 0 (Packed.mapLanes 32 BitVec.clz (c.xmm 0)), rfl, rfl, rfl, fun k hk => by
      rw [Cpu.xmm_setXmm_self, Packed.lane_mapLanes _ (by omega)]⟩
  · obtain ⟨c', hrun, hmxcsr, hrsp, h0⟩ := @run_clz32Float host c
    exact ⟨c', hrun, hmxcsr, hrsp, fun k hk => by rw [h0, floatCount_eq hhost _ _ (by omega)]⟩
  · obtain ⟨c', hrun, hmxcsr, hrsp, h0⟩ := run_clzLanes c fun c₀ hzero => by
      obtain ⟨c', hrun, hmxcsr, hrsp, -, h1⟩ := @run_clz32Lanes host features count c₀ hzero
      exact ⟨c', hrun, hmxcsr, hrsp, h1⟩
    exact ⟨c', hrun, hmxcsr, hrsp, fun k hk => by rw [h0, lane_countRow _ hk (by omega)]⟩

/-- The operand, the counts and the result in a block. -/
theorem exists_emitWith {host : Host} {w : Nat} {code : List Instr} {locs : Nat → Loc} {a : Armlet}
    {d : Nat} {pa pd : Place} (hpos : 0 < w) (hdvd : w ∣ 64)
    (hcode : ∀ c : Cpu, ∃ c', run host code c = some c' ∧ c'.mxcsr = c.mxcsr ∧ c'.rsp = c.rsp ∧
      ∀ k < activeLanes w (qForm a) false, lane w (c'.xmm 0) k = (lane w (c.xmm 0) k).clz)
    (ha : VectorAt (locs (a.args.get 0)) pa) (hd : VectorAt (locs d) pd) :
    ∃ emitted, emitWith code locs a d = some emitted ∧ ∀ c, ∃ c', run host emitted c = some c' ∧
      c'.mxcsr = c.mxcsr ∧ c'.rsp = c.rsp ∧ c'.vec pd =
        ofLanes 128 w (upTo (activeLanes w (qForm a) false) fun k => (lane w (c.vec pa) k).clz) := by
  obtain ⟨load, hload, hrun⟩ := exists_intoXmmQ ha.place 0
  obtain ⟨store, hstore, hfinish⟩ := exists_finish (a := a) hd 0
  refine ⟨load.map .vec ++ code ++ (narrowForm a 0 ++ store).map .vec, ?_, fun c => ?_⟩
  · rw [emitWith, hload, hstore]
    rfl
  · let c₀ : Cpu := { c with vec := VectorCode.run load c.vec }
    have h0 : c₀.xmm 0 = c.vec pa := (hrun c.vec _).trans (if_pos rfl)
    obtain ⟨c₁, hrun₁, hmxcsr, hrsp, hlane⟩ := hcode c₀
    refine ⟨{ c₁ with vec := VectorCode.run (narrowForm a 0 ++ store) c₁.vec }, ?_, hmxcsr, hrsp, ?_⟩
    · rw [run_append, run_append, run_vec, Option.bind_some, hrun₁, Option.bind_some, run_vec]
    · change VectorCode.run (narrowForm a 0 ++ store) c₁.vec pd = _
      rw [hfinish, ← h0]
      exact halfForm_row hpos hdvd hlane

end paths

/-- The width of the lanes. -/
def laneBits (op : Op) : Nat := if op = .vecClz16 then 16 else 32

/-- The code for the node `i` leaves the leading zeros of the active lanes of its operand in its
place, and MXCSR as it was. -/
def ClzExact (host : Host) (features : CpuFeatures) (locs : Nat → Loc) (b : Block) (i : Nat) : Prop :=
  let w := laneBits (b.get i).op
  ∃ code pa p, emitClz features locs (b.get i) i = some code ∧
    placeOf (locs ((b.get i).args.get 0)) = some pa ∧ placeOf (locs i) = some p ∧
    ∀ c, ∃ c', run host code c = some c' ∧ c'.mxcsr = c.mxcsr ∧ c'.rsp = c.rsp ∧
      c'.vec p = ofLanes 128 w (upTo (activeLanes w (qForm (b.get i)) false) fun k =>
        (lane w (c.vec pa) k).clz)

/-- **The counts of leading zeros are exact**, on every path, wherever linear scan puts operand and
result and whatever MXCSR is; the inactive upper half is zero and MXCSR is restored. -/
theorem vecClz_exact (host : Host) (hhost : host.Converts) (features : CpuFeatures)
    (hostFeatures : HostFeatures) {b : Block} {live : List ValueRef} (hwalk : b.Walk b.head live)
    (htail : b.tail = live.getLastD linkNone) (hssa : b.Ssa live) (hsize : b.code.size < Block.maxNodes)
    (terminalUses : List ValueRef) : ∀ i ∈ live, IsVector b i → VectorArgs b i [0] →
      ((b.get i).op = .vecClz16 ∨ (b.get i).op = .vecClz32) →
      ClzExact host features (locsOf hostFeatures b terminalUses) b i := by
  intro i hi hv hargs hop
  obtain ⟨p, hp⟩ := @vectorAt_linearScan hostFeatures b live terminalUses hwalk htail hsize i hi hv
  obtain ⟨pa, ha, -⟩ := @exists_operand hostFeatures b live terminalUses i hwalk htail hssa hsize hi hv _
    hargs 0 (by decide)
  rcases hop with hop | hop
  · obtain ⟨code, hcode, hrun⟩ := exists_emitWith (by decide) (by decide)
      (run_clz16Code features (qForm (b.get i))) ha hp
    refine ⟨code, pa, p, ?_, ha.place, hp.place, ?_⟩
    · rw [emitClz, hop]
      exact hcode
    · rw [laneBits, if_pos hop]
      exact hrun
  · obtain ⟨code, hcode, hrun⟩ := exists_emitWith (by decide) (by decide)
      (fun c => run_clz32Code features (qForm (b.get i)) c hhost) ha hp
    refine ⟨code, pa, p, ?_, ha.place, hp.place, ?_⟩
    · rw [emitClz, hop]
      exact hcode
    · rw [laneBits, hop, if_neg (by decide)]
      exact hrun

/-- A processor that rounds to nearest and collects no status. -/
noncomputable def nearestHost : Host where
  bsrZero old := old
  cvtdq2ps _ x := (nearest .s x.msb x.toInt).setWidth 32
  collect mxcsr _ := mxcsr

theorem nearestHost_converts : nearestHost.Converts := fun _ x => by
  have h := rounded_nearest .s x.msb x.toInt
  refine ⟨.tieEven, ?_⟩
  change Fmt.s.Rounded _ _ _ (((nearest .s x.msb x.toInt).setWidth 32).setWidth 64)
  rwa [setWidth_single h.encodes]

/-- `V2` takes the counts of `V0`, in lanes of 32 bits. -/
def clzOnly : Block := (Block.new 0x1000).pushAll
  [(Armlet.new .getV .u128).withImm 0, ((Armlet.new .vecClz32 .u128).withArgs [1]).withImm 1,
    ((Armlet.new .setV .void).withArgs [2]).withImm 2]

theorem vecClz_exact_only :
    ClzExact nearestHost ⟨true, false, false, true, false⟩ (locsOf ⟨true, true⟩ clzOnly []) clzOnly 2 := by
  have hlinked : clzOnly.Linked [1, 2, 3] := (Block.Linked.new 0x1000).pushAll (by decide) _
  exact vecClz_exact nearestHost nearestHost_converts _ ⟨true, true⟩ hlinked.walk (by decide) (by decide)
    (by decide) [] 2 (by decide) (by decide) (by decide) (by decide)

end LeadingZeros

end Rustarmic
