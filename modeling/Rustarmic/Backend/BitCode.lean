import Rustarmic.Backend.LeadingZeros
import Rustarmic.Frontend.IntegerEmitter

/-!
# Counting and reversing the bits of registers

The code for CLZ, CLS, RBIT and the reversals of bytes.  Without LZCNT the leading zeros are counted
from `bsr`, which says nothing for zero.  Bits are reversed in every byte, with the matrix of GFNI
or by looking up both halves of the byte, and `bswap` does the rest.

* `Instr.exec`, `run` — the instructions.
* `emitOneSource` — the code of a node.
* `oneSourceSize` — which nodes there are, each with its width; `oneSource` is what they are for.
* `run_emitOneSource` — the code computes what the node is for, with and without the extensions.
* `emitOneSource_agrees` — these nodes, and no others, have code on every processor.
-/

set_option autoImplicit false

namespace Rustarmic

namespace BitCode

open Lanes IrEmitter

/-! ## The machine -/

inductive Reg where
  | rax | rcx | rdx
  deriving DecidableEq, Repr

/-- What the code asks of the processor, and what is left open: where the constants are, and what
`bsr` leaves for zero. -/
structure Host where
  hasLzcnt : Bool
  hasGfni : Bool
  consts : U64
  bsrZero : U64

/-- The registers, and the zero flag. -/
structure Cpu where
  reg : Reg → U64
  zero : Bool
  xmm : Nat → U128

namespace Cpu

variable (c : Cpu) (size : RegSize)

def get (r : Reg) : BitVec size.bits := (c.reg r).setWidth size.bits

/-- A register of 32 bits is written zero-extended. -/
def set (r : Reg) (x : BitVec size.bits) : Cpu :=
  { c with reg := Function.update c.reg r (x.setWidth 64) }

def setImm (r : Reg) (imm : U64) : Cpu := { c with reg := Function.update c.reg r imm }

/-- The flag after a result. -/
def test (x : BitVec size.bits) : Cpu := { c with zero := x == 0#(size.bits) }

def result (r : Reg) (x : BitVec size.bits) : Cpu := (c.set size r x).test size x

def setXmm (r : Nat) (x : U128) : Cpu := { c with xmm := Function.update c.xmm r x }

end Cpu

inductive Alu where
  | and | or | xor
  deriving DecidableEq, Repr

inductive ShiftKind where
  | shl | shr | sar | rol
  deriving DecidableEq, Repr

inductive VecOp where
  | pand | pxor | por | pshufb
  deriving DecidableEq, Repr

def Alu.apply {w : Nat} : Alu → BitVec w → BitVec w → BitVec w
  | and, x, y => x &&& y
  | or, x, y => x ||| y
  | xor, x, y => x ^^^ y

def ShiftKind.apply {w : Nat} : ShiftKind → BitVec w → Nat → BitVec w
  | shl, x, k => x <<< k
  | shr, x, k => x >>> k
  | sar, x, k => x.sshiftRight k
  | rol, x, k => x.rotateLeft k

def VecOp.apply : VecOp → U128 → U128 → U128
  | pand, x, y => x &&& y
  | pxor, x, y => x ^^^ y
  | por, x, y => x ||| y
  | pshufb, x, y => Packed.pshufb x y

/-- `bswap`. -/
def reverseBytes {w : Nat} (x : BitVec w) : BitVec w := ofLanes w 8 fun k => lane 8 x (w / 8 - 1 - k)

/-- The three constants of `RbitConsts`: a mask, and the reversals of a low and of a high half. -/
def rbitConsts (offset : Nat) : U128 :=
  match offset with
  | 0 => 0xF0F0F0F0F0F0F0F0F0F0F0F0F0F0F0F0#128
  | 16 => 0xF070B030D0509010E060A020C0408000#128
  | _ => 0x0F070B030D0509010E060A020C040800#128

/-- The operations on `rax`, `bsr` and `cmovnz` with `rcx`; the others name their registers. -/
inductive Instr where
  | lzcnt (size : RegSize)
  | bsr (size : RegSize)
  | cmovnz (size : RegSize)
  | dec (size : RegSize)
  | bswap (size : RegSize)
  | mov (size : RegSize) (dst src : Reg)
  | movImm (dst : Reg) (imm : U64)
  | alu (op : Alu) (size : RegSize) (dst src : Reg)
  | aluImm (op : Alu) (size : RegSize) (dst : Reg) (imm : U64)
  | shift (kind : ShiftKind) (size : RegSize) (dst : Reg) (count : Nat)
  | toXmm (size : RegSize) (dst : Nat) (src : Reg)
  | fromXmm (size : RegSize) (src : Nat)
  | movdqa (dst offset : Nat)
  | vec (op : VecOp) (dst src : Nat)
  | psrld (dst count : Nat)
  | gf2p8affineqb (dst matrix : Nat) (addend : U8)
  deriving DecidableEq, Repr

def Instr.exec (host : Host) (c : Cpu) : Instr → Cpu
  | lzcnt size => c.result size .rax (c.get size .rax).clz
  | bsr size =>
    let x := c.get size .rax
    (c.set size .rcx (if x = 0#(size.bits) then host.bsrZero.setWidth size.bits
      else BitVec.ofNat size.bits x.toNat.log2)).test size x
  | cmovnz size => c.set size .rax (if c.zero then c.get size .rax else c.get size .rcx)
  | dec size => c.result size .rax (c.get size .rax - 1)
  | bswap size => c.set size .rax (reverseBytes (c.get size .rax))
  | mov size dst src => c.set size dst (c.get size src)
  | movImm dst imm => c.setImm dst imm
  | alu op size dst src => c.result size dst (op.apply (c.get size dst) (c.get size src))
  | aluImm op size dst imm => c.result size dst (op.apply (c.get size dst) (imm.setWidth size.bits))
  | shift kind size dst count => c.result size dst (kind.apply (c.get size dst) count)
  | toXmm size dst src => c.setXmm dst ((c.get size src).setWidth 128)
  | fromXmm size src => c.set size .rax ((c.xmm src).setWidth size.bits)
  | movdqa dst offset => c.setXmm dst (rbitConsts offset)
  | vec op dst src => c.setXmm dst (op.apply (c.xmm dst) (c.xmm src))
  | psrld dst count => c.setXmm dst (Packed.psrl 32 (c.xmm dst) count)
  | gf2p8affineqb dst matrix addend => c.setXmm dst (ofLanes 128 8 fun k =>
      Optimizer.gf2p8affineqb (lane 64 (c.xmm matrix) (k / 8)) addend (lane 8 (c.xmm dst) k))

def run (host : Host) (code : List Instr) (c : Cpu) : Cpu := code.foldl (Instr.exec host) c

/-! ## The code -/

/-- `clz64_bsr` and `clz32_bsr`. -/
def clzBsr (size : RegSize) : List Instr :=
  [.bsr size, .movImm .rax (BitVec.ofNat 64 (2 * size.bits - 1)), .cmovnz size,
    .aluImm .xor size .rax (BitVec.ofNat 64 (size.bits - 1))]

def countZeros (host : Host) (size : RegSize) : List Instr :=
  if host.hasLzcnt then [.lzcnt size] else clzBsr size

def emitCls (host : Host) (size : RegSize) : List Instr :=
  [.mov size .rcx .rax, .shift .sar size .rcx 1, .alu .xor size .rax .rcx] ++ countZeros host size
    ++ [.dec size]

def rbitGfni (size : RegSize) : List Instr :=
  [.toXmm size 0 .rax, .movImm .rcx 0x8040201008040201, .toXmm .x 1 .rcx, .gf2p8affineqb 0 1 0,
    .fromXmm size 0, .bswap size]

/-- The address of the constants is in `rcx`. -/
def rbitPshufb (host : Host) (size : RegSize) : List Instr :=
  [.toXmm size 0 .rax, .movImm .rcx host.consts, .movdqa 1 0, .movdqa 2 16, .movdqa 3 32, .vec .pand 1 0,
    .vec .pxor 0 1, .psrld 1 4, .vec .pshufb 2 0, .vec .pshufb 3 1, .vec .por 3 2, .fromXmm size 3, .bswap size]

def emitRbit (host : Host) (size : RegSize) : List Instr :=
  if host.hasGfni then rbitGfni size else rbitPshufb host size

/-- The mask of the low bytes of halfwords is an immediate, or in a register. -/
def emitRev16 : RegSize → List Instr
  | .x => [.mov .x .rcx .rax, .shift .shr .x .rcx 8, .movImm .rdx 0x00FF00FF00FF00FF, .alu .and .x .rcx .rdx,
      .alu .and .x .rax .rdx, .shift .shl .x .rax 8, .alu .or .x .rax .rcx]
  | .w => [.mov .w .rcx .rax, .shift .shr .w .rcx 8, .aluImm .and .w .rcx 0x00FF00FF,
      .aluImm .and .w .rax 0x00FF00FF, .shift .shl .w .rax 8, .alu .or .w .rax .rcx]

def sizeOfTy (ty : Ty) : RegSize := if ty = .u64 then .x else .w

/-- The code of a node, with the operand in `rax`, and how much of `rax` it reads and stores. -/
def emitOneSource (host : Host) (op : Op) (ty : Ty) : Option (RegSize × List Instr) :=
  match op with
  | .clz32 => some (.w, countZeros host .w)
  | .clz64 => some (.x, countZeros host .x)
  | .cls32 => some (.w, emitCls host .w)
  | .cls64 => some (.x, emitCls host .x)
  | .rbit32 => some (.w, emitRbit host .w)
  | .rbit64 => some (.x, emitRbit host .x)
  | .rev16 => some (sizeOfTy ty, emitRev16 (sizeOfTy ty))
  | .rev32 => some (.x, [.bswap .x, .shift .rol .x .rax 32])
  | .rev64 => some (sizeOfTy ty, [.bswap (sizeOfTy ty)])
  | _ => none

/-! ## What a node is for -/

/-- The nodes with one source, and how wide each is.  CLZ, CLS and RBIT have an operation for each
width, the others have one and go by the type of the node; bytes within 32 bits are reversed in
64-bit registers only, since in a 32-bit register that is `rev64` at the type of 32 bits. -/
def oneSourceSize (op : Op) (ty : Ty) : Option RegSize :=
  match op with
  | .clz32 | .cls32 | .rbit32 => some .w
  | .clz64 | .cls64 | .rbit64 | .rev32 => some .x
  | .rev16 | .rev64 => some (if ty = .u64 then .x else .w)
  | _ => none

/-- The bytes of every group of `k` in the other order. -/
def reverseIn {w : Nat} (k : Nat) (x : BitVec w) : BitVec w :=
  ofLanes w 8 fun i => lane 8 x (k * (i / k) + (k - 1 - i % k))

/-- The leading bits that are equal to the one above them. -/
def leadingSigns {w : Nat} (x : BitVec w) : BitVec w :=
  ((x.extractLsb' 1 (w - 1) ^^^ x.setWidth (w - 1)).clz).setWidth w

def oneSource (op : Op) (size : RegSize) (x : BitVec size.bits) : BitVec size.bits :=
  match op with
  | .clz32 | .clz64 => x.clz
  | .cls32 | .cls64 => leadingSigns x
  | .rbit32 | .rbit64 => x.reverse
  | .rev16 => reverseIn 2 x
  | .rev32 => reverseIn 4 x
  | _ => reverseIn (size.bits / 8) x

/-! ## Registers -/

theorem bits_le (size : RegSize) : size.bits ≤ 64 := by cases size <;> decide

section registers

variable (c : Cpu) {size : RegSize} (x : BitVec size.bits) (r r' : Reg)

@[simp] theorem setWidth_back : (x.setWidth 64).setWidth size.bits = x := by
  rw [BitVec.setWidth_setWidth_of_le x (bits_le size), BitVec.setWidth_eq]

@[simp] theorem get_set (s : RegSize) : (c.set size r' x).get s r =
    if r = r' then (x.setWidth 64).setWidth s.bits else c.get s r := by
  have hreg : (c.set size r' x).reg r = if r = r' then x.setWidth 64 else c.reg r := Function.update_apply ..
  rw [Cpu.get, hreg]
  split <;> rfl

@[simp] theorem get_setImm (s : RegSize) (imm : U64) : (c.setImm r' imm).get s r =
    if r = r' then imm.setWidth s.bits else c.get s r := by
  have hreg : (c.setImm r' imm).reg r = if r = r' then imm else c.reg r := Function.update_apply ..
  rw [Cpu.get, hreg]
  split <;> rfl

@[simp] theorem get_test (s : RegSize) : (c.test size x).get s r = c.get s r := rfl

@[simp] theorem get_setXmm (s : RegSize) (k : Nat) (v : U128) : (c.setXmm k v).get s r = c.get s r := rfl

@[simp] theorem zero_test : (c.test size x).zero = (x == 0#(size.bits)) := rfl

@[simp] theorem zero_set : (c.set size r x).zero = c.zero := rfl

@[simp] theorem zero_setImm (imm : U64) : (c.setImm r imm).zero = c.zero := rfl

@[simp] theorem xmm_setXmm (k j : Nat) (v : U128) : (c.setXmm k v).xmm j = if j = k then v else c.xmm j :=
  Function.update_apply ..

@[simp] theorem xmm_set (j : Nat) : (c.set size r x).xmm j = c.xmm j := rfl

@[simp] theorem xmm_setImm (j : Nat) (imm : U64) : (c.setImm r imm).xmm j = c.xmm j := rfl

@[simp] theorem xmm_test (j : Nat) : (c.test size x).xmm j = c.xmm j := rfl

end registers

section run

variable {host : Host} (i : Instr) (code code' : List Instr) (c : Cpu)

@[simp] theorem run_nil : run host [] c = c := rfl

@[simp] theorem run_cons : run host (i :: code) c = run host code (i.exec host c) := rfl

theorem run_append : run host (code ++ code') c = run host code' (run host code c) := List.foldl_append

end run

/-! ## Counts -/

/-- The distance of a bit from the top, by an exclusive or. -/
theorem toNat_xor_top (size : RegSize) {k : Nat} (hk : k < size.bits) :
    (BitVec.ofNat size.bits k ^^^ (BitVec.ofNat 64 (size.bits - 1)).setWidth size.bits).toNat =
      size.bits - 1 - k := by
  have hw : ∀ i < 32, (BitVec.ofNat 32 i ^^^ (BitVec.ofNat 64 31).setWidth 32).toNat = 31 - i := by decide
  have hx : ∀ i < 64, (BitVec.ofNat 64 i ^^^ (BitVec.ofNat 64 63).setWidth 64).toNat = 63 - i := by decide
  cases size
  · exact hw k hk
  · exact hx k hk

/-- What `clzBsr` leaves. -/
theorem get_clzBsr (host : Host) (size : RegSize) (c : Cpu) : (run host (clzBsr size) c).get size .rax =
    (if c.get size .rax = 0#(size.bits) then (BitVec.ofNat 64 (2 * size.bits - 1)).setWidth size.bits
      else BitVec.ofNat size.bits (c.get size .rax).toNat.log2) ^^^
        (BitVec.ofNat 64 (size.bits - 1)).setWidth size.bits := by
  simp only [clzBsr, run_cons, run_nil, Instr.exec, Cpu.result, get_test, get_set, get_setImm,
    zero_test, zero_setImm, if_true, setWidth_back, Alu.apply, reduceCtorEq, if_false, beq_iff_eq]
  split_ifs
  · rfl
  · rfl

/-- Both ways to count, whatever `bsr` leaves for zero. -/
theorem get_countZeros (host : Host) (size : RegSize) (c : Cpu) :
    (run host (countZeros host size) c).get size .rax = (c.get size .rax).clz := by
  cases h : host.hasLzcnt with
  | true =>
    rw [countZeros, if_pos h, run_cons, run_nil, Instr.exec, Cpu.result, get_test, get_set,
      if_pos rfl, setWidth_back]
  | false =>
    rw [countZeros, h, if_neg Bool.false_ne_true, get_clzBsr]
    refine BitVec.eq_of_toNat_eq ?_
    rw [LeadingZeros.toNat_clz]
    split_ifs with hx
    · cases size <;> rfl
    · refine toNat_xor_top size ((Nat.log2_lt fun h => hx (BitVec.eq_of_toNat_eq h)).mpr ?_)
      exact (c.get size .rax).isLt

/-- A zero on top is one more. -/
theorem toNat_clz_succ {n : Nat} {y : BitVec (n + 1)} (h : y.msb = false) :
    y.clz.toNat = (y.setWidth n).clz.toNat + 1 := by
  have hlt : y.toNat < 2 ^ n := by
    rw [BitVec.msb_eq_false_iff_two_mul_lt, Nat.pow_succ] at h
    omega
  have hnat : (y.setWidth n).toNat = y.toNat := by rw [BitVec.toNat_setWidth, Nat.mod_eq_of_lt hlt]
  have hzero : y.setWidth n = 0#n ↔ y = 0#(n + 1) := by
    rw [← BitVec.toNat_inj, ← BitVec.toNat_inj, hnat, BitVec.toNat_ofNat, BitVec.toNat_ofNat,
      Nat.zero_mod, Nat.zero_mod]
  rw [LeadingZeros.toNat_clz, LeadingZeros.toNat_clz, hnat]
  simp only [hzero]
  split_ifs with hy
  · rfl
  · have hlog := (Nat.log2_lt fun h0 => hy (BitVec.eq_of_toNat_eq h0)).mpr hlt
    omega

/-- The bits that differ from their neighbours, with a zero on top. -/
theorem leadingSigns_eq {n : Nat} (x : BitVec (n + 1)) :
    leadingSigns x = (x ^^^ x.sshiftRight 1).clz - 1 := by
  have hmsb : (x ^^^ x.sshiftRight 1).msb = false := by
    rw [BitVec.msb_xor, BitVec.msb_sshiftRight, Bool.xor_self]
  have hlow : (x ^^^ x.sshiftRight 1).setWidth n = x.extractLsb' 1 n ^^^ x.setWidth n := by
    refine BitVec.eq_of_getLsbD_eq fun i hi => ?_
    simp only [BitVec.getLsbD_setWidth, BitVec.getLsbD_xor, BitVec.getLsbD_sshiftRight,
      BitVec.getLsbD_extractLsb', decide_eq_true hi, Bool.true_and,
      decide_eq_false (by omega : ¬ n + 1 ≤ i), Bool.not_false, if_pos (by omega : 1 + i < n + 1)]
    exact Bool.xor_comm _ _
  have hsucc := toNat_clz_succ hmsb
  rw [hlow] at hsucc
  refine BitVec.eq_of_toNat_eq ?_
  have hlt := (x.extractLsb' 1 n ^^^ x.setWidth n).clz.isLt
  have hone : 1 < 2 ^ (n + 1) := Nat.one_lt_two_pow (Nat.succ_ne_zero n)
  have hpow : 2 ^ (n + 1) = 2 * 2 ^ n := by rw [Nat.pow_succ, Nat.mul_comm]
  change ((x.extractLsb' 1 n ^^^ x.setWidth n).clz.setWidth (n + 1)).toNat = _
  have hsum : 2 ^ (n + 1) - 1 + ((x.extractLsb' 1 n ^^^ x.setWidth n).clz.toNat + 1) =
      2 ^ (n + 1) + (x.extractLsb' 1 n ^^^ x.setWidth n).clz.toNat := by omega
  rw [BitVec.toNat_setWidth, BitVec.toNat_sub, hsucc, BitVec.ofNat_eq_ofNat, BitVec.toNat_ofNat,
    Nat.mod_eq_of_lt hone, hsum, Nat.add_mod_left]

theorem get_emitCls (host : Host) (size : RegSize) (c : Cpu) :
    (run host (emitCls host size) c).get size .rax = leadingSigns (c.get size .rax) := by
  have heq (x : BitVec size.bits) : leadingSigns x = (x ^^^ x.sshiftRight 1).clz - 1 := by
    cases size <;> exact leadingSigns_eq x
  rw [emitCls, run_append, run_append, run_cons, run_nil, Instr.exec, Cpu.result, get_test, get_set, if_pos rfl,
    setWidth_back, get_countZeros, heq]
  simp only [run_cons, run_nil, Instr.exec, Cpu.result, get_test, get_set, if_true, setWidth_back, Alu.apply,
    ShiftKind.apply, reduceCtorEq, if_false]

/-! ## Reversals -/

theorem getLsbD_reverseIn {w k : Nat} (x : BitVec w) (i : Nat) : (reverseIn k x).getLsbD i =
    (decide (i < w) && x.getLsbD (8 * (k * (i / 8 / k) + (k - 1 - i / 8 % k)) + i % 8)) := by
  rw [reverseIn, getLsbD_ofLanes, getLsbD_lane, decide_eq_true (Nat.mod_lt i (by decide)), Bool.true_and]

theorem reverseBytes_eq {w : Nat} (hw : 8 ∣ w) (x : BitVec w) : reverseBytes x = reverseIn (w / 8) x := by
  refine BitVec.eq_of_getLsbD_eq fun i hi => ?_
  have hlt : i / 8 < w / 8 := by omega
  rw [reverseBytes, getLsbD_reverseIn, getLsbD_ofLanes, getLsbD_lane, decide_eq_true (Nat.mod_lt i (by decide)),
    Bool.true_and, Nat.div_eq_of_lt hlt, Nat.mod_eq_of_lt hlt, Nat.mul_zero, Nat.zero_add]

/-- The reverse of a register, byte by byte. -/
theorem reverse_eq (size : RegSize) (x : BitVec size.bits) :
    reverseBytes (Packed.mapLanes 8 BitVec.reverse x) = x.reverse := by
  have hdvd : 8 ∣ size.bits := by cases size <;> decide
  refine BitVec.eq_of_getLsbD_eq fun i hi => ?_
  have hmod : i % 8 < 8 := Nat.mod_lt i (by decide)
  have hbyte : 8 * (size.bits / 8 - 1 - i / 8) + 8 ≤ size.bits := by omega
  rw [reverseBytes, getLsbD_ofLanes, decide_eq_true hi, Bool.true_and, Packed.mapLanes,
    lane_ofLanes _ hbyte, BitVec.getLsbD_reverse, BitVec.getMsbD_eq_getLsbD, decide_eq_true hmod,
    Bool.true_and, getLsbD_lane, decide_eq_true (by omega : 8 - 1 - i % 8 < 8), Bool.true_and,
    BitVec.getLsbD_reverse, BitVec.getMsbD_eq_getLsbD, decide_eq_true hi, Bool.true_and]
  congr 1
  omega

/-! ## Bits in a byte -/

theorem gf2p8affineqb_reverse (x : U8) : Optimizer.gf2p8affineqb Optimizer.reverseMatrix 0 x = x.reverse := by
  have hrow : ∀ i < 8, Optimizer.rowOf Optimizer.reverseMatrix i = 1#8 <<< (7 - i) := by decide
  refine BitVec.eq_of_getLsbD_eq fun i hi => ?_
  rw [Optimizer.gf2p8affineqb_eq, show (0 : U8) = 0#8 from rfl, BitVec.xor_zero,
    Optimizer.getLsbD_linear _ _ hi, hrow i hi, Optimizer.parity_bit _ (by omega),
    BitVec.getLsbD_reverse, BitVec.getMsbD_eq_getLsbD, decide_eq_true hi, Bool.true_and]

/-- Both halves of a byte looked up. -/
def lookedUp (x : U8) : U8 :=
  let high := x &&& 0xF0#8
  lane 8 (rbitConsts 32) ((high >>> 4).toNat % 16) ||| lane 8 (rbitConsts 16) ((x ^^^ high).toNat % 16)

theorem lookedUp_eq (x : U8) : lookedUp x = x.reverse := by
  have hall : ∀ k < 256, lookedUp (BitVec.ofNat 8 k) = (BitVec.ofNat 8 k).reverse := by decide +kernel
  have h := hall x.toNat x.isLt
  rwa [BitVec.ofNat_toNat, BitVec.setWidth_eq] at h

theorem rbitConsts_mask : rbitConsts 0 = ofLanes 128 8 fun _ => 0xF0#8 := by decide +kernel

/-- The bits a shift takes from the next byte are masked away. -/
theorem lane_psrl_masked (x : U128) {k : Nat} (hk : k < 16) :
    lane 8 (Packed.psrl 32 (rbitConsts 0 &&& x) 4) k = (lane 8 x k &&& 0xF0#8) >>> 4 := by
  refine BitVec.eq_of_getLsbD_eq fun i hi => ?_
  have hdiv : (8 * k + i) / 32 = k / 4 := by omega
  have hmod : (8 * k + i) % 32 = 8 * (k % 4) + i := by omega
  rw [getLsbD_lane, decide_eq_true hi, Bool.true_and, Packed.psrl, Packed.mapLanes, getLsbD_ofLanes,
    decide_eq_true (by omega : 8 * k + i < 128), Bool.true_and, BitVec.getLsbD_ushiftRight,
    getLsbD_lane, hdiv, hmod, BitVec.getLsbD_ushiftRight, BitVec.getLsbD_and, BitVec.getLsbD_and,
    rbitConsts_mask, getLsbD_ofLanes, getLsbD_lane]
  have hbit : 32 * (k / 4) + (4 + (8 * (k % 4) + i)) = 8 * k + (4 + i) := by omega
  rw [hbit]
  by_cases hlow : i < 4
  · rw [decide_eq_true (by omega : 4 + (8 * (k % 4) + i) < 32),
      decide_eq_true (by omega : 8 * k + (4 + i) < 128), decide_eq_true (by omega : 4 + i < 8),
      (by omega : (8 * k + (4 + i)) % 8 = 4 + i), Bool.true_and, Bool.true_and, Bool.true_and,
      Bool.and_comm]
  · have hhigh : ∀ j < 4, (0xF0#8).getLsbD j = false := by decide
    rw [(by omega : (8 * k + (4 + i)) % 8 = i - 4), hhigh (i - 4) (by omega), Bool.and_false, Bool.false_and,
      Bool.and_false, decide_eq_false (by omega : ¬ 4 + i < 8), Bool.false_and, Bool.false_and]

theorem lane_low (x : U128) {k : Nat} (hk : k < 16) :
    lane 8 (x ^^^ rbitConsts 0 &&& x) k = lane 8 x k ^^^ (lane 8 x k &&& 0xF0#8) := by
  rw [lane_xor, lane_and, rbitConsts_mask, lane_ofLanes _ (by omega), BitVec.and_comm]

theorem msb_low (x : U8) : (x ^^^ (x &&& 0xF0#8)).msb = false := by
  rw [BitVec.msb_xor, BitVec.msb_and, show (0xF0#8).msb = true from rfl, Bool.and_true, Bool.xor_self]

/-- An index without its top bit is looked up. -/
theorem lane_pshufb_nibble (table order : U128) {k : Nat} (hk : k < 16) {i : U8} (hi : lane 8 order k = i)
    (hmsb : i.msb = false) : lane 8 (Packed.pshufb table order) k = lane 8 table (i.toNat % 16) := by
  rw [Packed.pshufb, lane_ofLanes _ (by omega), hi, hmsb, if_neg Bool.false_ne_true]

/-! ## The registers after the code -/

theorem lane_setWidth {n w v k : Nat} (x : BitVec n) (hw : w * k + w ≤ v) :
    lane w (x.setWidth v) k = lane w x k := by
  refine BitVec.eq_of_getLsbD_eq fun i hi => ?_
  rw [getLsbD_lane, getLsbD_lane, BitVec.getLsbD_setWidth,
    decide_eq_true (by omega : w * k + i < v), Bool.true_and]

section code

variable (host : Host) (size : RegSize) (c : Cpu)

/-- Bytes that were reversed in a vector register, put in order. -/
theorem reverse_of_lanes {x : BitVec size.bits} {y : U128}
    (h : ∀ k < 8, lane 8 y k = (lane 8 (x.setWidth 128) k).reverse) :
    reverseBytes (y.setWidth size.bits) = x.reverse := by
  have hle := bits_le size
  have hdvd : 8 ∣ size.bits := by cases size <;> decide
  have hmap : y.setWidth size.bits = Packed.mapLanes 8 BitVec.reverse x := by
    refine ext_lane (by decide : 0 < 8) fun k hk => ?_
    have hbyte : 8 * k + 8 ≤ size.bits := by omega
    rw [lane_setWidth y hbyte, h k (by omega), lane_setWidth x (by omega), Packed.mapLanes,
      lane_ofLanes _ hbyte]
  rw [hmap, reverse_eq]

theorem get_rbitGfni : (run host (rbitGfni size) c).get size .rax = (c.get size .rax).reverse := by
  simp only [rbitGfni, run_cons, run_nil, Instr.exec, get_set, if_true, setWidth_back, xmm_setXmm, xmm_setImm,
    get_setXmm, get_setImm, zero_ne_one, if_false]
  refine reverse_of_lanes size fun k hk => ?_
  rw [lane_ofLanes _ (by omega), Nat.div_eq_of_lt hk]
  exact gf2p8affineqb_reverse _

theorem get_rbitPshufb : (run host (rbitPshufb host size) c).get size .rax = (c.get size .rax).reverse := by
  simp -implicitDefEqProofs only [rbitPshufb, run_cons, run_nil, Instr.exec, get_set, if_true,
    setWidth_back, xmm_setXmm, xmm_setImm, get_setXmm, VecOp.apply, Nat.reduceEqDiff,
    OfNat.ofNat_ne_zero, OfNat.ofNat_ne_one, OfNat.zero_ne_ofNat, OfNat.one_ne_ofNat, zero_ne_one,
    one_ne_zero, if_false]
  refine reverse_of_lanes size fun k hk => ?_
  generalize (c.get size .rax).setWidth 128 = x
  rw [← lookedUp_eq, lane_or, lane_pshufb_nibble _ _ (by omega) (lane_psrl_masked x (by omega)) (by simp),
    lane_pshufb_nibble _ _ (by omega) (lane_low x (by omega)) (msb_low _)]
  rfl

theorem get_emitRbit : (run host (emitRbit host size) c).get size .rax = (c.get size .rax).reverse := by
  rw [emitRbit]
  split
  · exact get_rbitGfni host size c
  · exact get_rbitPshufb host size c

/-- Shifts that come together under a mask of the low bytes. -/
theorem shifts_eq_reverseIn (x : BitVec size.bits) {m : BitVec size.bits}
    (hm : ∀ i < size.bits, m.getLsbD i = decide (i % 16 < 8)) :
    ((x &&& m) <<< 8) ||| ((x >>> 8) &&& m) = reverseIn 2 x := by
  have hdvd : 16 ∣ size.bits := by cases size <;> decide
  refine BitVec.eq_of_getLsbD_eq fun i hi => ?_
  rw [getLsbD_reverseIn, decide_eq_true hi, Bool.true_and, BitVec.getLsbD_or,
    BitVec.getLsbD_shiftLeft, decide_eq_true hi, Bool.true_and, BitVec.getLsbD_and,
    BitVec.getLsbD_and, BitVec.getLsbD_ushiftRight, hm i hi, hm (i - 8) (by omega)]
  by_cases hlow : i % 16 < 8
  · have hback : i < 8 ∨ ¬ (i - 8) % 16 < 8 := by omega
    have hbit : 8 * (2 * (i / 8 / 2) + (2 - 1 - i / 8 % 2)) + i % 8 = 8 + i := by omega
    rw [hbit, decide_eq_true hlow, Bool.and_true]
    rcases hback with h | h
    · rw [decide_eq_true h, Bool.not_true, Bool.false_and, Bool.false_or]
    · rw [decide_eq_false h, Bool.and_false, Bool.and_false, Bool.false_or]
  · have hbit : 8 * (2 * (i / 8 / 2) + (2 - 1 - i / 8 % 2)) + i % 8 = i - 8 := by omega
    rw [hbit, decide_eq_false hlow, Bool.and_false, Bool.or_false, decide_eq_false (by omega : ¬ i < 8),
      decide_eq_true (by omega : (i - 8) % 16 < 8), Bool.and_true, Bool.not_false, Bool.true_and]

theorem get_emitRev16 : (run host (emitRev16 size) c).get size .rax = reverseIn 2 (c.get size .rax) := by
  cases size with
  | w =>
    have hm : ∀ i < 32, ((0x00FF00FF : U64).setWidth 32).getLsbD i = decide (i % 16 < 8) := by decide
    refine Eq.trans ?_ (shifts_eq_reverseIn .w _ hm)
    simp -implicitDefEqProofs only [emitRev16, run_cons, run_nil, Instr.exec, Cpu.result, get_test, get_set,
      if_true, setWidth_back, Alu.apply, ShiftKind.apply, reduceCtorEq, if_false]
    rfl
  | x =>
    have hm : ∀ i < 64, ((0x00FF00FF00FF00FF : U64).setWidth 64).getLsbD i = decide (i % 16 < 8) := by decide
    refine Eq.trans ?_ (shifts_eq_reverseIn .x _ hm)
    simp -implicitDefEqProofs only [emitRev16, run_cons, run_nil, Instr.exec, Cpu.result, get_test, get_set,
      get_setImm, if_true, setWidth_back, Alu.apply, ShiftKind.apply, reduceCtorEq, if_false]
    rfl

/-- The halves of the reversed bytes, exchanged. -/
theorem rotateLeft_reverseBytes (x : U64) : (reverseBytes x).rotateLeft 32 = reverseIn 4 x := by
  refine BitVec.eq_of_getLsbD_eq fun i hi => ?_
  rw [reverseBytes_eq (by decide), BitVec.getLsbD_rotateLeft, getLsbD_reverseIn, getLsbD_reverseIn,
    getLsbD_reverseIn, decide_eq_true hi, Bool.true_and, Bool.true_and]
  by_cases hlow : i < 32
  · rw [decide_eq_true (by omega : i < 32 % 64), cond_true, decide_eq_true (by omega : 64 - 32 % 64 + i < 64),
      Bool.true_and]
    congr 1
    omega
  · rw [decide_eq_false (by omega : ¬ i < 32 % 64), cond_false, decide_eq_true (by omega : i - 32 % 64 < 64),
      Bool.true_and]
    congr 1
    omega

theorem get_rev32 :
    (run host [.bswap .x, .shift .rol .x .rax 32] c).get .x .rax = reverseIn 4 (c.get .x .rax) := by
  simp -implicitDefEqProofs only [run_cons, run_nil, Instr.exec, Cpu.result, get_test, get_set, if_true,
    setWidth_back, ShiftKind.apply]
  exact rotateLeft_reverseBytes _

theorem get_bswap : (run host [.bswap size] c).get size .rax = reverseIn (size.bits / 8) (c.get size .rax) := by
  have hdvd : 8 ∣ size.bits := by cases size <;> decide
  rw [run_cons, run_nil, Instr.exec, get_set, if_pos rfl, setWidth_back, reverseBytes_eq hdvd]

end code

/-- **The code of a node is what the node is for**, with and without the extensions of the
processor. -/
theorem run_emitOneSource (host : Host) {op : Op} {ty : Ty} {size : RegSize} {code : List Instr}
    (h : emitOneSource host op ty = some (size, code)) (c : Cpu) :
    (run host code c).get size .rax = oneSource op size (c.get size .rax) := by
  unfold emitOneSource at h
  split at h
  · cases h
    exact get_countZeros host .w c
  · cases h
    exact get_countZeros host .x c
  · cases h
    exact get_emitCls host .w c
  · cases h
    exact get_emitCls host .x c
  · cases h
    exact get_emitRbit host .w c
  · cases h
    exact get_emitRbit host .x c
  · cases h
    exact get_emitRev16 host _ c
  · cases h
    exact get_rev32 host c
  · cases h
    exact get_bswap host _ c
  · cases h

/-- The nodes with one source are the nodes that have code here, whatever the processor offers. -/
theorem emitOneSource_size (host : Host) (op : Op) (ty : Ty) :
    (emitOneSource host op ty).map Prod.fst = oneSourceSize op ty := by
  cases op <;> rfl

/-- **Whatever the host offers, exactly the nodes with one source have code, as wide as they are,
and the code computes what they are for.** -/
theorem emitOneSource_agrees (op : Op) (ty : Ty) :
    (oneSourceSize op ty = none → ∀ host, emitOneSource host op ty = none) ∧
      ∀ size, oneSourceSize op ty = some size → ∀ host, ∃ code,
        emitOneSource host op ty = some (size, code) ∧
          ∀ c, (run host code c).get size .rax = oneSource op size (c.get size .rax) := by
  refine ⟨fun hnone host => ?_, fun size hsize host => ?_⟩
  · rw [← emitOneSource_size host] at hnone
    exact Option.map_eq_none_iff.mp hnone
  · rw [← emitOneSource_size host, Option.map_eq_some_iff] at hsize
    obtain ⟨⟨_, code⟩, hcode, rfl⟩ := hsize
    exact ⟨code, hcode, run_emitOneSource host hcode⟩

end BitCode

end Rustarmic
