import Rustarmic.Guest.AddSub
import Rustarmic.Guest.Bitfield
import Rustarmic.Ir.EvalInteger

/-!
# Data processing as the architecture defines it

The functions the manual describes the instructions on registers with: shifted operands, the masks
of logical immediates, conditions, products and quotients, and checksums; and what the host computes
for them.

* `addWithCarry_eq_adc`, `addWithCarry_eq_sbb` — additions with a carry.
* `condHolds_eq` — conditions.
* `multiplyHigh_eq`, `divide_eq`, `divide_signed_eq` — products and quotients.
* `crc32_eq` — checksums.

The definitions follow the manual's pseudocode, which computes with integers of any size and takes
bits at the end: products are products of integers, quotients are rounded towards zero, and flags
come from comparing the result as a number with what was meant.  The lemmas are about the host's
operations, which work on words.  With both in one place a translator is compared with its
instruction in two steps, what the nodes compute and what that is in the manual's terms, and the
second step is the same for all instructions that share an operation.

Checksums are the widest gap.  The manual reverses operand and accumulator, divides a polynomial by
another one bit by bit and reverses the remainder; the host shifts the other way, with the reversed
polynomial.
-/

set_option autoImplicit false

namespace Rustarmic
namespace Guest

variable {N : Nat}

/-! ## The functions of the manual -/

/-- `ShiftReg`, by the field of the kind. -/
def shiftReg (x : BitVec N) (kind amount : Nat) : BitVec N :=
  match kind with
  | 0b00 => x <<< amount
  | 0b01 => x >>> amount
  | 0b10 => x.sshiftRight amount
  | _ => x.rotateRight amount

/-- `ConditionHolds`. -/
def conditionHolds (cond : Nat) (nzcv : U8) : Bool :=
  let n := nzcv.getLsbD 3
  let z := nzcv.getLsbD 2
  let c := nzcv.getLsbD 1
  let v := nzcv.getLsbD 0
  let result := match cond / 2 with
    | 0b000 => z
    | 0b001 => c
    | 0b010 => n
    | 0b011 => v
    | 0b100 => c && !z
    | 0b101 => n == v
    | 0b110 => n == v && !z
    | _ => true
  if cond % 2 = 1 ∧ cond ≠ 0b1111 then !result else result

/-- The first mask of `DecodeBitMasks` for an immediate, when it is not reserved: elements of
`2 ^ len` bits with `S + 1` ones, rotated. -/
def decodeBitMasks (N immN imms immr : Nat) : Option (BitVec N) :=
  let len := (64 * immN + (63 - imms)).log2
  let levels := 2 ^ len - 1
  let S := imms &&& levels
  let R := immr &&& levels
  if len < 1 ∨ S = levels then none
  else
    let welem : BitVec (2 ^ len) := (lowOnes (2 ^ len) (S + 1)).rotateRight R
    some (Lanes.ofBits N fun i => welem.getLsbD (i % 2 ^ len))

/-- The high half of a product. -/
def multiplyHigh (signed : Bool) (x y : U64) : U64 :=
  let product : Int := if signed then x.toInt * y.toInt else x.toNat * y.toNat
  ((BitVec.ofInt 128 product) >>> 64).setWidth 64

/-- A quotient, rounded towards zero; that by zero is zero. -/
def divide (signed : Bool) (x y : BitVec N) : BitVec N :=
  let value (v : BitVec N) : Int := if signed then v.toInt else v.toNat
  if value y = 0 then 0 else BitVec.ofInt N ((value x).tdiv (value y))

/-- `CRC32`: the remainder of the reversed operands by the polynomial, reversed. -/
def crc32 {size : Nat} (poly acc : U32) (val : BitVec size) : U32 :=
  let tempacc : BitVec (32 + size) := acc.reverse ++ (0 : BitVec size)
  let tempval : BitVec (32 + size) := (val.reverse ++ 0#32).setWidth (32 + size)
  ((Checksum.reduce poly size (tempacc ^^^ tempval)).setWidth 32).reverse

/-! ## The instructions

Register 31 reads as zero and takes no result, but for logical immediates.  Operands of 32 bits are
the low halves of registers, results of 32 bits are zero-extended. -/

def X (N : Nat) (m : Machine) (n : Nat) : BitVec N := (m.readX n).setWidth N

def setX (m : Machine) (d : Nat) (x : BitVec N) : Machine := m.writeX d (x.setWidth 64)

/-- A result with its flags, which may be dropped. -/
def setResult (setFlags : Bool) (d : Nat) (r : BitVec N × U8) (m : Machine) : Machine :=
  setX (if setFlags then { m with nzcv := r.2 } else m) d r.1

inductive LogicalOp where
  | and | orr | eor
  deriving DecidableEq, Repr

/-- The result of a logical operation, with its flags. -/
def LogicalOp.apply (op : LogicalOp) (x y : BitVec N) : BitVec N × U8 :=
  let result := match op with
    | .and => x &&& y
    | .orr => x ||| y
    | .eor => x ^^^ y
  (result, packNzcv result.msb (result == 0#N) false false)

/-- A logical immediate: register 31 is the stack pointer for the forms that set no flags. -/
def logicalImmediate (op : LogicalOp) (setFlags : Bool) (d n : Nat) (imm : BitVec N) (m : Machine) : Machine :=
  let r := op.apply (X N m n) imm
  if d = zrEncoding ∧ ¬ setFlags then { m with sp := r.1.setWidth 64 } else setResult setFlags d r m

/-- CSEL, CSINC, CSINV and CSNEG: the second register may be inverted and incremented. -/
def conditionalSelect (N : Nat) (inv inc : Bool) (cond d n k : Nat) (m : Machine) : Machine :=
  let result := if conditionHolds cond m.nzcv then X N m n
    else
      let result := if inv then ~~~X N m k else X N m k
      if inc then result + 1 else result
  setX m d result

/-- CCMP and CCMN. -/
def conditionalCompare (sub : Bool) (cond : Nat) (flags : U8) (operand1 operand2 : BitVec N) (m : Machine) :
    Machine :=
  { m with nzcv := if conditionHolds cond m.nzcv then (addSub sub operand1 operand2).2 else flags }

/-- A product, added to a third operand or subtracted from it. -/
def multiplyAdd {K : Nat} (signed sub : Bool) (x y : BitVec K) (a : BitVec N) : BitVec N :=
  let value {w : Nat} (v : BitVec w) : Int := if signed then v.toInt else v.toNat
  BitVec.ofInt N (if sub then value a - value x * value y else value a + value x * value y)

/-- The bits of two registers from `lsb` on. -/
def extract (x y : BitVec N) (lsb : Nat) : BitVec N := ((x ++ y) >>> lsb).setWidth N

/-! ## Shifts -/

@[simp] theorem shiftReg_zero (x : BitVec N) (kind : Nat) : shiftReg x kind 0 = x := by
  have hrot : x.rotateRight 0 = x := by
    rw [BitVec.rotateRight_def, Nat.zero_mod, BitVec.ushiftRight_zero, Nat.sub_zero,
      BitVec.shiftLeft_eq_zero (Nat.le_refl N), BitVec.or_zero]
  unfold shiftReg
  split
  · exact BitVec.shiftLeft_zero x
  · exact BitVec.ushiftRight_zero x
  · exact BitVec.sshiftRight_zero
  · exact hrot

/-- The bits of two registers by two shifts. -/
theorem extract_eq {k : Nat} (hk : k < N) (x y : BitVec N) :
    extract x y k = (x <<< (N - k)) ||| (y >>> k) := by
  refine BitVec.eq_of_getLsbD_eq fun i hi => ?_
  rw [extract, BitVec.getLsbD_setWidth, decide_eq_true hi, Bool.true_and, BitVec.getLsbD_ushiftRight,
    BitVec.getLsbD_append, BitVec.getLsbD_or, BitVec.getLsbD_shiftLeft, BitVec.getLsbD_ushiftRight,
    decide_eq_true hi, Bool.true_and]
  by_cases hlow : k + i < N
  · rw [if_pos hlow, decide_eq_true (by omega : i < N - k), Bool.not_true, Bool.false_and, Bool.false_or]
  · rw [if_neg hlow, decide_eq_false (by omega : ¬ i < N - k), BitVec.getLsbD_of_ge y _ (by omega),
      Bool.not_false, Bool.true_and, Bool.or_false, show k + i - N = i - (N - k) by omega]

theorem extract_self {k : Nat} (hk : k < N) (x : BitVec N) : extract x x k = x.rotateRight k := by
  rw [extract_eq hk, BitVec.rotateRight_def, Nat.mod_eq_of_lt hk, BitVec.or_comm]

/-! ## Carries -/

theorem inRange_iff (hN : 0 < N) (v : Int) : inRange N v = true ↔ v.bmod (2 ^ N) = v := by
  have h := bmod_ne_iff hN v
  rw [inRange, Bool.and_eq_true, decide_eq_true_iff, decide_eq_true_iff]
  omega

theorem addWithCarry_eq_adc (hN : 0 < N) (x y : BitVec N) (c : Bool) :
    addWithCarry x y c = (hostAdc x y c, adcFlags x y c) := by
  have hres : BitVec.ofNat N (x.toNat + y.toNat + c.toNat) = hostAdc x y c := by
    rw [hostAdc, BitVec.ofNat_add, BitVec.ofNat_add, BitVec.ofNat_toNat, BitVec.ofNat_toNat,
      BitVec.setWidth_eq, BitVec.setWidth_eq]
  have hcarry : ((hostAdc x y c).toNat != x.toNat + y.toNat + c.toNat) =
      decide (2 ^ N ≤ x.toNat + y.toNat + c.toNat) := by
    rw [← hres, Bool.eq_iff_iff, bne_iff_ne, decide_eq_true_iff, BitVec.toNat_ofNat, Ne,
      Nat.mod_eq_iff_lt (Nat.two_pow_pos N).ne', Nat.not_lt]
  have hover : ((hostAdc x y c).toInt != x.toInt + y.toInt + (c.toNat : Int)) =
      !inRange N (x.toInt + y.toInt + c.toNat) := by
    have hint : (hostAdc x y c).toInt = (x.toInt + y.toInt + (c.toNat : Int)).bmod (2 ^ N) := by
      rw [hostAdc, ← BitVec.ofInt_natCast, BitVec.toInt_add, BitVec.toInt_add, BitVec.toInt_ofInt,
        Int.bmod_add_bmod, Int.add_bmod_bmod]
    have h := inRange_iff hN (x.toInt + y.toInt + (c.toNat : Int))
    rw [hint, Bool.eq_iff_iff, bne_iff_ne, Bool.not_eq_true', ← Bool.not_eq_true, h]
  rw [addWithCarry, adcFlags]
  simp only [hres, hcarry, hover]

theorem hostAdc_not (x y : BitVec N) (c : Bool) : hostAdc x (~~~y) c = hostSbb x y !c := by
  have hnot : ~~~y = -y - 1#N := by
    rw [BitVec.neg_eq_not_add, BitVec.add_sub_cancel]
  rw [hostAdc, hostSbb, hnot]
  cases c
  · simp [BitVec.sub_eq_add_neg, BitVec.add_assoc]
  · simp [BitVec.sub_eq_add_neg, BitVec.add_assoc]

/-- A subtraction with a borrow adds the complement. -/
theorem addWithCarry_eq_sbb (hN : 0 < N) (x y : BitVec N) (c : Bool) :
    addWithCarry x (~~~y) c = (hostSbb x y !c, sbbFlags x y !c) := by
  have hx := x.isLt
  have hy := y.isLt
  have hcarry : decide (2 ^ N ≤ x.toNat + (~~~y).toNat + c.toNat) =
      !decide (x.toNat < y.toNat + (!c).toNat) := by
    rw [BitVec.toNat_not, Bool.eq_iff_iff, decide_eq_true_iff, Bool.not_eq_true', decide_eq_false_iff_not]
    cases c <;> simp <;> omega
  have hsum : x.toInt + (~~~y).toInt + (c.toNat : Int) = x.toInt - y.toInt - ((!c).toNat : Int) := by
    rw [toInt_complement hN]
    cases c <;> simp <;> omega
  rw [addWithCarry_eq_adc hN, adcFlags, sbbFlags, hostAdc_not, hcarry, hsum]

/-! ## Conditions -/

/-- **The table of the conditions is the manual's.** -/
theorem condHolds_eq {cond : Nat} (hcond : cond < 16) {nzcv : U8} (hnzcv : nzcv.toNat < 16) {v : Value}
    (hv : v.lo32 = nzcv.setWidth 32) :
    condHolds (BitVec.ofNat 64 cond) v = conditionHolds cond nzcv := by
  have htable : ∀ k < 16, ∀ b < 16, (condTruth (Cond.fromBits (BitVec.ofNat 8 k))).getLsbD b =
      conditionHolds k (BitVec.ofNat 8 b) := by
    decide
  have hk : (BitVec.ofNat 64 cond).setWidth 8 = BitVec.ofNat 8 cond :=
    BitVec.setWidth_ofNat_of_le (by decide) cond
  have hb : (nzcv.setWidth 32 : U32).toNat % 32 = nzcv.toNat := by
    rw [BitVec.toNat_setWidth]
    omega
  rw [condHolds, hk, hv, hb, htable cond hcond nzcv.toNat hnzcv, BitVec.ofNat_toNat, BitVec.setWidth_eq]

/-! ## Products and quotients -/

theorem multiplyHigh_eq (signed : Bool) (x y : U64) : mulHigh x y signed = multiplyHigh signed x y := by
  cases signed
  · have hnat (v : U64) : v.setWidth (2 * 64) = BitVec.ofInt (2 * 64) v.toNat := by
      rw [BitVec.ofInt_natCast, BitVec.ofNat_toNat]
    simp only [mulHigh, multiplyHigh, Bool.false_eq_true, if_false, hnat, ← BitVec.ofInt_mul]
  · have hint (v : U64) : v.signExtend (2 * 64) = BitVec.ofInt (2 * 64) v.toInt := rfl
    simp only [mulHigh, multiplyHigh, if_true, hint, ← BitVec.ofInt_mul]

theorem divide_eq (x y : BitVec N) : guardedDiv x y = divide false x y := by
  have hzero : (y.toNat : Int) = 0 ↔ y = 0 := by
    rw [Int.natCast_eq_zero, ← BitVec.toNat_inj]
    simp
  rw [guardedDiv, divide]
  simp only [Bool.false_eq_true, if_false, hzero]
  split
  · rfl
  · rw [← Int.ofNat_tdiv, BitVec.ofInt_natCast, ← BitVec.toNat_udiv, BitVec.ofNat_toNat, BitVec.setWidth_eq]

theorem divide_signed_eq (x y : BitVec N) : guardedSdiv x y = divide true x y := by
  have hzero : y.toInt = 0 ↔ y = 0 := by
    rw [← BitVec.toInt_inj]
    simp
  have hquot : BitVec.ofInt N (x.toInt.tdiv y.toInt) = x.sdiv y := by
    refine BitVec.eq_of_toInt_eq ?_
    rw [BitVec.toInt_ofInt, BitVec.toInt_sdiv]
  rw [guardedSdiv, divide]
  simp only [if_true, hzero, hquot]
  split
  · rfl
  · split
    · next h =>
      rw [h.1, h.2]
      exact BitVec.intMin_sdiv_neg_one.symm
    · rfl

/-! ## Checksums -/

/-- A reversed word with zeros below, from its highest bit down. -/
theorem getLsbD_reverse_append {n m j : Nat} (hj : j < n + m) (x : BitVec n) :
    (x.reverse ++ (0 : BitVec m)).getLsbD (n + m - 1 - j) = x.getLsbD j := by
  rw [BitVec.getLsbD_append, BitVec.getLsbD_reverse, BitVec.getMsbD_eq_getLsbD]
  by_cases h : j < n
  · rw [if_neg (by omega), decide_eq_true (by omega : n + m - 1 - j - m < n), Bool.true_and,
      show n - 1 - (n + m - 1 - j - m) = j by omega]
  · rw [if_pos (by omega), BitVec.getLsbD_of_ge x j (by omega)]
    exact BitVec.getLsbD_zero

/-- **The host's checksum is the manual's remainder.** -/
theorem crc32_eq (poly acc : U32) (k : Nat) {n : Nat} (data : BitVec n) :
    Checksum.bytes poly.reverse k acc data = crc32 poly acc (data.setWidth (8 * k)) := by
  have hbytes := @Checksum.bytes_eq 32 (32 + 8 * k) n poly.reverse (by decide) k (by omega) acc data
  refine BitVec.eq_of_getLsbD_eq fun i hi => ?_
  have hwide : (Checksum.bytes poly.reverse k acc data).getLsbD i =
      ((Checksum.bytes poly.reverse k acc data).setWidth (32 + 8 * k)).getLsbD i := by
    rw [BitVec.getLsbD_setWidth, decide_eq_true (by omega : i < 32 + 8 * k), Bool.true_and]
  rw [hwide, hbytes, crc32, BitVec.getLsbD_reverse, BitVec.getMsbD_eq_getLsbD, decide_eq_true hi, Bool.true_and,
    BitVec.getLsbD_setWidth, decide_eq_true (by omega : 32 - 1 - i < 32), Bool.true_and]
  refine Checksum.getLsbD_reduce le_rfl le_rfl (fun j hj => ?_) hi
  generalize data.setWidth (8 * k) = val
  have hval : ((val.reverse ++ 0#32).setWidth (32 + 8 * k)).getLsbD (32 + 8 * k - 1 - j) = val.getLsbD j := by
    rw [BitVec.getLsbD_setWidth, decide_eq_true (by omega : 32 + 8 * k - 1 - j < 32 + 8 * k), Bool.true_and,
      Nat.add_comm 32 (8 * k)]
    exact getLsbD_reverse_append (by omega) val
  rw [BitVec.getLsbD_xor, BitVec.getLsbD_xor, hval, getLsbD_reverse_append hj, BitVec.getLsbD_setWidth,
    BitVec.getLsbD_setWidth, decide_eq_true hj, Bool.true_and, Bool.true_and]

end Guest
end Rustarmic
