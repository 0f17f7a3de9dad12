import Rustarmic.Ir.Eval

/-!
# Addition and subtraction as the architecture defines them

`addWithCarry` and `extendReg` are the functions the manual describes the instructions with;
`AddSub.exec` is the instruction, once its operands are decoded.  Numbers of registers are those of
the encoding, so that 31 stands for the stack pointer or for nothing.

* `addSub_eq` — the sum or difference, and its flags, as the host computes them.
* `extendReg_eq` — an extended register, computed at 64 bits.

The manual finds the flags by comparing: C is set when the result as an unsigned number is not the
exact sum, V when it is not as a signed one.  The host has a carry and an overflow flag with
definitions of its own, and for a subtraction its carry is a borrow.  `addWithCarry_false` and
`addWithCarry_true` say that the two are the same, with the borrow turned over.

Register 31 is settled in `exec` and `write` and nowhere else.  The first operand is the stack
pointer in every form.  The destination is the stack pointer only if the flags are not set;
otherwise it is the zero register, and `write` drops the result.
-/

set_option autoImplicit false

namespace Rustarmic
namespace Guest

variable {N : Nat}

/-- `AddWithCarry`: the sum, and NZCV from comparing it with the unbounded sums. -/
def addWithCarry (x y : BitVec N) (carryIn : Bool) : BitVec N × U8 :=
  let unsignedSum := x.toNat + y.toNat + carryIn.toNat
  let signedSum := x.toInt + y.toInt + (carryIn.toNat : Int)
  let result := BitVec.ofNat N unsignedSum
  (result, packNzcv result.msb (result == 0#N) (result.toNat != unsignedSum)
    (result.toInt != signedSum))

/-- A subtraction adds the complement and one. -/
def addSub (sub : Bool) (x y : BitVec N) : BitVec N × U8 :=
  if sub then addWithCarry x (~~~y) true else addWithCarry x y false

/-- An addition or subtraction with its operand registers. -/
structure AddSub where
  sub : Bool
  setFlags : Bool
  d : Nat
  n : Nat

/-- What the instruction does with its operands: register 31 is the stack pointer as the
destination of the forms that set no flags. -/
def AddSub.write (i : AddSub) (operand1 operand2 : BitVec N) (m : Machine) : Machine :=
  let r := addSub i.sub operand1 operand2
  if i.setFlags then { m with nzcv := r.2 }.writeX i.d (r.1.setWidth 64)
  else if i.d = zrEncoding then { m with sp := r.1.setWidth 64 }
  else m.writeX i.d (r.1.setWidth 64)

/-- The instruction on operands of `N` bits: register 31 is the stack pointer as the first
operand. -/
def AddSub.exec (i : AddSub) (operand2 : BitVec N) (m : Machine) : Machine :=
  i.write ((if i.n = zrEncoding then m.sp else m.x i.n).setWidth N) operand2 m

/-- The width and the signedness of an extension, by its `option` field. -/
def decodeExtend (option : Nat) : Nat × Bool := (8 <<< (option % 4), 4 ≤ option)

/-- `ExtendReg`: part of a register, moved left and extended. -/
def extendReg (x : BitVec N) (option shift : Nat) : BitVec N :=
  let e := decodeExtend option
  let len := min e.1 (N - shift)
  let moved : BitVec (len + shift) := x.setWidth len ++ 0#(shift)
  if e.2 then moved.signExtend N else moved.setWidth N

/-! ## The host computes the same -/

/-- A signed sum is represented when it is in range. -/
theorem bmod_ne_iff (hN : 0 < N) (v : Int) :
    v.bmod (2 ^ N) ≠ v ↔ 2 ^ (N - 1) ≤ v ∨ v < -2 ^ (N - 1) := by
  obtain ⟨k, rfl⟩ := Nat.exists_eq_add_one.mpr hN
  have hpow : ((2 ^ (k + 1) : Nat) : Int) = 2 * 2 ^ k := by
    push_cast
    rw [Int.pow_succ, Int.mul_comm]
  rw [Ne, Int.bmod_eq_iff (Nat.two_pow_pos _), hpow, Int.sub_self, Nat.add_sub_cancel]
  simp only [Int.dvd_zero, and_true]
  omega

theorem addWithCarry_false (hN : 0 < N) (x y : BitVec N) :
    addWithCarry x y false = (x + y, addFlags x y) := by
  have hres : BitVec.ofNat N (x.toNat + y.toNat) = x + y := BitVec.eq_of_toNat_eq (by simp)
  have hcarry : ((x + y).toNat != x.toNat + y.toNat) = BitVec.uaddOverflow x y := by
    have := x.isLt
    have := y.isLt
    rw [Bool.eq_iff_iff, bne_iff_ne, BitVec.uaddOverflow, decide_eq_true_iff, BitVec.toNat_add]
    by_cases h : 2 ^ N ≤ x.toNat + y.toNat
    · rw [Nat.mod_eq_sub_mod h, Nat.mod_eq_of_lt (by omega)]
      omega
    · rw [Nat.mod_eq_of_lt (by omega)]
      omega
  have hover : ((x + y).toInt != x.toInt + y.toInt) = BitVec.saddOverflow x y := by
    rw [Bool.eq_iff_iff, bne_iff_ne, BitVec.toInt_add, bmod_ne_iff hN, BitVec.saddOverflow]
    simp
  rw [addWithCarry, addFlags]
  simp only [Bool.toNat_false, hres, Nat.add_zero, hcarry, Int.natCast_zero, Int.add_zero, hover]

theorem toInt_complement (hN : 0 < N) (y : BitVec N) : (~~~y).toInt = -y.toInt - 1 := by
  have hy := y.isLt
  have hpow : 2 ^ N = 2 * 2 ^ (N - 1) := by
    rw [← Nat.pow_succ', Nat.succ_eq_add_one, Nat.sub_add_cancel hN]
  rw [BitVec.toInt_eq_toNat_cond, BitVec.toInt_eq_toNat_cond, BitVec.toNat_not]
  push_cast [Nat.sub_sub, Nat.cast_sub (by omega : 1 + y.toNat ≤ 2 ^ N)]
  split <;> split <;> omega

theorem addWithCarry_true (hN : 0 < N) (x y : BitVec N) :
    addWithCarry x (~~~y) true = (x - y, subFlags x y) := by
  have hx := x.isLt
  have hy := y.isLt
  have hsum : x.toNat + (~~~y).toNat + 1 = x.toNat + (2 ^ N - y.toNat) := by
    rw [BitVec.toNat_not]
    omega
  have hres : BitVec.ofNat N (x.toNat + (~~~y).toNat + 1) = x - y := by
    rw [hsum]
    refine BitVec.eq_of_toNat_eq ?_
    rw [BitVec.toNat_ofNat, BitVec.toNat_sub, Nat.add_comm]
  have hcarry : ((x - y).toNat != x.toNat + (~~~y).toNat + 1) = !BitVec.usubOverflow x y := by
    rw [hsum, Bool.eq_iff_iff, bne_iff_ne, BitVec.usubOverflow, Bool.not_eq_true',
      decide_eq_false_iff_not, BitVec.toNat_sub]
    by_cases h : y.toNat ≤ x.toNat
    · rw [Nat.mod_eq_sub_mod (by omega), Nat.mod_eq_of_lt (by omega)]
      omega
    · rw [Nat.mod_eq_of_lt (by omega)]
      omega
  have hnot := toInt_complement hN y
  have hover : ((x - y).toInt != x.toInt + (~~~y).toInt + 1) = BitVec.ssubOverflow x y := by
    have hsub : x.toInt + (~~~y).toInt + 1 = x.toInt - y.toInt := by omega
    rw [hsub, Bool.eq_iff_iff, bne_iff_ne, BitVec.toInt_sub, bmod_ne_iff hN, BitVec.ssubOverflow]
    simp
  rw [addWithCarry, subFlags]
  simp only [Bool.toNat_true, hres, hcarry, Int.natCast_one, hover]

/-- What the host computes, as one pair. -/
theorem addSub_eq (hN : 0 < N) (sub : Bool) (x y : BitVec N) : addSub sub x y =
    if sub then (x - y, subFlags x y) else (x + y, addFlags x y) := by
  rw [addSub, addWithCarry_true hN, addWithCarry_false hN]

theorem addSub_fst (hN : 0 < N) (sub : Bool) (x y : BitVec N) :
    (addSub sub x y).1 = if sub then x - y else x + y := by
  rw [addSub_eq hN]
  cases sub <;> rfl

theorem getLsbD_packNzcv (n z c v : Bool) : (packNzcv n z c v).getLsbD 2 = z := by
  revert n z c v
  decide

/-- The flag Z of the result. -/
theorem addSub_zero (hN : 0 < N) (sub : Bool) (x y : BitVec N) :
    (addSub sub x y).2.getLsbD 2 = ((addSub sub x y).1 == 0#N) := by
  rw [addSub_eq hN]
  cases sub
  · exact getLsbD_packNzcv _ _ _ _
  · exact getLsbD_packNzcv _ _ _ _

/-- The flags depend on the first operand. -/
theorem exists_flags_ne (hN : 0 < N) (sub : Bool) (y : BitVec N) :
    ∃ x : BitVec N, (addSub sub x y).2 ≠ (addSub sub 0 y).2 := by
  have hdiff : ∃ x : BitVec N, ((addSub sub x y).1 == 0#N) ≠ ((addSub sub 0 y).1 == 0#N) := by
    by_cases hy : y = 0
    · have hone : (1#N == 0#N) = false := by
        rw [beq_eq_false_iff_ne]
        exact fun h => absurd (congrArg BitVec.toNat h) (by simp [Nat.ne_of_gt hN])
      refine ⟨1#N, ?_⟩
      subst hy
      cases sub <;> simp [addSub_fst hN, hone]
    · have hy : ¬ y = 0#N := hy
      refine ⟨if sub then y else -y, ?_⟩
      cases sub <;> simp [addSub_fst hN, hy, BitVec.add_comm]
  obtain ⟨x, hx⟩ := hdiff
  refine ⟨x, fun h => hx ?_⟩
  rw [← addSub_zero hN, ← addSub_zero hN, h]

theorem AddSub.nzcv_write {i : AddSub} (h : i.setFlags) (x y : BitVec N) (m : Machine) :
    (i.write x y m).nzcv = (addSub i.sub x y).2 := by
  rw [AddSub.write, if_pos h, Machine.writeX]
  split <;> rfl

/-! ## Extended registers -/

/-- The low bits of a word, extended. -/
def extended (w : Nat) (signed : Bool) (x : U64) : U64 :=
  if signed then (x.setWidth w).signExtend 64 else (x.setWidth w).setWidth 64

theorem getLsbD_extended {w j : Nat} (hpos : 0 < w) (hle : w ≤ 64) (hj : j < 64) (signed : Bool)
    (x : U64) : (extended w signed x).getLsbD j =
      if j < w then x.getLsbD j else signed && x.getLsbD (w - 1) := by
  have hlast : w - 1 < w := by omega
  rw [extended]
  cases signed
  · by_cases hw : j < w <;> simp [hj, hw]
  · rw [if_pos rfl, BitVec.getLsbD_signExtend, BitVec.msb_eq_getLsbD_last, BitVec.getLsbD_setWidth,
      BitVec.getLsbD_setWidth]
    by_cases hw : j < w <;> simp [hj, hw, hlast]

/-- Bits of an extension of a part that was moved left. -/
theorem getLsbD_moved {len shift i : Nat} (hpos : 0 < len) (hi : i < N) (signed : Bool)
    (y : BitVec len) :
    (if signed then (y ++ 0#(shift)).signExtend N else (y ++ 0#(shift)).setWidth N).getLsbD i =
      (!decide (i < shift) &&
        if i - shift < len then y.getLsbD (i - shift) else signed && y.getLsbD (len - 1)) := by
  have hmsb : (y ++ 0#(shift)).msb = y.getLsbD (len - 1) := by
    rw [BitVec.msb_append, if_neg (by omega), BitVec.msb_eq_getLsbD_last]
  cases signed
  · rw [if_neg Bool.false_ne_true, BitVec.getLsbD_setWidth, BitVec.getLsbD_append, decide_eq_true hi,
      Bool.true_and]
    by_cases hlow : i < shift
    · simp [hlow]
    · by_cases hin : i - shift < len
      · simp [hlow, hin]
      · simp [hlow, hin, BitVec.getLsbD_of_ge y (i - shift) (by omega)]
  · rw [if_pos rfl, BitVec.getLsbD_signExtend, BitVec.getLsbD_append, hmsb, decide_eq_true hi,
      Bool.true_and]
    by_cases hlow : i < shift
    · have hin : i < len + shift := by omega
      simp [hlow, hin]
    · have hin : i - shift < len ↔ i < len + shift := by omega
      by_cases h : i < len + shift
      · simp [hlow, hin, h]
      · simp [hlow, hin, h]

theorem decodeExtend_bounds (option : Nat) :
    0 < (decodeExtend option).1 ∧ (decodeExtend option).1 ≤ 64 := by
  have hwidth : ∀ k < 4, 0 < 8 <<< k ∧ 8 <<< k ≤ 64 := by decide
  exact hwidth (option % 4) (Nat.mod_lt _ (by decide))

/-- An extended register may be computed at 64 bits and cut afterwards. -/
theorem extendReg_eq (hN : N ≤ 64) {option shift : Nat} (hshift : shift < N) (x : U64) :
    extendReg (x.setWidth N) option shift =
      (extended (decodeExtend option).1 (decodeExtend option).2 x <<< shift).setWidth N := by
  obtain ⟨hpos, hle⟩ := decodeExtend_bounds option
  rw [extendReg]
  generalize decodeExtend option = e at *
  obtain ⟨w, signed⟩ := e
  simp only at hpos hle ⊢
  refine BitVec.eq_of_getLsbD_eq fun i hi => ?_
  rw [getLsbD_moved (by omega) hi, BitVec.getLsbD_setWidth (x := extended w signed x <<< shift),
    BitVec.getLsbD_shiftLeft, getLsbD_extended hpos hle (by omega), decide_eq_true hi,
    decide_eq_true (by omega : i < 64), Bool.true_and, Bool.true_and]
  by_cases hlow : i < shift
  · simp [hlow]
  · -- The part is cut only where it reaches beyond the register.
    have hcut : i - shift < min w (N - shift) ↔ i - shift < w := by omega
    by_cases hin : i - shift < w
    · have h64 : i - shift < N := by omega
      simp [hlow, hcut, hin]
    · have hlen : min w (N - shift) = w := by omega
      have h64 : w - 1 < N := by omega
      have hlast : w - 1 < w := by omega
      simp [hlow, hin, hlen, h64, hlast]
end Guest
end Rustarmic
