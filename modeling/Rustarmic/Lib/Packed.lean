import Rustarmic.Lib.Lanes

/-!
# Packed arithmetic

The operations of a 128-bit vector unit on its lanes, and their bits: a shift of 16-bit lanes moves
bits across the boundary between the two bytes of a lane, but not between lanes.

* `mapLanes`, `zipLanes` — a function of the lanes of one vector or of two; most operations are one
  of these.
* `lane_packsswb_psraw` — the signed shift of bytes by way of 16-bit lanes.
* `pcmpgtHalves_eq` — the signed comparison of 64-bit lanes by way of 32-bit lanes.

Names are those of the instructions.  An operation on words is what its manual says of a lane, and a
lane of the result is given by one lemma, so that a sequence of instructions is followed lane by
lane with `simp` and never bit by bit.

A vector unit has gaps, and code fills them with what there is.  Two of the ways around are lemmas
here since they are about lanes and about nothing else.  There is no shift of signed bytes: they are
widened, shifted and packed again, and the saturation of the packing does nothing as a shifted byte
is still a byte.  There is no comparison of signed 64-bit lanes without a later extension: the
halves are compared, the upper ones signed and the lower ones unsigned, which is a signed comparison
with the top bits flipped.
-/

set_option autoImplicit false

namespace Packed

open Lanes

/-- A function of every lane. -/
def mapLanes {n : Nat} (w : Nat) (f : BitVec w → BitVec w) (x : BitVec n) : BitVec n :=
  ofLanes n w fun k => f (lane w x k)

/-- Shift the 16-bit lanes right, zeros coming in. -/
def psrlw (x : BitVec 128) (s : Nat) : BitVec 128 := mapLanes 16 (· >>> s) x

/-- Shift the 16-bit lanes left. -/
def psllw (x : BitVec 128) (s : Nat) : BitVec 128 := mapLanes 16 (· <<< s) x

/-- Shift the 16-bit lanes right, copies of the sign coming in. -/
def psraw (x : BitVec 128) (s : Nat) : BitVec 128 := mapLanes 16 (·.sshiftRight s) x

/-- Sign-extend the low eight bytes to 16 bits. -/
def pmovsxbw (x : BitVec 128) : BitVec 128 := ofLanes 128 16 fun k => (lane 8 x k).signExtend 16

/-- The nearest signed byte. -/
def saturate (y : BitVec 16) : BitVec 8 :=
  if y.toInt < -128 then 0x80 else if 127 < y.toInt then 0x7F else y.setWidth 8

/-- The lanes of `x` and then those of `y`, saturated to signed bytes. -/
def packsswb (x y : BitVec 128) : BitVec 128 :=
  ofLanes 128 8 fun k => saturate (if k < 8 then lane 16 x k else lane 16 y (k - 8))

/-- The low half of `x` below the low half of `y`. -/
def punpcklqdq (x y : BitVec 128) : BitVec 128 := (y.setWidth 64 ++ x.setWidth 64 : BitVec 128)

variable {x y : BitVec 128} {s i k : Nat}

theorem getLsbD_psrlw (hi : i < 128) :
    (psrlw x s).getLsbD i = (decide (i % 16 + s < 16) && x.getLsbD (i + s)) := by
  rw [psrlw, mapLanes, getLsbD_ofLanes, decide_eq_true hi, Bool.true_and,
    BitVec.getLsbD_ushiftRight, getLsbD_lane, Nat.add_comm s, ← Nat.add_assoc, Nat.div_add_mod]

theorem getLsbD_psllw (hi : i < 128) :
    (psllw x s).getLsbD i = (decide (s ≤ i % 16) && x.getLsbD (i - s)) := by
  rw [psllw, mapLanes, getLsbD_ofLanes, decide_eq_true hi, Bool.true_and, BitVec.getLsbD_shiftLeft,
    getLsbD_lane]
  by_cases hs : s ≤ i % 16
  · rw [(by omega : 16 * (i / 16) + (i % 16 - s) = i - s)]
    simp only [decide_eq_true hs, decide_eq_true (by omega : i % 16 < 16),
      decide_eq_false (by omega : ¬ i % 16 < s), decide_eq_true (by omega : i % 16 - s < 16),
      Bool.not_false, Bool.true_and]
  · simp only [decide_eq_false hs, decide_eq_true (by omega : i % 16 < s), Bool.not_true,
      Bool.and_false, Bool.false_and]

theorem toInt_sshiftRight_signExtend (c : BitVec 8) (s : Nat) :
    ((c.signExtend 16).sshiftRight s).toInt = (c.sshiftRight s).toInt := by
  rw [BitVec.toInt_sshiftRight, BitVec.toInt_sshiftRight,
    BitVec.toInt_signExtend_of_le (by decide : 8 ≤ 16)]

theorem toInt_setWidth_of_byte {y : BitVec 16} (hlo : -128 ≤ y.toInt) (hhi : y.toInt ≤ 127) :
    (y.setWidth 8).toInt = y.toInt := by
  rw [BitVec.toInt_setWidth]
  rw [BitVec.toInt_eq_toNat_cond] at hlo hhi ⊢
  rw [Int.bmod_def]
  omega

/-- A signed byte survives the way to 16 bits and back. -/
theorem saturate_sshiftRight (c : BitVec 8) (s : Nat) :
    saturate ((c.signExtend 16).sshiftRight s) = c.sshiftRight s := by
  have hint := toInt_sshiftRight_signExtend c s
  have hlo := @BitVec.le_toInt 8 (c.sshiftRight s)
  have hhi := @BitVec.toInt_lt 8 (c.sshiftRight s)
  rw [saturate, if_neg (by omega), if_neg (by omega)]
  refine BitVec.eq_of_toInt_eq ?_
  rw [toInt_setWidth_of_byte (by omega) (by omega), hint]

/-- The signed shift of bytes by way of 16-bit lanes. -/
theorem lane_packsswb_psraw (hk : k < 16) :
    lane 8 (packsswb (psraw (pmovsxbw x) s) (psraw (pmovsxbw (x >>> 64)) s)) k =
      (lane 8 x k).sshiftRight s := by
  have hlane : ∀ (z : BitVec 128) j, j < 8 →
      lane 16 (psraw (pmovsxbw z) s) j = ((lane 8 z j).signExtend 16).sshiftRight s := by
    intro z j hj
    rw [psraw, mapLanes, lane_ofLanes _ (by omega), pmovsxbw, lane_ofLanes _ (by omega)]
  rw [packsswb, lane_ofLanes _ (by omega)]
  by_cases hlow : k < 8
  · rw [if_pos hlow, hlane x k hlow, saturate_sshiftRight]
  · rw [if_neg hlow, hlane _ _ (by omega), saturate_sshiftRight]
    refine congrArg (BitVec.sshiftRight · s) (BitVec.eq_of_getLsbD_eq fun i _ => ?_)
    rw [getLsbD_lane, getLsbD_lane, BitVec.getLsbD_ushiftRight,
      (by omega : 64 + (8 * (k - 8) + i) = 8 * k + i)]

/-! ## Lanes of any width -/

/-- A function of the lanes of two vectors. -/
def zipLanes {n : Nat} (w : Nat) (f : BitVec w → BitVec w → BitVec w) (x y : BitVec n) :
    BitVec n :=
  ofLanes n w fun k => f (lane w x k) (lane w y k)

/-- All ones or all zeros. -/
def fill (w : Nat) (p : Bool) : BitVec w := if p then BitVec.allOnes w else 0

/-- Which lanes are equal. -/
def pcmpeq (w : Nat) (x y : BitVec 128) : BitVec 128 := zipLanes w (fun a b => fill w (a == b)) x y

/-- Which lanes of `x` are greater, as signed numbers. -/
def pcmpgt (w : Nat) (x y : BitVec 128) : BitVec 128 := zipLanes w (fun a b => fill w (b.slt a)) x y

/-- Differences of unsigned bytes, zero where they would be negative. -/
def psubusb (x y : BitVec 128) : BitVec 128 :=
  zipLanes 8 (fun a b => if a.ult b then 0 else a - b) x y

/-- Sums of unsigned bytes, all ones where they would not fit. -/
def paddusb (x y : BitVec 128) : BitVec 128 :=
  zipLanes 8 (fun a b => if BitVec.uaddOverflow a b then BitVec.allOnes 8 else a + b) x y

/-- Choose bytes; a choice with its top bit set gives zero. -/
def pshufb (x order : BitVec 128) : BitVec 128 :=
  ofLanes 128 8 fun k =>
    if (lane 8 order k).msb then 0 else lane 8 x ((lane 8 order k).toNat % 16)

/-- Shift the lanes left. -/
def psll (w : Nat) (x : BitVec 128) (s : Nat) : BitVec 128 := mapLanes w (· <<< s) x

/-- Shift the lanes right, zeros coming in. -/
def psrl (w : Nat) (x : BitVec 128) (s : Nat) : BitVec 128 := mapLanes w (· >>> s) x

/-- Shift the lanes right, copies of the sign coming in. -/
def psra (w : Nat) (x : BitVec 128) (s : Nat) : BitVec 128 := mapLanes w (·.sshiftRight s) x

/-- Choose four 32-bit lanes. -/
def pshufd (x : BitVec 128) (order : BitVec 8) : BitVec 128 :=
  ofLanes 128 32 fun k => lane 32 x ((order >>> (2 * k)).toNat % 4)

/-- The low half, zeros above it. -/
def movq (x : BitVec 128) : BitVec 128 := (x.setWidth 64).setWidth 128

/-! ## Comparing lanes of 64 bits by their halves -/

section halves

variable {w k : Nat} {x y : BitVec 128}

theorem lane_zipLanes (f : BitVec w → BitVec w → BitVec w) (h : w * k + w ≤ 128) :
    lane w (zipLanes w f x y) k = f (lane w x k) (lane w y k) := lane_ofLanes _ h

theorem lane_mapLanes (f : BitVec w → BitVec w) (h : w * k + w ≤ 128) :
    lane w (mapLanes w f x) k = f (lane w x k) := lane_ofLanes _ h

theorem lane_pcmpgt (h : w * k + w ≤ 128) :
    lane w (pcmpgt w x y) k = fill w ((lane w y k).slt (lane w x k)) := lane_zipLanes _ h

theorem lane_allOnes (h : w * k + w ≤ 128) :
    lane w (BitVec.allOnes 128) k = BitVec.allOnes w := by
  refine BitVec.eq_of_getLsbD_eq fun i hi => ?_
  rw [getLsbD_lane, BitVec.getLsbD_allOnes, BitVec.getLsbD_allOnes, decide_eq_true hi,
    decide_eq_true (by omega), Bool.true_and]

theorem pcmpeq_self (hw : 0 < w) (hdvd : w ∣ 128) (x : BitVec 128) :
    pcmpeq w x x = BitVec.allOnes 128 := by
  obtain ⟨c, hc⟩ := hdvd
  refine ext_lane hw fun k hk => ?_
  have hle : w * k + w ≤ 128 := by
    have hlt : k < c := Nat.lt_of_mul_lt_mul_left (hc ▸ hk)
    rw [hc, ← Nat.mul_succ]
    exact Nat.mul_le_mul_left w hlt
  rw [pcmpeq, lane_zipLanes _ hle, beq_self_eq_true, lane_allOnes hle]
  rfl

/-- With the top bit flipped, the signed order is the unsigned one. -/
theorem toInt_xor_intMin {v : Nat} (x : BitVec (v + 1)) :
    (x ^^^ BitVec.intMin (v + 1)).toInt = (x.toNat : Int) - (2 ^ v : Nat) := by
  have hlt := x.isLt
  have hpow : (2 : Nat) ^ (v + 1) = 2 ^ v + 2 ^ v := by omega
  have hmin : (BitVec.intMin (v + 1)).toNat = 2 ^ v := by
    have := Nat.two_pow_pos v
    rw [BitVec.toNat_intMin, Nat.add_sub_cancel, Nat.mod_eq_of_lt (by omega)]
  have hdiv := Nat.xor_div_two_pow (a := x.toNat) (b := 2 ^ v) (n := v)
  have hmod := Nat.xor_mod_two_pow (a := x.toNat) (b := 2 ^ v) (n := v)
  rw [Nat.div_self (Nat.two_pow_pos v)] at hdiv
  rw [Nat.mod_self, Nat.xor_zero] at hmod
  have hsplit := Nat.div_add_mod (x.toNat ^^^ 2 ^ v) (2 ^ v)
  have hsplit' := Nat.div_add_mod x.toNat (2 ^ v)
  have hmod_lt := Nat.mod_lt x.toNat (Nat.two_pow_pos v)
  rw [hdiv, hmod] at hsplit
  rw [BitVec.toInt_eq_toNat_cond, BitVec.toNat_xor, hmin]
  by_cases hx : x.toNat < 2 ^ v
  · rw [Nat.div_eq_of_lt hx] at hsplit hsplit'
    simp only [Nat.zero_xor, Nat.mul_one] at hsplit
    rw [if_neg (by omega)]
    omega
  · have hone : x.toNat / 2 ^ v = 1 :=
      Nat.div_eq_of_lt_le (by omega) (by omega)
    rw [hone] at hsplit hsplit'
    simp only [Nat.xor_self, Nat.mul_zero] at hsplit
    rw [if_pos (by omega)]
    omega

theorem slt_xor_intMin {v : Nat} (x y : BitVec (v + 1)) :
    (x ^^^ BitVec.intMin (v + 1)).slt (y ^^^ BitVec.intMin (v + 1)) = x.ult y := by
  rw [BitVec.slt, toInt_xor_intMin, toInt_xor_intMin, BitVec.ult, decide_eq_decide]
  omega

/-- The signed order of 64-bit numbers by their halves. -/
theorem slt_append (a b c d : BitVec 32) :
    (a ++ b : BitVec 64).slt (c ++ d : BitVec 64) = (a.slt c || (a == c && b.ult d)) := by
  have hb := b.isLt
  have hd := d.isLt
  rw [BitVec.slt, BitVec.slt, BitVec.ult, BitVec.toInt_append, BitVec.toInt_append, Bool.eq_iff_iff]
  simp only [decide_eq_true_eq, Bool.or_eq_true, Bool.and_eq_true, beq_iff_eq, ← BitVec.toInt_inj,
    Nat.reduceBEq, Bool.false_eq_true, if_false]
  omega

theorem lane_halves_append (x : BitVec 128) (k : Nat) :
    lane 64 x k = (lane 32 x (2 * k + 1) ++ lane 32 x (2 * k) : BitVec 64) := by
  refine BitVec.eq_of_getLsbD_eq fun i hi => ?_
  rw [getLsbD_lane, BitVec.getLsbD_append]
  split
  · rename_i hlow
    rw [getLsbD_lane, (by omega : 32 * (2 * k) + i = 64 * k + i), decide_eq_true hi,
      decide_eq_true hlow]
  · rename_i hhigh
    rw [getLsbD_lane, (by omega : 32 * (2 * k + 1) + (i - 32) = 64 * k + i), decide_eq_true hi,
      decide_eq_true (by omega)]

theorem lane_psrl_half (hk : k < 2) : lane 32 (psrl 64 x 32) (2 * k) = lane 32 x (2 * k + 1) := by
  refine BitVec.eq_of_getLsbD_eq fun i hi => ?_
  rw [getLsbD_lane, getLsbD_lane, psrl, mapLanes, getLsbD_ofLanes, BitVec.getLsbD_ushiftRight,
    getLsbD_lane, decide_eq_true hi, decide_eq_true (by omega),
    (by omega : (32 * (2 * k) + i) / 64 = k), (by omega : (32 * (2 * k) + i) % 64 = i),
    decide_eq_true (by omega), (by omega : 64 * k + (32 + i) = 32 * (2 * k + 1) + i),
    Bool.true_and, Bool.true_and]

/-- Both halves of a lane become the low one. -/
theorem lane_pshufd_low (hk : k < 2) :
    lane 64 (pshufd x 0xA0) k = (lane 32 x (2 * k) ++ lane 32 x (2 * k) : BitVec 64) := by
  rw [lane_halves_append, pshufd, lane_ofLanes _ (by omega), lane_ofLanes _ (by omega)]
  obtain rfl | rfl : k = 0 ∨ k = 1 := by omega
  · rfl
  · rfl

theorem fill_append (p : Bool) : (fill 32 p ++ fill 32 p : BitVec 64) = fill 64 p := by
  cases p <;> decide

theorem fill_or {w : Nat} (p q : Bool) : fill w p ||| fill w q = fill w (p || q) := by
  cases p <;> cases q <;> simp [fill]

theorem fill_and {w : Nat} (p q : Bool) : fill w p &&& fill w q = fill w (p && q) := by
  cases p <;> cases q <;> simp [fill]

/-- Which lanes of `x` are greater, by way of comparisons of 32-bit lanes: the upper halves, and the
lower ones with the top bits flipped. -/
def pcmpgtHalves (x y : BitVec 128) : BitVec 128 :=
  let flip := psll 32 (BitVec.allOnes 128) 31
  pshufd (pcmpgt 32 (psrl 64 x 32) (psrl 64 y 32)) 0xA0 |||
    pshufd (pcmpeq 32 (psrl 64 x 32) (psrl 64 y 32)) 0xA0 &&&
      pshufd (pcmpgt 32 (x ^^^ flip) (y ^^^ flip)) 0xA0

theorem pcmpgtHalves_eq (x y : BitVec 128) : pcmpgtHalves x y = pcmpgt 64 x y := by
  refine ext_lane (by decide : 0 < 64) fun k hk => ?_
  have hk : k < 2 := by omega
  have hflip : lane 32 (psll 32 (BitVec.allOnes 128) 31) (2 * k) = BitVec.intMin (31 + 1) := by
    rw [psll, lane_mapLanes _ (by omega), lane_allOnes (by omega)]
    rfl
  rw [pcmpgtHalves, lane_or, lane_and, lane_pshufd_low hk, lane_pshufd_low hk, lane_pshufd_low hk,
    lane_pcmpgt (by omega), lane_pcmpgt (by omega), lane_pcmpgt (by omega), pcmpeq,
    lane_zipLanes _ (by omega), lane_psrl_half hk, lane_psrl_half hk, lane_xor, lane_xor, hflip,
    fill_append, fill_append, fill_append, fill_and, fill_or, lane_halves_append x,
    lane_halves_append y, slt_append, slt_xor_intMin, BEq.comm (a := lane 32 x _)]

end halves

end Packed
