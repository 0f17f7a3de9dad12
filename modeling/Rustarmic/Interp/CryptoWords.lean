import Rustarmic.Interp.Crypto

/-!
# The words of a register

What the helpers of the hash instructions do to the four words of a register.

* `w_setW`, `w_push_succ`, `w_shifted` — the words after the updates of the helpers.
* `choose_eq`, `majority_eq` — the two functions of a round as the standard writes them.

`interp/crypto.rs` keeps the state of a hash function in 128-bit registers, as the instructions do,
and updates it by shifting a whole register by a word and putting a word in at the end.  The
standards speak of words a, b, c, and so on.  The lemmas here turn one into the other: each gives
one word of an updated register, and `ext_w` says that a register is determined by its words.  With
them a helper's loop body is a rotation of variables, and nothing behind this file looks at bits.

The two functions are written with one operation less in the source than in the standard, a choice
by two exclusive ors and a majority by an or; bit by bit they are the same.
-/

set_option autoImplicit false

namespace Rustarmic
namespace Interp

/-! ## Words -/

theorem getLsbD_w (v : U128) (i k : Nat) :
    (w v i).getLsbD k = (decide (k < 32) && v.getLsbD (32 * i + k)) := by
  rw [w, BitVec.getLsbD_setWidth, BitVec.getLsbD_ushiftRight]

theorem w_eq_lane (v : U128) (i : Nat) : w v i = Lanes.lane 32 v i := by
  refine BitVec.eq_of_getLsbD_eq fun j hj => ?_
  rw [getLsbD_w, Lanes.getLsbD_lane]

/-- A register is determined by its words. -/
theorem ext_w {v v' : U128} (h : ∀ i < 4, w v i = w v' i) : v = v' := by
  refine Lanes.ext_lane (w := 32) (by decide) fun k hk => ?_
  have hk4 : k < 4 := by omega
  rw [← w_eq_lane, ← w_eq_lane]
  exact h k hk4

theorem w_setW (v : U128) {i j : Nat} (hi : i < 4) (hj : j < 4) (x : U32) :
    w (setW v i x) j = if i = j then x else w v j := by
  have hmask : ∀ k < 32, ∀ j < 4, ∀ i < 4,
      (0xFFFFFFFF#128 <<< (32 * i)).getLsbD (32 * j + k) = decide (i = j) := by decide
  refine BitVec.eq_of_getLsbD_eq fun k hk => ?_
  have hlt : 32 * j + k < 128 := by omega
  rw [getLsbD_w, setW, BitVec.getLsbD_or, BitVec.getLsbD_and, BitVec.getLsbD_not,
    hmask k hk j hj i hi, BitVec.getLsbD_shiftLeft, BitVec.getLsbD_setWidth, decide_eq_true hk,
    decide_eq_true hlt]
  rcases Nat.lt_trichotomy i j with h | h | h
  · have hge : x.getLsbD (32 * j + k - 32 * i) = false := BitVec.getLsbD_of_ge _ _ (by omega)
    rw [if_neg h.ne, decide_eq_false h.ne, hge, getLsbD_w, decide_eq_true hk]
    simp
  · have hsub : 32 * j + k - 32 * i = k := by omega
    have hge : ¬32 * j + k < 32 * i := by omega
    have hk128 : k < 128 := by omega
    rw [if_pos h, decide_eq_true h, hsub, decide_eq_false hge, decide_eq_true hk128]
    simp
  · have hless : 32 * j + k < 32 * i := by omega
    rw [if_neg h.ne', decide_eq_false h.ne', decide_eq_true hless, getLsbD_w, decide_eq_true hk]
    simp

theorem w_push_zero (v : U128) (x : U32) : w (v <<< 32 ||| x.setWidth 128) 0 = x := by
  refine BitVec.eq_of_getLsbD_eq fun k hk => ?_
  have hlt : k < 128 := by omega
  rw [getLsbD_w, Nat.mul_zero, Nat.zero_add, BitVec.getLsbD_or, BitVec.getLsbD_shiftLeft,
    BitVec.getLsbD_setWidth, decide_eq_true hk, decide_eq_true hlt]
  simp

theorem w_push_succ (v : U128) (x : U32) {j : Nat} (hj : j < 3) :
    w (v <<< 32 ||| x.setWidth 128) (j + 1) = w v j := by
  refine BitVec.eq_of_getLsbD_eq fun k hk => ?_
  have hlt : 32 * (j + 1) + k < 128 := by omega
  have hge : ¬32 * (j + 1) + k < 32 := by omega
  have hx : x.getLsbD (32 * (j + 1) + k) = false := BitVec.getLsbD_of_ge _ _ (by omega)
  have hsub : 32 * (j + 1) + k - 32 = 32 * j + k := by omega
  rw [getLsbD_w, getLsbD_w, BitVec.getLsbD_or, BitVec.getLsbD_shiftLeft, BitVec.getLsbD_setWidth, hx,
    hsub, decide_eq_true hk, decide_eq_true hlt, decide_eq_false hge]
  simp

/-- The words of one register behind the words of another, without the lowest. -/
theorem w_shifted (d n : U128) {i : Nat} (hi : i < 4) :
    w (((n &&& 0xFFFFFFFF#128) <<< 96) ||| (d >>> 32)) i = if i = 3 then w n 0 else w d (i + 1) := by
  have hmask : ∀ k < 32, (0xFFFFFFFF#128).getLsbD k = true := by decide
  refine BitVec.eq_of_getLsbD_eq fun k hk => ?_
  have hlt : 32 * i + k < 128 := by omega
  rw [getLsbD_w, BitVec.getLsbD_or, BitVec.getLsbD_shiftLeft, BitVec.getLsbD_and,
    BitVec.getLsbD_ushiftRight, decide_eq_true hk, decide_eq_true hlt]
  split
  case isTrue h =>
    have hge : ¬32 * i + k < 96 := by omega
    have hsub : 32 * i + k - 96 = k := by omega
    have hd : d.getLsbD (32 + (32 * i + k)) = false := BitVec.getLsbD_of_ge _ _ (by omega)
    rw [hsub, hmask k hk, hd, getLsbD_w, decide_eq_true hk, decide_eq_false hge]
    simp
  case isFalse h =>
    have hless : 32 * i + k < 96 := by omega
    have hadd : 32 + (32 * i + k) = 32 * (i + 1) + k := by omega
    rw [decide_eq_true hless, hadd, getLsbD_w, decide_eq_true hk]
    simp

/-- The upper words of a register. -/
theorem w_high (v : U128) (i : Nat) : w (v >>> 64) i = w v (i + 2) := by
  refine BitVec.eq_of_getLsbD_eq fun k _ => ?_
  rw [getLsbD_w, getLsbD_w, BitVec.getLsbD_ushiftRight]
  congr 2
  omega

/-- The lower words of a register. -/
theorem w_low (v : U128) {i : Nat} (hi : i < 2) : w (v &&& 0xFFFFFFFFFFFFFFFF#128) i = w v i := by
  have hmask : ∀ k < 64, (0xFFFFFFFFFFFFFFFF#128).getLsbD k = true := by decide
  refine BitVec.eq_of_getLsbD_eq fun k hk => ?_
  rw [getLsbD_w, getLsbD_w, BitVec.getLsbD_and, hmask _ (by omega), Bool.and_true]

/-! ## The functions of a round -/

theorem choose_eq (x y z : U32) : (x &&& y) ^^^ (~~~x &&& z) = Interp.choose x y z := by
  refine BitVec.eq_of_getLsbD_eq fun i hi => ?_
  simp only [Interp.choose, BitVec.getLsbD_xor, BitVec.getLsbD_and, BitVec.getLsbD_not, hi,
    decide_true, Bool.true_and]
  cases x.getLsbD i <;> cases y.getLsbD i <;> cases z.getLsbD i <;> rfl

theorem majority_eq (x y z : U32) :
    (x &&& y) ^^^ (x &&& z) ^^^ (y &&& z) = Interp.majority x y z := by
  refine BitVec.eq_of_getLsbD_eq fun i hi => ?_
  simp only [Interp.majority, BitVec.getLsbD_xor, BitVec.getLsbD_and, BitVec.getLsbD_or]
  cases x.getLsbD i <;> cases y.getLsbD i <;> cases z.getLsbD i <;> rfl

end Interp
end Rustarmic
