import Mathlib.Data.BitVec

/-!
# Memory with wrapping addresses

A memory is a function from machine addresses to bytes, and an access is a number of consecutive
bytes from an address on, which may run over the end of the address space.

* `read` — the little-endian value of some bytes, zero-extended.
* `write` — store the low bytes of a value.
* `Apart` — two accesses without a common byte.

A read gives back what was last written there, cut to the width of the access, and a write changes
no value it is apart from.
-/

set_option autoImplicit false

namespace ModularMemory

variable {w v : Nat}

/-- Bytes by address. -/
abbrev Mem (w : Nat) := BitVec w → BitVec 8

/-- The value of the `n` bytes from `a` on. -/
def read (v : Nat) (m : Mem w) (a : BitVec w) : Nat → BitVec v
  | 0 => 0
  | n + 1 => (m a).setWidth v ||| read v m (a + 1) n <<< 8

/-- Store the low `n` bytes of `x` from `a` on. -/
def write (m : Mem w) (a : BitVec w) (n : Nat) (x : BitVec v) : Mem w :=
  fun b => if (b - a).toNat < n then x.extractLsb' (8 * (b - a).toNat) 8 else m b

/-- The low `n` bytes of a value. -/
def low (n : Nat) (x : BitVec v) : BitVec v := (x.setWidth (8 * n)).setWidth v

/-- No byte is in both accesses. -/
def Apart (a : BitVec w) (n : Nat) (b : BitVec w) (k : Nat) : Prop :=
  ∀ i < n, k ≤ (a + BitVec.ofNat w i - b).toNat

variable {m : Mem w} {a b : BitVec w} {n k : Nat} {x : BitVec v}

theorem getLsbD_low (i : Nat) :
    (low n x).getLsbD i = (decide (i < v) && decide (i < 8 * n) && x.getLsbD i) := by
  rw [low, BitVec.getLsbD_setWidth, BitVec.getLsbD_setWidth, Bool.and_assoc]

theorem getLsbD_read (m : Mem w) (a : BitVec w) (n i : Nat) :
    (read v m a n).getLsbD i = (decide (i < v) && decide (i < 8 * n) &&
      (m (a + BitVec.ofNat w (i / 8))).getLsbD (i % 8)) := by
  induction n generalizing a i with
  | zero => simp [read]
  | succ n ih =>
    rw [read, BitVec.getLsbD_or, BitVec.getLsbD_setWidth, BitVec.getLsbD_shiftLeft, ih]
    by_cases hi : i < 8
    · have hd : i / 8 = 0 := Nat.div_eq_of_lt hi
      have hn : i < 8 * (n + 1) := by omega
      simp [hi, hd, hn, Nat.mod_eq_of_lt hi]
    · have hd : i / 8 = (i - 8) / 8 + 1 := by omega
      have hm : i % 8 = (i - 8) % 8 := by omega
      have ha : a + 1 + BitVec.ofNat w ((i - 8) / 8) = a + BitVec.ofNat w (i / 8) := by
        rw [hd, BitVec.ofNat_add, BitVec.add_assoc, BitVec.add_comm 1]
        rfl
      have hlt : decide (i - 8 < 8 * n) = decide (i < 8 * (n + 1)) := by
        rw [decide_eq_decide]
        omega
      rw [ha, ← hm, hlt, BitVec.getLsbD_of_ge _ _ (Nat.le_of_not_lt hi)]
      by_cases hv : i < v
      · have hv' : i - 8 < v := by omega
        simp [hi, hv, hv']
      · simp [hv]

theorem read_congr {m' : Mem w} {a' : BitVec w}
    (h : ∀ i < n, m (a + BitVec.ofNat w i) = m' (a' + BitVec.ofNat w i)) :
    read v m a n = read v m' a' n := by
  refine BitVec.eq_of_getLsbD_eq fun i hi => ?_
  rw [getLsbD_read, getLsbD_read]
  by_cases hn : i < 8 * n
  · rw [h (i / 8) (by omega)]
  · simp [hn]

/-- A value that was read fits the access. -/
theorem low_read : low n (read v m a n) = read v m a n := by
  refine BitVec.eq_of_getLsbD_eq fun i hi => ?_
  rw [getLsbD_low, getLsbD_read]
  cases decide (i < v) <;> cases decide (i < 8 * n) <;> rfl

/-- The value type does not matter where it is wide enough. -/
theorem setWidth_read {v' : Nat} (h : min v' (8 * n) ≤ v) :
    (read v m a n).setWidth v' = read v' m a n := by
  refine BitVec.eq_of_getLsbD_eq fun i hi => ?_
  rw [BitVec.getLsbD_setWidth, getLsbD_read, getLsbD_read]
  by_cases hn : i < 8 * n
  · have hv : i < v := by omega
    simp [hn, hv]
  · simp [hn]

theorem low_low : low n (low n x) = low n x := by
  refine BitVec.eq_of_getLsbD_eq fun i hi => ?_
  rw [getLsbD_low, getLsbD_low]
  cases decide (i < v) <;> cases decide (i < 8 * n) <;> rfl

/-- The low bytes survive any type they fit. -/
theorem setWidth_low {v' : Nat} (h : 8 * n ≤ v') : ((low n x).setWidth v').setWidth v = low n x := by
  refine BitVec.eq_of_getLsbD_eq fun i hi => ?_
  rw [BitVec.getLsbD_setWidth, BitVec.getLsbD_setWidth, getLsbD_low]
  by_cases hn : i < 8 * n
  · have hv : i < v' := by omega
    simp [hn, hv, hi]
  · simp [hn]

theorem not_apart_self (hn : 0 < n) : ¬ Apart a n a n := by
  intro h
  have := h 0 hn
  simp at this
  omega

/-- **Reading back a write.** -/
theorem read_write (hn : n ≤ 2 ^ w) : read v (write m a n x) a n = low n x := by
  refine BitVec.eq_of_getLsbD_eq fun i hi => ?_
  rw [getLsbD_read, getLsbD_low]
  by_cases h : i < 8 * n
  · have hoff : (a + BitVec.ofNat w (i / 8) - a).toNat = i / 8 := by
      rw [BitVec.add_comm, BitVec.add_sub_cancel, BitVec.toNat_ofNat]
      exact Nat.mod_eq_of_lt (by omega)
    have hlt : i / 8 < n := by omega
    have hbit : 8 * (i / 8) + i % 8 = i := Nat.div_add_mod i 8
    rw [write, hoff, if_pos hlt, BitVec.getLsbD_extractLsb', hbit]
    simp [Nat.mod_lt]
  · simp [h]

/-- A write uses the low bytes only. -/
theorem write_congr {v' : Nat} {y : BitVec v'} (h : x.setWidth (8 * n) = y.setWidth (8 * n)) :
    write m a n x = write m a n y := by
  funext b
  rw [write, write]
  by_cases hb : (b - a).toNat < n
  · rw [if_pos hb, if_pos hb]
    refine BitVec.eq_of_getLsbD_eq fun i hi => ?_
    have hlt : 8 * (b - a).toNat + i < 8 * n := by omega
    have hbit := congrArg (fun z => z.getLsbD (8 * (b - a).toNat + i)) h
    simp only [BitVec.getLsbD_setWidth, decide_eq_true hlt, Bool.true_and] at hbit
    rw [BitVec.getLsbD_extractLsb', BitVec.getLsbD_extractLsb', hbit]
  · rw [if_neg hb, if_neg hb]

theorem write_low : write m a n (low n x) = write m a n x := by
  refine write_congr (BitVec.eq_of_getLsbD_eq fun i hi => ?_)
  rw [BitVec.getLsbD_setWidth, BitVec.getLsbD_setWidth, getLsbD_low]
  by_cases hv : i < v
  · simp [hi, hv]
  · simp [hv, BitVec.getLsbD_of_ge x i (Nat.le_of_not_lt hv)]

/-- **A write changes nothing it is apart from.** -/
theorem read_write_of_apart (h : Apart b k a n) : read v (write m a n x) b k = read v m b k := by
  refine read_congr fun i hi => ?_
  rw [write, if_neg (Nat.not_lt.mpr (h i hi))]

/-- A read in two parts. -/
theorem read_add (m : Mem w) (a : BitVec w) (i j : Nat) :
    read v m a (i + j) = read v m a i ||| read v m (a + BitVec.ofNat w i) j <<< (8 * i) := by
  refine BitVec.eq_of_getLsbD_eq fun p hp => ?_
  rw [BitVec.getLsbD_or, BitVec.getLsbD_shiftLeft, getLsbD_read, getLsbD_read, getLsbD_read]
  by_cases h : p < 8 * i
  · have h' : p < 8 * (i + j) := by omega
    simp [h, h', hp]
  · have hlt : p < 8 * (i + j) ↔ p - 8 * i < 8 * j := by omega
    have hv : p - 8 * i < v := by omega
    have hd : a + BitVec.ofNat w i + BitVec.ofNat w ((p - 8 * i) / 8) =
        a + BitVec.ofNat w (p / 8) := by
      rw [BitVec.add_assoc, ← BitVec.ofNat_add]
      congr 2
      omega
    have hm : (p - 8 * i) % 8 = p % 8 := by omega
    rw [hd, hm]
    simp only [h, hp, hv, hlt, decide_true, decide_false, Bool.true_and, Bool.false_and,
      Bool.and_false, Bool.not_false, Bool.false_or]

/-- A write in two parts. -/
theorem write_add (hn : n + k ≤ 2 ^ w) :
    write (write m a n x) (a + BitVec.ofNat w n) k (x >>> (8 * n)) = write m a (n + k) x := by
  funext b
  have hsub : (b - (a + BitVec.ofNat w n)).toNat =
      if (b - a).toNat < n then (b - a).toNat + 2 ^ w - n else (b - a).toNat - n := by
    have hlt := (b - a).isLt
    rw [sub_add_eq_sub_sub, BitVec.toNat_sub, BitVec.toNat_ofNat]
    split
    · rcases Nat.lt_or_ge n (2 ^ w) with hlt | hge
      · rw [Nat.mod_eq_of_lt hlt, Nat.mod_eq_of_lt (by omega)]
        omega
      · have hn : n = 2 ^ w := by omega
        subst hn
        simp
    · rw [Nat.mod_eq_of_lt (a := n) (by omega)]
      rw [show 2 ^ w - n + (b - a).toNat = 2 ^ w + ((b - a).toNat - n) by omega, Nat.add_mod_left,
        Nat.mod_eq_of_lt (by omega)]
  rw [write, write, write, hsub]
  by_cases h : (b - a).toNat < n
  · have hlt : (b - a).toNat < n + k := by omega
    have := (b - a).isLt
    rw [if_pos h, if_pos hlt, if_pos h, if_neg (by omega)]
  · rw [if_neg h, if_neg h]
    by_cases h' : (b - a).toNat < n + k
    · rw [if_pos h', if_pos (by omega)]
      refine BitVec.eq_of_getLsbD_eq fun p hp => ?_
      rw [BitVec.getLsbD_extractLsb', BitVec.getLsbD_extractLsb', BitVec.getLsbD_ushiftRight]
      congr 2
      omega
    · rw [if_neg h', if_neg (by omega)]

end ModularMemory
