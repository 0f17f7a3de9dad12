import Mathlib.Data.List.Basic
import Mathlib.Tactic.Common

/-!
# Byte-addressed memory with little-endian 32-bit words

A memory is a function from addresses to bytes.  Words are written one by one and read back; a
write changes what overlaps it and nothing else.

* `write32`, `read32` — one little-endian word.
* `writeBytes` — a run of bytes.
* `writes` — a list of word writes, in order.

`read32_writes` is what a batch of writes leaves at an address that every write either hits exactly
or misses altogether: one of the values written there, or the old word when there is none.
-/

set_option autoImplicit false

namespace ByteMemory

/-- Bytes by address. -/
abbrev Mem := Nat → BitVec 8

def write32 (m : Mem) (a : Nat) (v : BitVec 32) : Mem :=
  fun i => if a ≤ i ∧ i < a + 4 then v.extractLsb' (8 * (i - a)) 8 else m i

def read32 (m : Mem) (a : Nat) : BitVec 32 :=
  m (a + 3) ++ m (a + 2) ++ m (a + 1) ++ m a

def writeBytes (m : Mem) (a : Nat) (bytes : List (BitVec 8)) : Mem :=
  fun i => if a ≤ i ∧ i < a + bytes.length then bytes.getD (i - a) 0 else m i

/-- The word writes of a list, first to last. -/
def writes (m : Mem) (l : List (Nat × BitVec 32)) : Mem :=
  l.foldl (fun m p => write32 m p.1 p.2) m

/-! ## Bytes -/

theorem write32_of_outside {m : Mem} {a i : Nat} {v : BitVec 32} (h : i < a ∨ a + 4 ≤ i) :
    write32 m a v i = m i := by
  rw [write32, if_neg (by omega)]

theorem writeBytes_of_outside {m : Mem} {a i : Nat} {bytes : List (BitVec 8)}
    (h : i < a ∨ a + bytes.length ≤ i) : writeBytes m a bytes i = m i := by
  rw [writeBytes, if_neg (by omega)]

theorem writeBytes_of_inside {m : Mem} {a k : Nat} {bytes : List (BitVec 8)}
    (h : k < bytes.length) : writeBytes m a bytes (a + k) = bytes.getD k 0 := by
  rw [writeBytes, if_pos (by omega), Nat.add_sub_cancel_left]

theorem writes_of_outside {m : Mem} {l : List (Nat × BitVec 32)} {i : Nat}
    (h : ∀ p ∈ l, i < p.1 ∨ p.1 + 4 ≤ i) : writes m l i = m i := by
  induction l generalizing m with
  | nil => rfl
  | cons p l ih =>
    rw [writes, List.foldl_cons]
    have h1 := ih (m := write32 m p.1 p.2) fun q hq => h q (List.mem_cons_of_mem _ hq)
    rw [writes] at h1
    rw [h1, write32_of_outside (h p List.mem_cons_self)]

/-! ## Words -/

theorem read32_congr {m m' : Mem} {a : Nat} (h : ∀ i, a ≤ i → i < a + 4 → m i = m' i) :
    read32 m a = read32 m' a := by
  rw [read32, read32, h a (by omega) (by omega), h (a + 1) (by omega) (by omega),
    h (a + 2) (by omega) (by omega), h (a + 3) (by omega) (by omega)]

@[simp] theorem read32_write32_same (m : Mem) (a : Nat) (v : BitVec 32) :
    read32 (write32 m a v) a = v := by
  have h (k : Nat) (hk : k < 4) : write32 m a v (a + k) = v.extractLsb' (8 * k) 8 := by
    rw [write32, if_pos (by omega), Nat.add_sub_cancel_left]
  have h0 := h 0 (by omega)
  rw [Nat.add_zero] at h0
  rw [read32, h 3 (by omega), h 2 (by omega), h 1 (by omega), h0]
  apply BitVec.eq_of_getLsbD_eq
  intro i hi
  simp only [BitVec.getLsbD_append, BitVec.getLsbD_extractLsb']
  by_cases h1 : i < 8
  · simp [h1]
  · by_cases h2 : i - 8 < 8
    · rw [if_neg h1, if_pos h2, decide_eq_true h2, Bool.true_and]
      congr 1
      omega
    · by_cases h3 : i - 8 - 8 < 8
      · rw [if_neg h1, if_neg h2, if_pos h3, decide_eq_true h3, Bool.true_and]
        congr 1
        omega
      · have h4 : i - 8 - 8 - 8 < 8 := by omega
        rw [if_neg h1, if_neg h2, if_neg h3, decide_eq_true h4, Bool.true_and]
        congr 1
        omega

theorem read32_write32_of_disjoint {m : Mem} {a b : Nat} {v : BitVec 32}
    (h : a + 4 ≤ b ∨ b + 4 ≤ a) : read32 (write32 m a v) b = read32 m b :=
  read32_congr fun i h1 h2 => write32_of_outside (by omega)

theorem read32_writeBytes_of_disjoint {m : Mem} {a b : Nat} {bytes : List (BitVec 8)}
    (h : a + bytes.length ≤ b ∨ b + 4 ≤ a) : read32 (writeBytes m a bytes) b = read32 m b :=
  read32_congr fun i h1 h2 => writeBytes_of_outside (by omega)

/-- **What a batch of writes leaves.**  Every write hits the word at `a` exactly or misses it; then
the word is one of the values written there, or the old one when none was. -/
theorem read32_writes {m : Mem} {l : List (Nat × BitVec 32)} {a : Nat}
    (hsep : ∀ p ∈ l, p.1 = a ∨ p.1 + 4 ≤ a ∨ a + 4 ≤ p.1) :
    ((∀ p ∈ l, p.1 ≠ a) ∧ read32 (writes m l) a = read32 m a) ∨
      ∃ v, (a, v) ∈ l ∧ read32 (writes m l) a = v := by
  induction l generalizing m with
  | nil => exact .inl ⟨by simp, rfl⟩
  | cons p l ih =>
    have hcons : writes m (p :: l) = writes (write32 m p.1 p.2) l := rfl
    rw [hcons]
    rcases ih (m := write32 m p.1 p.2) fun q hq => hsep q (List.mem_cons_of_mem _ hq) with
      ⟨hnone, heq⟩ | ⟨v, hv, heq⟩
    · by_cases hp : p.1 = a
      · refine .inr ⟨p.2, ?_, ?_⟩
        · rw [← hp]
          exact List.mem_cons_self
        · rw [heq, ← hp, read32_write32_same]
      · refine .inl ⟨?_, ?_⟩
        · intro q hq
          rcases List.mem_cons.mp hq with rfl | hq
          · exact hp
          · exact hnone q hq
        · rw [heq, read32_write32_of_disjoint]
          rcases hsep p List.mem_cons_self with h | h
          · exact absurd h hp
          · exact h
    · exact .inr ⟨v, List.mem_cons_of_mem _ hv, heq⟩

end ByteMemory
