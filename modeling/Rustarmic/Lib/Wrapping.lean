import Mathlib.Data.BitVec
import Mathlib.Data.List.FinRange
import Mathlib.Data.List.Perm.Subperm

/-!
# Spans of wrapping addresses

Addresses of `w` bits wrap around.  A *span* is the set of `n` addresses from a start on, modulo
`2 ^ w`; a *range* is a half-open interval of the unsigned order, which never wraps.

* `InSpan`, `InRange` — membership.
* `inSpan_mul_iff` — a span is the union of its equal pieces.
* `meet_iff` — when two ranges have an address in common.
* `inSpan_iff_of_le`, `inSpan_of_le_start` — a span that does not pass the top is a range, and one
  that does contains everything from its start up.
-/

set_option autoImplicit false

namespace Wrapping

variable {w : ℕ} {start a b : BitVec w} {n : ℕ}

/-- `b` is one of the `n` addresses from `start` on. -/
def InSpan (start : BitVec w) (n : ℕ) (b : BitVec w) : Prop := (b - start).toNat < n

instance : Decidable (InSpan start n b) := inferInstanceAs (Decidable (_ < _))

/-- `b` is in the half-open interval `r`. -/
def InRange (r : BitVec w × BitVec w) (b : BitVec w) : Prop := r.1 ≤ b ∧ b < r.2

theorem InRange.lt {r : BitVec w × BitVec w} (h : InRange r b) : r.1 < r.2 := by
  simp only [InRange, BitVec.le_def, BitVec.lt_def] at *
  omega

/-- A span that ends at the top or below it. -/
theorem inSpan_iff_of_le (h : start.toNat + n ≤ 2 ^ w) :
    InSpan start n b ↔ start ≤ b ∧ b.toNat < start.toNat + n := by
  rw [InSpan]
  by_cases hb : start ≤ b
  · rw [BitVec.toNat_sub_of_le hb]
    rw [BitVec.le_def] at hb
    refine ⟨fun hlt => ⟨hb, by omega⟩, fun hlt => by omega⟩
  · have hlt : b < start := BitVec.not_le.mp hb
    rw [BitVec.toNat_sub_of_lt hlt]
    refine ⟨fun h' => by omega, fun h' => absurd h'.1 hb⟩

/-- A span that reaches the top contains everything from its start up. -/
theorem inSpan_of_le_start (h : 2 ^ w ≤ start.toNat + n) (hb : start ≤ b) : InSpan start n b := by
  rw [InSpan, BitVec.toNat_sub_of_le hb]
  have := b.isLt
  omega

theorem inSpan_one : InSpan start 1 b ↔ b = start := by
  rw [InSpan, Nat.lt_one_iff]
  constructor
  · intro h
    have hzero : b - start = 0#w := BitVec.eq_of_toNat_eq (by rw [h]; rfl)
    rw [← BitVec.sub_add_cancel b start, hzero, BitVec.zero_add]
  · rintro rfl
    rw [BitVec.sub_self]
    rfl

theorem inSpan_self (h : 0 < n) : InSpan start n start := by
  rw [InSpan, BitVec.sub_self]
  exact h

/-- Moving the start of a span up by `k`. -/
theorem toNat_sub_add_ofNat {k : ℕ} (hk : k < 2 ^ w) :
    (b - (start + BitVec.ofNat w k)).toNat =
      if k ≤ (b - start).toNat then (b - start).toNat - k else 2 ^ w + (b - start).toNat - k := by
  have hd := (b - start).isLt
  have hsub : b - (start + BitVec.ofNat w k) = (b - start) - BitVec.ofNat w k := by
    rw [BitVec.sub_eq_add_neg, BitVec.sub_eq_add_neg, BitVec.sub_eq_add_neg, BitVec.neg_add,
      BitVec.sub_eq_add_neg, BitVec.add_assoc]
  have hlit : (BitVec.ofNat w k).toNat = k := by
    rw [BitVec.toNat_ofNat, Nat.mod_eq_of_lt hk]
  rw [hsub]
  split
  · rw [BitVec.toNat_sub_of_le (by rw [BitVec.le_def, hlit]; assumption), hlit]
  · rw [BitVec.toNat_sub_of_lt (by rw [BitVec.lt_def, hlit]; omega), hlit]
    omega

/-- **A span is the union of its pieces** of `m` addresses each, when it does not lap itself. -/
theorem inSpan_mul_iff {m : ℕ} (hm : 0 < m) (h : m * n ≤ 2 ^ w) :
    InSpan start (m * n) b ↔ ∃ k < n, InSpan (start + BitVec.ofNat w (m * k)) m b := by
  have hd := (b - start).isLt
  constructor
  · intro hspan
    rw [InSpan] at hspan
    have hmod := Nat.mod_lt (b - start).toNat hm
    have hdiv := Nat.div_add_mod (b - start).toNat m
    refine ⟨(b - start).toNat / m, Nat.div_lt_of_lt_mul hspan, ?_⟩
    rw [InSpan, toNat_sub_add_ofNat (by omega), if_pos (by omega)]
    omega
  · rintro ⟨k, hk, hspan⟩
    have hmul : m * k + m ≤ m * n := by
      rw [← Nat.mul_succ]
      exact Nat.mul_le_mul_left m hk
    rw [InSpan, toNat_sub_add_ofNat (by omega)] at hspan
    rw [InSpan]
    split at hspan <;> omega

/-- Two ranges have an address in common when each starts before the other ends. -/
theorem meet_iff {r q : BitVec w × BitVec w} (hr : r.1 < r.2) (hq : q.1 < q.2) :
    r.1 < q.2 ∧ q.1 < r.2 ↔ ∃ b, InRange r b ∧ InRange q b := by
  simp only [InRange, BitVec.le_def, BitVec.lt_def] at *
  constructor
  · rintro ⟨h1, h2⟩
    by_cases hle : r.1.toNat ≤ q.1.toNat
    · exact ⟨q.1, ⟨hle, h2⟩, Nat.le_refl _, hq⟩
    · exact ⟨r.1, ⟨Nat.le_refl _, hr⟩, by omega, h1⟩
  · rintro ⟨b, hb⟩
    omega

/-- A list shorter than the address space misses an address. -/
theorem exists_notMem (l : List (BitVec w)) (h : l.length < 2 ^ w) : ∃ x, x ∉ l := by
  by_contra hall
  have hsub : (List.finRange (2 ^ w)).map BitVec.ofFin ⊆ l := fun x _ =>
    Classical.not_not.mp fun hx => hall ⟨x, hx⟩
  have hnodup : ((List.finRange (2 ^ w)).map (BitVec.ofFin (w := w))).Nodup :=
    (List.nodup_finRange _).map fun _ _ => BitVec.ofFin.inj
  have hlen := (hnodup.subperm hsub).length_le
  rw [List.length_map, List.length_finRange] at hlen
  omega

end Wrapping
