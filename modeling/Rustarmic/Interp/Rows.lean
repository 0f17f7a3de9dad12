import Rustarmic.Interp.ThreeSame

/-!
# Elements as lanes

An element that the helpers get is a lane of the vector, and elements that they set one after the
other make up a row of lanes.

* `get_eq`, `set_row` — one element.
* `setElements_eq`, `orElements_eq` — a loop over the elements that leaves FPSR alone.
* `lt_activeLanes`, `lane_row` — which lanes an instruction computes.

`interp/simd.rs` works on a 128-bit integer with `get` and `set`, by shifts and masks, in loops over
an index.  Everything that is proved about vectors here is said lane by lane (`Lib.Lanes`).  This
file goes from one to the other, once for the loop that sets elements of a result and once for the
one that ors them in; both give `ofLanes` of a function of the index, with zeros above the lanes
that were reached.

The bits above an element do not matter on the way in: `set` masks what it is given, and
`set_row_setWidth` says so.  How many lanes there are depends on the form: one for a scalar, those
of 64 bits or of 128 for a vector.
-/

set_option autoImplicit false

namespace Rustarmic

open Interp Lanes

/-- The lanes that an instruction computes. -/
def activeLanes (w : Nat) (q scalar : Bool) : Nat := if scalar then 1 else (if q then 128 else 64) / w

variable {w k : Nat}

theorem lane_eq_setWidth (v : U128) (k w : Nat) : (v >>> (k * w)).setWidth w = lane w v k := by
  refine BitVec.eq_of_getLsbD_eq fun i hi => ?_
  rw [getLsbD_lane, BitVec.getLsbD_setWidth, BitVec.getLsbD_ushiftRight, Nat.mul_comm w k]

theorem get_eq (h : w ≤ 64) (v : U128) (k : Nat) : get v k w = (lane w v k).setWidth 64 := by
  rw [Interp.get, emask, ← lane_eq_setWidth]
  rcases Nat.lt_or_eq_of_le h with hlt | rfl
  · rw [mask, if_neg (by omega), and_lowMask hlt, BitVec.setWidth_setWidth_of_le _ h]
  · rw [mask, if_pos le_rfl, BitVec.and_allOnes, BitVec.setWidth_eq]

theorem emask_setWidth (h : w ≤ 64) (x : BitVec w) : x.setWidth 64 &&& emask w = x.setWidth 64 := by
  rw [emask]
  rcases Nat.lt_or_eq_of_le h with hlt | rfl
  · rw [mask, if_neg (by omega), and_lowMask hlt, BitVec.setWidth_setWidth_of_le _ h,
      BitVec.setWidth_eq]
  · rw [mask, if_pos le_rfl, BitVec.and_allOnes]

theorem setWidth_double (h : w ≤ 64) (x : BitVec w) :
    (x.setWidth 64).setWidth 128 = x.setWidth 128 := by
  have hpow : 2 ^ w ≤ 2 ^ 64 := Nat.pow_le_pow_right (by decide) h
  have hlt := x.isLt
  refine BitVec.eq_of_toNat_eq ?_
  rw [BitVec.toNat_setWidth, BitVec.toNat_setWidth, BitVec.toNat_setWidth,
    Nat.mod_eq_of_lt (by omega : x.toNat < 2 ^ 64)]

/-- An element set above the rest of a row. -/
theorem set_row (hw : 0 < w) (h : w ≤ 64) (g : Nat → BitVec w) (k : Nat) :
    Interp.set (ofLanes 128 w (upTo k g)) k w ((g k).setWidth 64) =
      ofLanes 128 w (upTo (k + 1) g) := by
  -- Nothing is set yet where the element goes.
  have hclear : ofLanes 128 w (upTo k g) &&& ~~~((emask w).setWidth 128 <<< (k * w)) =
      ofLanes 128 w (upTo k g) := by
    refine BitVec.eq_of_getLsbD_eq fun i hi => ?_
    rw [BitVec.getLsbD_and, BitVec.getLsbD_not, BitVec.getLsbD_shiftLeft, getLsbD_ofLanes, upTo]
    split_ifs with hlt
    · have hi' : i < k * w := (Nat.div_lt_iff_lt_mul hw).mp hlt
      simp [hi, hi']
    · simp
  rw [Interp.set, hclear, emask_setWidth h, setWidth_double h, ofLanes_upTo_succ g hw]

theorem foldlM_range_succ {α : Type} (g : α → Nat → Option α) (a : α) (k : Nat) :
    (List.range (k + 1)).foldlM g a = ((List.range k).foldlM g a).bind (g · k) := by
  rw [List.range_succ, List.foldlM_append]
  simp

/-- The same for an element of which the upper bits do not matter. -/
theorem set_row_setWidth (hw : 0 < w) (h : w ≤ 64) (v : Nat → U64) (k : Nat) :
    Interp.set (ofLanes 128 w (upTo k fun i => (v i).setWidth w)) k w (v k) =
      ofLanes 128 w (upTo (k + 1) fun i => (v i).setWidth w) := by
  rw [← set_row hw h, Interp.set, Interp.set, emask_setWidth h]
  have hmask : v k &&& emask w = ((v k).setWidth w).setWidth 64 := by
    rw [emask]
    rcases Nat.lt_or_eq_of_le h with hlt | rfl
    · rw [mask, if_neg (by omega), and_lowMask hlt]
    · rw [mask, if_pos le_rfl, BitVec.and_allOnes, BitVec.setWidth_eq, BitVec.setWidth_eq]
  rw [hmask]

theorem setElements_eq (hw : 0 < w) (h : w ≤ 64) {f : Nat → St → Option (U64 × St)}
    {v : Nat → U64} (hf : ∀ i st, f i st = some (v i, st)) (active : Nat) (st : St) :
    setElements w active f st =
      some (ofLanes 128 w (upTo active fun i => (v i).setWidth w), st) := by
  induction active with
  | zero =>
    rw [ofLanes_upTo_zero]
    rfl
  | succ k ih =>
    rw [setElements] at ih ⊢
    rw [foldlM_range_succ, ih, Option.bind_some, hf, Option.map_some, set_row_setWidth hw h]

theorem orElements_eq (hw : 0 < w) {f : Nat → St → Option (U64 × St)} {v : Nat → BitVec w}
    (hf : ∀ i st, f i st = some ((v i).setWidth 64, st)) (active : Nat) (st : St) :
    orElements w active f st = some (ofLanes 64 w (upTo active v), st) := by
  induction active with
  | zero =>
    rw [ofLanes_upTo_zero]
    rfl
  | succ k ih =>
    rw [orElements] at ih ⊢
    rw [foldlM_range_succ, ih, Option.bind_some, hf, Option.map_some, ofLanes_upTo_succ v hw]

/-! ## Active lanes -/

section active

variable {q : Bool} (hpos : 0 < w) (hdvd : w ∣ 64)
include hpos hdvd

/-- Active lanes fill the part of the vector that is in use. -/
theorem lt_activeLanes (i : Nat) :
    i / w < activeLanes w q false ↔ i < if q then 128 else 64 := by
  have hdvd' : w ∣ if q then 128 else 64 := by
    cases q with
    | true => exact hdvd.trans (by decide)
    | false => exact hdvd
  obtain ⟨c, hc⟩ := hdvd'
  rw [activeLanes, if_neg Bool.false_ne_true, hc, Nat.mul_div_cancel_left c hpos,
    Nat.div_lt_iff_lt_mul hpos, Nat.mul_comm]

theorem activeLanes_le (hk : k < activeLanes w q false) : w * k + w ≤ 128 := by
  have hlast : (w * k + (w - 1)) / w = k := by
    rw [Nat.mul_add_div hpos, Nat.div_eq_of_lt (by omega), Nat.add_zero]
  rw [← hlast] at hk
  have hlt := (lt_activeLanes hpos hdvd _).mp hk
  split at hlt <;> omega

theorem lane_row {g : Nat → BitVec w} (hk : k < activeLanes w q false) :
    lane w (ofLanes 128 w (upTo (activeLanes w q false) g)) k = g k := by
  rw [lane_ofLanes _ (activeLanes_le hpos hdvd hk), upTo, if_pos hk]

end active

end Rustarmic
