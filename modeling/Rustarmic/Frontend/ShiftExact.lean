import Rustarmic.Frontend.ShiftImm

/-!
# Shifts by an immediate are exact

What the nodes of `Frontend.ShiftImm` compute, lane by lane, is what the helper computes.

* `exactRight_eq_shifts` — rounding by the last discarded bit is exact.
* `ShiftImm.wp_ofForm` — what the code of an accepted form writes.
* `ShiftInsn.shift_agrees` — the emitted code, the helper and exact arithmetic agree.

Three descriptions of a shift meet here.  Exact arithmetic divides by a power of two and rounds, on
integers; the helper does it lane by lane on wide words; the nodes have only lanes of the width
itself, where one half of the last place may not fit on top of the operand.  The middle is
`rightByBits`: shift, and add the last bit that was shifted out.  It is within the width, and
`add_half_div` says that it is the rounded quotient.

`Writes` is what an instruction of a form does to its destination, and each kind of form has a lemma
that its nodes do it.  Narrowing and widening forms have lanes of two widths and go through the
halves of a register; insertion keeps what is under a mask; an accumulating form adds to the old
contents.  A scalar form is one lane of the same thing, made with integer nodes, and the rest of the
register is cleared.
-/

set_option autoImplicit false

namespace Rustarmic

open Emitting Interp Lanes Packed VectorCode

/-! ## Rounding -/

section rounding

variable {w s : Nat}

/-- Half of the last place carries exactly when the last discarded bit is set. -/
theorem add_half_div (x : Int) (hs : 0 < s) :
    (x + 2 ^ (s - 1)) / 2 ^ s = x / 2 ^ s + x / 2 ^ (s - 1) % 2 := by
  have hsplit : (2 : Int) ^ s = 2 ^ (s - 1) * 2 := by rw [← pow_succ, Nat.sub_add_cancel hs]
  have hpos : (0 : Int) < 2 ^ (s - 1) := by positivity
  rw [hsplit, ← Int.ediv_ediv_of_nonneg hpos.le, ← Int.ediv_ediv_of_nonneg hpos.le,
    Int.add_ediv_of_dvd_right (dvd_refl _), Int.ediv_self hpos.ne']
  omega

/-- Bit `i` of a two's complement number. -/
theorem toInt_div_mod_two (x : BitVec w) {i : Nat} (hi : i < w) :
    x.toInt / 2 ^ i % 2 = ((x.toNat / 2 ^ i % 2 : Nat) : Int) := by
  have hsplit : (2 : Int) ^ w = 2 ^ i * (2 * 2 ^ (w - i - 1)) := by
    rw [← pow_succ', ← pow_add]
    congr 1
    omega
  have hpos : (0 : Int) < 2 ^ i := by positivity
  rw [BitVec.toInt_eq_toNat_cond]
  push_cast
  split_ifs
  · rfl
  · rw [hsplit, Int.sub_eq_add_neg, ← Int.mul_neg, Int.add_mul_ediv_left _ _ hpos.ne', ← Int.mul_neg]
    omega

variable (unsigned rounded accumulate : Bool) (x d : BitVec w)

/-- A shift to the right, and the last bit it discards. -/
def rightByBits (w s : Nat) (unsigned rounded : Bool) (x : BitVec w) : BitVec w :=
  (if unsigned then x >>> s else x.sshiftRight s) +
    if rounded then (x >>> (s - 1)) &&& 1#w else 0#w

/-- **Adding the last discarded bit rounds**, also where the sum with half of the last place would
overflow. -/
theorem exactRight_eq_shifts (hpos : 0 < s) (hs : s ≤ w) :
    exactRight w s unsigned rounded accumulate x d =
      (if accumulate then d else 0#w) + rightByBits w s unsigned rounded x := by
  have hbit (y : Nat) (hy : y = x.toNat / 2 ^ (s - 1) % 2) :
      BitVec.ofInt w (y : Int) = (x >>> (s - 1)) &&& 1#w := by
    refine BitVec.eq_of_toNat_eq ?_
    have hone : (1#w).toNat = 1 := BitVec.toNat_one (by omega)
    have hlt : y < 2 ^ w := lt_of_lt_of_le (by omega : y < 2) (Nat.le_self_pow (by omega) 2)
    rw [BitVec.toNat_and, hone, Nat.and_one_is_mod, BitVec.toNat_ushiftRight,
      Nat.shiftRight_eq_div_pow, ← hy, BitVec.ofInt_natCast, BitVec.toNat_ofNat, Nat.mod_eq_of_lt hlt]
  have hshift : BitVec.ofInt w ((if unsigned then (x.toNat : Int) else x.toInt) / 2 ^ s) =
      if unsigned then x >>> s else x.sshiftRight s := by
    cases unsigned with
    | true =>
      rw [if_pos rfl, if_pos rfl]
      refine BitVec.eq_of_toNat_eq ?_
      have hlt : x.toNat / 2 ^ s < 2 ^ w := lt_of_le_of_lt (Nat.div_le_self _ _) x.isLt
      have hcast : (x.toNat : Int) / 2 ^ s = ((x.toNat / 2 ^ s : Nat) : Int) := by push_cast; rfl
      rw [hcast, BitVec.ofInt_natCast, BitVec.toNat_ofNat, BitVec.toNat_ushiftRight,
        Nat.shiftRight_eq_div_pow, Nat.mod_eq_of_lt hlt]
    | false =>
      rw [if_neg Bool.false_ne_true, if_neg Bool.false_ne_true, BitVec.sshiftRight,
        Int.shiftRight_eq_div_pow]
      rfl
  rw [exactRight_eq, rightByBits, roundConst]
  congr 1
  cases rounded with
  | false =>
    rw [if_neg Bool.false_ne_true, if_neg Bool.false_ne_true, add_zero, hshift]
    exact (BitVec.add_zero _).symm
  | true =>
    rw [if_pos rfl, if_pos rfl, add_half_div _ hpos, BitVec.ofInt_add, hshift]
    congr 1
    rw [← hbit _ rfl]
    congr 1
    cases unsigned with
    | true =>
      rw [if_pos rfl]
      push_cast
      rfl
    | false => exact toInt_div_mod_two x (by omega)

end rounding

/-! ## The nodes -/

namespace ShiftImm

open IrEmitter

variable {L : VectorLowering} {em : IrEmitter} {n : Nat} {f : Frame} {raw : U32} {w s size : Nat}
  {q scalar : Bool}

theorem binaryValue_u64 (opW : U32 → U32 → U32) (opX : U64 → U64 → U64) (x y : U64) :
    binaryValue opW opX (.ofU64 .u64 x) (.ofU64 .u64 y) .x = .ofU64 .u64 (opX x y) := by
  rw [binaryValue, Value.lo64_ofU64, Value.lo64_ofU64]

/-- The destination is read first, if at all. -/
theorem wp_accumulator (accumulate : Bool) {get : Emit ValueRef} {v : Value}
    (hget : ∀ R : ValueRef → Nat → Frame → Prop, get.wp L.step n f R ↔ R n (n + 1) (f.define n v)) :
    (accumulator accumulate get).wp L.step n f fun r n' f' =>
      r = (if accumulate then some n else none) ∧ n ≤ n' ∧ Keeps n f f' ∧
        (accumulate → n < n' ∧ f'.value n = v) := by
  rw [accumulator]
  cases accumulate with
  | true =>
    rw [if_pos rfl, Prog.wp_bind, hget, Prog.wp_pure]
    simp [keeps_refl]
  | false =>
    rw [if_neg Bool.false_ne_true, Prog.wp_pure]
    simp [keeps_refl]

theorem computes_addTo (accumulate : Bool) {add : ValueRef → ValueRef → Emit ValueRef}
    (op : Value → Value → Value) {i shifted : ValueRef} (hshifted : shifted < n)
    (hadd : ∀ a b, ∀ R : ValueRef → Nat → Frame → Prop, (add a b).wp L.step n f R ↔
      R n (n + 1) (f.define n (op (f.value a) (f.value b)))) :
    Computes L.step (addTo (if accumulate then some i else none) add shifted) n f fun v =>
      v = if accumulate then op (f.value i) (f.value shifted) else f.value shifted := by
  cases accumulate with
  | true =>
    rw [Computes, if_pos rfl, addTo, hadd]
    simp [keeps_refl]
  | false => exact computes_pure hshifted rfl

section scalars

variable {source shifted : ValueRef} {x y : U64} (hsource : source < n)
  (hx : f.value source = .ofU64 .u64 x)
include hsource hx

theorem computes_rightScalar (signed : Bool) (hs : s ≤ 64) :
    Computes L.step (rightScalar em signed s source) n f fun v =>
      v = .ofU64 .u64 (if signed then x.sshiftRight s else x >>> s) := by
  have hne : source ≠ n := Nat.ne_of_lt hsource
  rw [Computes, rightScalar]
  cases signed with
  | true =>
    have hsat : x.sshiftRight (min s 63) = x.sshiftRight s := by
      rcases Nat.lt_or_eq_of_le hs with hlt | rfl
      · rw [min_eq_left (by omega)]
      · refine BitVec.eq_of_getLsbD_eq fun i hi => ?_
        rw [min_eq_right (by decide), BitVec.getLsbD_sshiftRight, BitVec.getLsbD_sshiftRight,
          if_neg (by omega : ¬ 64 + i < 64), decide_eq_false (by omega : ¬ 64 ≤ i)]
        split_ifs with h
        · obtain rfl : i = 0 := by omega
          rw [BitVec.msb_eq_getLsbD_last]
        · rfl
    rw [if_pos rfl, Prog.wp_bind, L.wp_constU64, L.wp_asr]
    simp [keeps_refl, hne, hx, binaryValue_u64, amount64_ofNat, hsat, Nat.add_assoc]
  | false =>
    simp only [Bool.false_eq_true, if_false]
    split_ifs with h
    · have hzero : x >>> s = 0#64 := BitVec.ushiftRight_eq_zero (by omega)
      rw [L.wp_constU64, hzero]
      simp [keeps_refl]
    · rw [Prog.wp_bind, L.wp_constU64, L.wp_lsr]
      simp [keeps_refl, hne, hx, binaryValue_u64, amount64_ofNat (by omega : s < 64), Nat.add_assoc]

theorem computes_roundScalar (rounded : Bool) (hpos : 0 < s) (hs : s ≤ 64) (hshifted : shifted < n)
    (hy : f.value shifted = .ofU64 .u64 y) :
    Computes L.step (roundScalar em rounded s source shifted) n f fun v =>
      v = .ofU64 .u64 (y + if rounded then (x >>> (s - 1)) &&& 1#64 else 0#64) := by
  have hne : source ≠ n := Nat.ne_of_lt hsource
  have h0 : shifted ≠ n := Nat.ne_of_lt hshifted
  have h1 : shifted ≠ n + 1 := Nat.ne_of_lt (Nat.lt_add_right 1 hshifted)
  have h2 : shifted ≠ n + 2 := Nat.ne_of_lt (Nat.lt_add_right 2 hshifted)
  have h3 : shifted ≠ n + 3 := Nat.ne_of_lt (Nat.lt_add_right 3 hshifted)
  cases rounded with
  | true =>
    rw [Computes, roundScalar, if_pos rfl, Prog.wp_bind, L.wp_constU64, Prog.wp_bind, L.wp_lsr, Prog.wp_bind,
      L.wp_constU64, Prog.wp_bind, L.wp_and, L.wp_add]
    simp [keeps_refl, hne, hx, hy, h0, h1, h2, h3, binaryValue_u64,
      amount64_ofNat (by omega : s - 1 < 64), Nat.add_assoc]
  | false =>
    refine computes_pure hshifted ?_
    rw [hy, if_neg Bool.false_ne_true, BitVec.add_zero]

end scalars

theorem width_mem (hsize : size < 4) : 8 <<< size ∈ [8, 16, 32, 64] := by
  have hall : ∀ size < 4, 8 <<< size ∈ [8, 16, 32, 64] := by decide
  exact hall size hsize

/-- A vector of 128 bits of which the active lanes are given. -/
def activeRow (w : Nat) (q : Bool) (g : Nat → BitVec w) : Value :=
  ⟨.u128, ofLanes 128 w (upTo (activeLanes w q false) g)⟩

theorem lane_activeRow (hpos : 0 < w) (hdvd : w ∣ 64) {g : Nat → BitVec w} {k : Nat}
    (hk : k < activeLanes w q false) : lane w (activeRow w q g).bits k = g k := by
  rw [activeRow]
  dsimp only
  rw [lane_row hpos hdvd hk]

section vectors

variable {source shifted : ValueRef} {x : U128} (hpos : 0 < w) (hdvd : w ∣ 64) (hsize : size < 4)
  (hw : w = 8 <<< size)
include hpos hdvd hsize hw

omit hsize in
/-- A sum of rows. -/
theorem halfForm_add {x y : U128} {g h : Nat → BitVec w}
    (hx : ∀ k < activeLanes w q false, lane w x k = g k)
    (hy : ∀ k < activeLanes w q false, lane w y k = h k) :
    (⟨.u128, halfForm q (zipLanes (8 <<< size) (· + ·) x y)⟩ : Value) =
      activeRow w q fun k => g k + h k := by
  refine congrArg (Value.mk .u128) (halfForm_row hpos hdvd fun k hk => ?_)
  subst hw
  rw [lane_zipLanes _ (activeLanes_le hpos hdvd hk), hx k hk, hy k hk]

theorem halfForm_shift {g : ∀ w, BitVec w → BitVec w} (x : U128) :
    (⟨.u128, halfForm q (shiftLanes g size x)⟩ : Value) =
      activeRow w q fun k => g w (lane w x k) :=
  congrArg (Value.mk .u128) (halfForm_row hpos hdvd fun _ hk => lane_shiftLanes hpos hdvd hsize hw hk)

/-- The low bits of a register in every lane. -/
theorem lane_dup (y : U64) {k : Nat} (hk : k < activeLanes w q false) :
    lane w (halfForm q (ofLanes 128 (8 <<< size) fun _ =>
      (Value.ofU64 .u64 y).bits.setWidth (8 <<< size))) k = y.setWidth w := by
  subst hw
  have hle := (width_cases (width_mem hsize)).2.1
  rw [lane_halfForm hpos hdvd _ hk, lane_ofLanes _ (activeLanes_le hpos hdvd hk), Value.ofU64,
    BitVec.setWidth_setWidth_of_le _ (by omega)]

theorem computes_rightVector (signed : Bool) (hs : s ≤ 64) (hx : f.value source = ⟨.u128, x⟩) :
    Computes L.step (rightVector em signed size s q source) n f fun v =>
      v = activeRow w q fun k =>
        if signed then (lane w x k).sshiftRight s else lane w x k >>> s := by
  rw [Computes, rightVector]
  cases signed with
  | true =>
    rw [if_pos rfl, L.wp_vecSshrImm q hsize hs, halfForm_shift hpos hdvd hsize hw]
    simp [keeps_refl, hx]
  | false =>
    rw [if_neg Bool.false_ne_true, L.wp_vecUshrImm q hsize hs, halfForm_shift hpos hdvd hsize hw]
    simp [keeps_refl, hx]

theorem computes_roundVector (rounded : Bool) (hs : s ≤ 64) {g : Nat → BitVec w}
    (hx : f.value source = ⟨.u128, x⟩) (hshifted : shifted < n)
    (hy : f.value shifted = activeRow w q g) :
    Computes L.step (roundVector em rounded size s q source shifted) n f fun v =>
      v = activeRow w q fun k =>
        g k + if rounded then (lane w x k >>> (s - 1)) &&& 1#w else 0#w := by
  have h0 : shifted ≠ n := Nat.ne_of_lt hshifted
  have h1 : shifted ≠ n + 1 := Nat.ne_of_lt (Nat.lt_add_right 1 hshifted)
  have h2 : shifted ≠ n + 2 := Nat.ne_of_lt (Nat.lt_add_right 2 hshifted)
  have h3 : shifted ≠ n + 3 := Nat.ne_of_lt (Nat.lt_add_right 3 hshifted)
  cases rounded with
  | true =>
    rw [Computes, roundVector, if_pos rfl, Prog.wp_bind, L.wp_vecUshrImm q hsize (by omega),
      Prog.wp_bind, L.wp_constU64, Prog.wp_bind, L.wp_vecDupGpr q hsize, Prog.wp_bind, L.wp_vecAnd,
      L.wp_vecAdd q hsize]
    refine ⟨by simp [Nat.add_assoc], Nat.lt_succ_self _, by simp [keeps_refl, Nat.add_assoc], ?_⟩
    rw [Frame.value_define, if_pos rfl]
    simp only [Frame.value_define, if_true, Nat.add_assoc, Nat.reduceAdd, h0, h1, h2, h3, if_false,
      hy, hx, Nat.left_eq_add, Nat.add_left_cancel_iff, Nat.reduceEqDiff, one_ne_zero, OfNat.ofNat_ne_zero]
    refine halfForm_add hpos hdvd hw (fun k hk => lane_activeRow hpos hdvd hk) fun k hk => ?_
    have hle := (width_cases (width_mem hsize)).2.1
    rw [← hw] at hle
    have hone : (1#64).setWidth w = 1#w := BitVec.setWidth_ofNat_of_le hle 1
    rw [lane_halfForm hpos hdvd _ hk, lane_and, lane_dup hpos hdvd hsize hw 1#64 hk, hone,
      lane_halfForm hpos hdvd _ hk, lane_shiftLanes hpos hdvd hsize hw hk]
  | false =>
    refine computes_pure hshifted ?_
    rw [hy]
    refine congrArg (activeRow w q) (funext fun k => ?_)
    rw [if_neg Bool.false_ne_true, BitVec.add_zero]

end vectors

/-! ## The translators -/

theorem and_eight (raw : U32) : bits raw 19 4 &&& 8 = 0 ↔ bits raw 19 4 < 8 := by
  have hall : ∀ immh < 16, immh &&& 8 = 0 ↔ immh < 8 := by decide
  exact hall _ (bits_lt raw 19 (by decide : 4 < 32))

theorem bit_ne_zero (raw : U32) : (bit raw 30 != 0) = (bit raw 30 == 1) := by
  rcases bit_cases raw 30 with h | h <;> rw [h] <;> rfl

theorem immSize_lt (raw : U32) : immSize raw < 4 := by
  have hall : ∀ immh < 16, Nat.log2 immh < 4 := by decide +kernel
  exact hall _ (bits_lt raw 19 (by decide : 4 < 32))

/-- What an encoding that is not reserved says. -/
structure Fields (raw : U32) (scalar : Bool) (w : Nat) : Prop where
  width : w = 8 <<< immSize raw
  size : immSize raw < 4
  pos : 0 < w
  dvd : w ∣ 64
  le : w ≤ immValue raw
  lt : immValue raw < 2 * w
  fits : w ≤ 64
  long : scalar → w = 64

theorem fields (h : ¬ Reserved raw scalar) : Fields raw scalar (8 <<< immSize raw) := by
  rw [Reserved, not_or, not_or] at h
  obtain ⟨hmem, hle, hlt, hlong⟩ := immFields raw h.1
  obtain ⟨hpos, hfits, hdvd⟩ := width_cases hmem
  refine ⟨rfl, immSize_lt raw, hpos, hdvd, hle, hlt, hfits, fun hs => hlong.mpr ?_⟩
  rw [not_and, and_eight] at h
  exact Nat.not_lt.mp (h.2.1 hs)

/-- Whether the lanes of the source and of the destination are of one width. -/
def sameWidth : ShiftForm → Bool
  | .narrow _ | .widen _ => false
  | _ => true

theorem hasLanes_iff (form : ShiftForm) (hform : sameWidth form) :
    form.HasLanes raw scalar ↔ ¬ Reserved raw scalar := by
  have hiff : ((if scalar then 8 ≤ bits raw 19 4 else 8 ≤ bits raw 19 4 → bit raw 30 = 1) ↔
      ¬ ((scalar ∧ bits raw 19 4 < 8) ∨ (¬ scalar ∧ ¬ bits raw 19 4 < 8 ∧ bit raw 30 = 0))) := by
    rcases bit_cases raw 30 with hb | hb <;> cases scalar <;> simp [hb]
  rw [Reserved, not_or, and_eight, Ne, and_eight, ← hiff]
  cases form with
  | narrow upper => cases hform
  | widen unsigned => cases hform
  | _ => exact Iff.rfl

/-- The destination after an instruction of the form `form`. -/
def Writes (form : ShiftForm) (raw : U32) (scalar : Bool) (m : Machine) (st : InstStatus)
    (m' : Machine) : Prop :=
  st = .continues ∧ m' = m.writeV (bits raw 0 5) (form.result (8 <<< immSize raw) (immValue raw)
    (bit raw 30 == 1) scalar (m.v (bits raw 5 5)) (m.v (bits raw 0 5)))

theorem result_scalar (form : ShiftForm) (hform : sameWidth form) (imm : Nat) (n d : U128) :
    form.result 64 imm q true n d =
      (form.shiftLane 64 imm (n.setWidth 64) (d.setWidth 64)).setWidth 128 := by
  have h := ofLanes_scalar fun k => form.shiftLane 64 imm (lane 64 n k) (lane 64 d k)
  rw [lane_zero, lane_zero] at h
  cases form with
  | narrow upper => cases hform
  | widen unsigned => cases hform
  | _ => exact h

theorem shiftLane_right (w imm : Nat) (signed rounded accumulate : Bool) (x d : BitVec w)
    (hle : w ≤ imm) (hlt : imm < 2 * w) :
    (ShiftForm.right (!signed) rounded accumulate).shiftLane w imm x d =
      (if accumulate then d else 0#w) + ((if signed then x.sshiftRight (2 * w - imm)
        else x >>> (2 * w - imm)) + if rounded then (x >>> (2 * w - imm - 1)) &&& 1#w else 0#w) := by
  rw [ShiftForm.shiftLane, exactRight_eq_shifts _ _ _ _ _ (by omega) (by omega), rightByBits]
  cases signed <;> rfl

theorem wp_rightScalar (h : ¬ Reserved raw true) (signed rounded accumulate : Bool) :
    (translateRight em raw true signed rounded accumulate).wp L.step n f fun st _ f' =>
      Writes (.right (!signed) rounded accumulate) raw true f.machine st f'.machine := by
  have hf := fields h
  have hlong := hf.long rfl
  have hle := hf.le
  have hlt := hf.lt
  rw [translateRight, if_neg h, if_pos rfl, bits_imm]
  simp only [Writes]
  rw [hlong] at hle hlt ⊢
  rw [result_scalar (.right (!signed) rounded accumulate) rfl, shiftLane_right _ _ _ _ _ _ _ hle hlt]
  generalize hs : 2 * 64 - immValue raw = s
  generalize hsource : (f.machine.v (bits raw 5 5)).setWidth 64 = x
  rw [Prog.wp_bind, L.wp_getVD, Prog.wp_bind]
  refine Prog.wp_mono (wp_accumulator accumulate fun R => L.wp_getVD (regField raw 0)) ?_
  rintro _ n1 f1 ⟨rfl, hn1, hkeep1, hacc⟩
  have hn : n < n1 := hn1
  have hx : f1.value n = .ofU64 .u64 x := by
    rw [hkeep1.value n (Nat.lt_succ_self n), Frame.value_define, if_pos rfl, toNat_regField, hsource]
  rw [Prog.wp_bind]
  refine Prog.wp_mono (computes_rightScalar hn hx signed (by omega)) ?_
  rintro r2 n2 f2 ⟨hn2, hr2, hkeep2, hv2⟩
  have hx2 := (hkeep2.value n hn).trans hx
  rw [Prog.wp_bind]
  refine Prog.wp_mono (computes_roundScalar (Nat.lt_of_lt_of_le hn hn2) hx2 rounded (by omega)
    (by omega) hr2 hv2) ?_
  rintro r3 n3 f3 ⟨hn3, hr3, hkeep3, hv3⟩
  rw [Prog.wp_bind]
  refine Prog.wp_mono (computes_addTo accumulate (binaryValue (· + ·) (· + ·) · · .x) hr3
    fun a b R => L.wp_add .x) ?_
  rintro r4 n4 f4 ⟨-, -, hkeep4, hv4⟩
  have hmachine : f4.machine = f.machine := by
    rw [hkeep4.machine, hkeep3.machine, hkeep2.machine, hkeep1.machine, Frame.machine_define]
  have hvalue : f4.value r4 = .ofU64 .u64
      ((if accumulate then (f.machine.v (bits raw 0 5)).setWidth 64 else 0#64) +
        ((if signed then x.sshiftRight s else x >>> s) +
          if rounded then (x >>> (s - 1)) &&& 1#64 else 0#64)) := by
    rw [hv4, hv3]
    cases accumulate with
    | true =>
      obtain ⟨hlt1, hd⟩ := hacc rfl
      rw [if_pos rfl, if_pos rfl, hkeep3.value _ (Nat.lt_of_lt_of_le hlt1 hn2),
        hkeep2.value _ hlt1, hd, binaryValue_u64, Frame.machine_define, toNat_regField]
    | false =>
      rw [if_neg Bool.false_ne_true, if_neg Bool.false_ne_true, BitVec.zero_add]
  rw [Prog.wp_bind, L.wp_setVD _ hvalue, Prog.wp_pure, hmachine, toNat_regField]
  exact ⟨rfl, rfl⟩

theorem result_vector (form : ShiftForm) (hform : sameWidth form) (w imm : Nat) (n d : U128) :
    (⟨.u128, form.result w imm q false n d⟩ : Value) =
      activeRow w q fun k => form.shiftLane w imm (lane w n k) (lane w d k) := by
  cases form with
  | narrow upper => cases hform
  | widen unsigned => cases hform
  | _ => rfl

theorem wp_rightVector (h : ¬ Reserved raw false) (signed rounded accumulate : Bool) :
    (translateRight em raw false signed rounded accumulate).wp L.step n f fun st _ f' =>
      Writes (.right (!signed) rounded accumulate) raw false f.machine st f'.machine := by
  obtain ⟨-, hsize, hpos, hdvd, hle, hlt, hfits, -⟩ := fields h
  rw [translateRight, if_neg h, if_neg Bool.false_ne_true, bits_imm, bit_ne_zero]
  simp only [Writes]
  have hresult := result_vector (q := bit raw 30 == 1) (.right (!signed) rounded accumulate) rfl
    (8 <<< immSize raw) (immValue raw) (f.machine.v (bits raw 5 5)) (f.machine.v (bits raw 0 5))
  simp only [shiftLane_right _ _ _ _ _ _ _ hle hlt] at hresult
  generalize ShiftForm.result _ _ _ _ _ _ _ = result at hresult ⊢
  generalize hs : 2 * 8 <<< immSize raw - immValue raw = s at hresult ⊢
  generalize hq : (bit raw 30 == 1) = q at hresult ⊢
  generalize hw : 8 <<< immSize raw = w at hpos hdvd hle hlt hfits hresult hs
  generalize hsource : f.machine.v (bits raw 5 5) = x at hresult ⊢
  rw [Prog.wp_bind, L.wp_getVQ, Prog.wp_bind]
  refine Prog.wp_mono (wp_accumulator accumulate fun R => L.wp_getVQ (regField raw 0)) ?_
  rintro _ n1 f1 ⟨rfl, hn1, hkeep1, hacc⟩
  have hn : n < n1 := hn1
  have hx : f1.value n = ⟨.u128, x⟩ := by
    rw [hkeep1.value n (Nat.lt_succ_self n), Frame.value_define, if_pos rfl, toNat_regField, hsource]
  rw [Prog.wp_bind]
  refine Prog.wp_mono (computes_rightVector hpos hdvd hsize hw.symm signed (by omega) hx) ?_
  rintro r2 n2 f2 ⟨hn2, hr2, hkeep2, hv2⟩
  have hx2 := (hkeep2.value n hn).trans hx
  rw [Prog.wp_bind]
  refine Prog.wp_mono (computes_roundVector hpos hdvd hsize hw.symm rounded (by omega) hx2 hr2 hv2) ?_
  rintro r3 n3 f3 ⟨hn3, hr3, hkeep3, hv3⟩
  rw [Prog.wp_bind]
  refine Prog.wp_mono (computes_addTo accumulate
    (fun a b => ⟨.u128, halfForm q (zipLanes (8 <<< immSize raw) (· + ·) a.bits b.bits)⟩) hr3
    fun a b R => L.wp_vecAdd q hsize) ?_
  rintro r4 n4 f4 ⟨-, -, hkeep4, hv4⟩
  have hmachine : f4.machine = f.machine := by
    rw [hkeep4.machine, hkeep3.machine, hkeep2.machine, hkeep1.machine, Frame.machine_define]
  have hvalue : f4.value r4 = ⟨.u128, result⟩ := by
    rw [hv4, hv3, hresult]
    cases accumulate with
    | true =>
      obtain ⟨hlt1, hd⟩ := hacc rfl
      rw [if_pos rfl, hkeep3.value _ (Nat.lt_of_lt_of_le hlt1 hn2), hkeep2.value _ hlt1, hd,
        Frame.machine_define, toNat_regField]
      exact halfForm_add hpos hdvd hw.symm (fun k _ => rfl) fun k hk => lane_activeRow hpos hdvd hk
    | false =>
      rw [if_neg Bool.false_ne_true]
      refine congrArg (activeRow w q) (funext fun k => ?_)
      rw [if_neg Bool.false_ne_true, BitVec.zero_add]
  rw [Prog.wp_bind, L.wp_setVQ _ hvalue, Prog.wp_pure, hmachine, toNat_regField]
  exact ⟨rfl, rfl⟩

/-! ### Insertion -/

theorem getLsbD_lowMask (hs : s < 64) (i : Nat) :
    ((1#64 <<< s) - 1#64).getLsbD i = decide (i < s) := by
  rw [← BitVec.allOnes_and (x := _ - _), and_lowMask hs, BitVec.getLsbD_setWidth,
    BitVec.getLsbD_setWidth, BitVec.getLsbD_allOnes]
  by_cases hi : i < s
  · simp [hi, (by omega : i < 64)]
  · simp [hi]

/-- The bits that are kept are those that nothing is shifted to. -/
theorem setWidth_preservedMask (left : Bool) (hpos : 0 < w) (hw : w ≤ 64) (hs : left → s < w) :
    (preservedMask left w s).setWidth w =
      ~~~(if left then BitVec.allOnes w <<< s else BitVec.allOnes w >>> s) := by
  refine BitVec.eq_of_getLsbD_eq fun i hi => ?_
  have hlane (j : Nat) : (BitVec.allOnes 64 >>> (64 - w)).getLsbD j = decide (j < w) := by
    rw [BitVec.getLsbD_ushiftRight, BitVec.getLsbD_allOnes]
    exact decide_eq_decide.mpr (by omega)
  rw [BitVec.getLsbD_setWidth, decide_eq_true hi, Bool.true_and, BitVec.getLsbD_not,
    decide_eq_true hi, Bool.true_and, preservedMask]
  cases left with
  | true =>
    have hlt := hs rfl
    rw [if_pos rfl, if_pos rfl, getLsbD_lowMask (by omega), BitVec.getLsbD_shiftLeft,
      BitVec.getLsbD_allOnes, decide_eq_true hi, decide_eq_true (by omega : i - s < w)]
    simp
  | false =>
    rw [if_neg Bool.false_ne_true, if_neg Bool.false_ne_true, BitVec.getLsbD_ushiftRight,
      BitVec.getLsbD_allOnes]
    split_ifs with h64
    · rw [BitVec.getLsbD_allOnes, decide_eq_true (by omega : i < 64),
        decide_eq_false (by omega : ¬ s + i < w)]
      rfl
    · rw [BitVec.getLsbD_xor, BitVec.getLsbD_ushiftRight (BitVec.allOnes 64 >>> (64 - w)), hlane,
        hlane, decide_eq_true hi, Bool.true_xor]

/-- The distance of an insertion. -/
def insertShift (left : Bool) (w imm : Nat) : Nat := if left then imm - w else 2 * w - imm

theorem shiftLane_insert (left : Bool) (w imm : Nat) (x d : BitVec w) :
    (ShiftForm.insert left).shiftLane w imm x d =
      (if left then x <<< insertShift left w imm else x >>> insertShift left w imm) |||
        (d &&& ~~~(if left then BitVec.allOnes w <<< insertShift left w imm
          else BitVec.allOnes w >>> insertShift left w imm)) := by
  cases left <;> exact BitVec.or_comm _ _

theorem computes_insertScalar (left : Bool) {source : ValueRef} {x : U64} (hsource : source < n)
    (hx : f.value source = .ofU64 .u64 x) (hs : s ≤ 64) (hleft : left → s < 64) :
    Computes L.step (insertScalar em left s source) n f fun v =>
      v = .ofU64 .u64 (if left then x <<< s else x >>> s) := by
  have hne : source ≠ n := Nat.ne_of_lt hsource
  rw [Computes, insertScalar]
  cases left with
  | true =>
    rw [if_neg (by simp), Prog.wp_bind, L.wp_constU64, if_pos rfl, L.wp_lsl, if_pos rfl]
    simp [keeps_refl, hne, hx, binaryValue_u64, amount64_ofNat (hleft rfl), Nat.add_assoc]
  | false =>
    rw [if_neg (Bool.false_ne_true : ¬ false = true)]
    by_cases h64 : s = 64
    · have hzero : x >>> s = 0#64 := BitVec.ushiftRight_eq_zero (by omega)
      rw [if_pos ⟨rfl, h64⟩, L.wp_constU64, hzero]
      simp [keeps_refl]
    · rw [if_neg fun h => h64 h.2, Prog.wp_bind, L.wp_constU64, if_neg Bool.false_ne_true, L.wp_lsr]
      simp [keeps_refl, hne, hx, binaryValue_u64, amount64_ofNat (by omega : s < 64), Nat.add_assoc]

theorem computes_insertVector {source : ValueRef} {x : U128} (hpos : 0 < w) (hdvd : w ∣ 64)
    (hsize : size < 4) (hw : w = 8 <<< size) (left : Bool) (hs : s ≤ 64)
    (hx : f.value source = ⟨.u128, x⟩) :
    Computes L.step (insertVector em left size s q source) n f fun v =>
      v = activeRow w q fun k => if left then lane w x k <<< s else lane w x k >>> s := by
  rw [Computes, insertVector]
  cases left with
  | true =>
    rw [if_pos rfl, L.wp_vecShlImm q hsize hs, halfForm_shift hpos hdvd hsize hw]
    simp [keeps_refl, hx]
  | false =>
    rw [if_neg Bool.false_ne_true, L.wp_vecUshrImm q hsize hs, halfForm_shift hpos hdvd hsize hw]
    simp [keeps_refl, hx]

theorem value_define_self (f : Frame) (i : ValueRef) (v : Value) : (f.define i v).value i = v :=
  Function.update_self ..

/-- Both operands are read first. -/
theorem wp_readD {α : Type} (rn rd : U8) {k : ValueRef → ValueRef → Emit α}
    {R : α → Nat → Frame → Prop}
    (h : ∀ f0 : Frame, f0.machine = f.machine →
      f0.value n = .ofU64 .u64 ((f.machine.v rn.toNat).setWidth 64) →
      f0.value (n + 1) = .ofU64 .u64 ((f.machine.v rd.toNat).setWidth 64) →
      (k n (n + 1)).wp L.step (n + 2) f0 R) :
    (do let source ← em.getVD rn; let old ← em.getVD rd; k source old).wp L.step n f R := by
  rw [Prog.wp_bind, L.wp_getVD, Prog.wp_bind, L.wp_getVD]
  exact h _ rfl (by simp) (by simp)

theorem wp_readQ {α : Type} (rn rd : U8) {k : ValueRef → ValueRef → Emit α}
    {R : α → Nat → Frame → Prop}
    (h : ∀ f0 : Frame, f0.machine = f.machine → f0.value n = ⟨.u128, f.machine.v rn.toNat⟩ →
      f0.value (n + 1) = ⟨.u128, f.machine.v rd.toNat⟩ → (k n (n + 1)).wp L.step (n + 2) f0 R) :
    (do let source ← em.getVQ rn; let old ← em.getVQ rd; k source old).wp L.step n f R := by
  rw [Prog.wp_bind, L.wp_getVQ, Prog.wp_bind, L.wp_getVQ]
  exact h _ rfl (by simp) (by simp)

theorem insertShift_le (left : Bool) {w imm : Nat} (hle : w ≤ imm) (hlt : imm < 2 * w) :
    insertShift left w imm ≤ w ∧ (left → insertShift left w imm < w) := by
  cases left with
  | true =>
    rw [insertShift, if_pos rfl]
    omega
  | false =>
    rw [insertShift, if_neg Bool.false_ne_true]
    exact ⟨by omega, nofun⟩

theorem wp_insertScalar (h : ¬ Reserved raw true) (left : Bool) :
    (translateInsert em raw true left).wp L.step n f fun st _ f' =>
      Writes (.insert left) raw true f.machine st f'.machine := by
  have hf := fields h
  have hlong := hf.long rfl
  have hle := hf.le
  have hlt := hf.lt
  rw [translateInsert, if_neg h, if_pos rfl, bits_imm]
  simp only [Writes]
  rw [hlong] at hle hlt ⊢
  have hshift : (if left then immValue raw - 64 else 2 * 64 - immValue raw) =
      insertShift left 64 (immValue raw) := rfl
  rw [hshift, result_scalar (.insert left) rfl, shiftLane_insert]
  obtain ⟨hs, hleft⟩ := insertShift_le left hle hlt
  generalize insertShift left 64 (immValue raw) = s at hs hleft ⊢
  have hmask := setWidth_preservedMask (w := 64) left (by decide) (le_refl 64) hleft
  rw [BitVec.setWidth_eq] at hmask
  refine wp_readD _ _ fun f0 hmachine hx hold => ?_
  rw [toNat_regField] at hx hold
  rw [Prog.wp_bind]
  refine Prog.wp_mono (computes_insertScalar left (Nat.lt_add_of_pos_right (by decide)) hx hs hleft) ?_
  rintro r1 n1 f1 ⟨hn1, hr1, hkeep1, hv1⟩
  have hold1 := (hkeep1.value (n + 1) (Nat.lt_succ_self _)).trans hold
  have hne : r1 ≠ n1 := Nat.ne_of_lt hr1
  have hne1 : r1 ≠ n1 + 1 := Nat.ne_of_lt (Nat.lt_add_right 1 hr1)
  have hne2 : n + 1 ≠ n1 := Nat.ne_of_lt hn1
  rw [Prog.wp_bind, L.wp_constU64, Prog.wp_bind, L.wp_and, Prog.wp_bind, L.wp_or, Prog.wp_bind]
  simp only [Frame.value_define, hne, hne1, hne2, if_true, if_false, hv1, hold1, binaryValue_u64, hmask]
  rw [L.wp_setVD _ (value_define_self ..), Prog.wp_pure, toNat_regField]
  simp only [Frame.machine_define, hkeep1.machine, hmachine, and_self]

theorem wp_insertVector (h : ¬ Reserved raw false) (left : Bool) :
    (translateInsert em raw false left).wp L.step n f fun st _ f' =>
      Writes (.insert left) raw false f.machine st f'.machine := by
  obtain ⟨-, hsize, hpos, hdvd, hle, hlt, hfits, -⟩ := fields h
  rw [translateInsert, if_neg h, if_neg Bool.false_ne_true, bits_imm, bit_ne_zero]
  simp only [Writes]
  have hshift : (if left then immValue raw - 8 <<< immSize raw else
      2 * 8 <<< immSize raw - immValue raw) = insertShift left (8 <<< immSize raw) (immValue raw) := rfl
  have hresult := result_vector (q := bit raw 30 == 1) (.insert left) rfl
    (8 <<< immSize raw) (immValue raw) (f.machine.v (bits raw 5 5)) (f.machine.v (bits raw 0 5))
  simp only [shiftLane_insert] at hresult
  rw [hshift]
  obtain ⟨hs, hleft⟩ := insertShift_le left hle hlt
  generalize ShiftForm.result _ _ _ _ _ _ _ = result at hresult ⊢
  generalize insertShift left (8 <<< immSize raw) (immValue raw) = s at hs hleft hresult ⊢
  generalize hq : (bit raw 30 == 1) = q at hresult ⊢
  have hmask := setWidth_preservedMask left hpos hfits hleft
  refine wp_readQ _ _ fun f0 hmachine hx hold => ?_
  rw [toNat_regField] at hx hold
  rw [Prog.wp_bind]
  refine Prog.wp_mono (computes_insertVector hpos hdvd hsize rfl left (hs.trans hfits) hx) ?_
  rintro r1 n1 f1 ⟨hn1, hr1, hkeep1, hv1⟩
  have hold1 := (hkeep1.value (n + 1) (Nat.lt_succ_self _)).trans hold
  have hne : r1 ≠ n1 := Nat.ne_of_lt hr1
  have hne1 : r1 ≠ n1 + 1 := Nat.ne_of_lt (Nat.lt_add_right 1 hr1)
  have hne2 : r1 ≠ n1 + 2 := Nat.ne_of_lt (Nat.lt_add_right 2 hr1)
  have hne3 : n + 1 ≠ n1 := Nat.ne_of_lt hn1
  have hne4 : n + 1 ≠ n1 + 1 := Nat.ne_of_lt (Nat.lt_succ_of_lt hn1)
  rw [Prog.wp_bind, L.wp_constU64, Prog.wp_bind, L.wp_vecDupGpr q hsize, Prog.wp_bind, L.wp_vecAnd,
    Prog.wp_bind, L.wp_vecOrr, Prog.wp_bind]
  refine (L.wp_setVQ _ (x := result) ?_).mpr ?_
  · simp only [Frame.value_define, hne, hne1, hne2, hne3, hne4, if_true, if_false, hv1, hold1]
    rw [hresult]
    refine congrArg (Value.mk .u128) (halfForm_row hpos hdvd fun k hk => ?_)
    rw [lane_or, lane_activeRow hpos hdvd hk, lane_halfForm hpos hdvd _ hk, lane_and,
      lane_dup hpos hdvd hsize rfl _ hk, hmask]
  · rw [Prog.wp_pure, toNat_regField]
    simp only [Frame.machine_define, hkeep1.machine, hmachine, and_self]

/-! ### Shifts alone -/

theorem laneLog2_eq (h : ¬ bits raw 19 4 = 0) : laneLog2 (bits raw 19 4) = immSize raw := by
  have hall : ∀ immh < 16, immh = 0 ∨ laneLog2 immh = Nat.log2 immh := by decide +kernel
  exact (hall _ (bits_lt raw 19 (by decide : 4 < 32))).resolve_left h

/-- The form of the kinds that `translate` does not leave to another function. -/
def kindForm : ShiftKind → ShiftForm
  | .shl => .shl
  | .ushr => .right true false false
  | .sshr => .right false false false
  | .shrn => .narrow false
  | .shrn2 => .narrow true

theorem shiftLane_plain (signed : Bool) {w imm : Nat} (x d : BitVec w) (hle : w ≤ imm)
    (hlt : imm < 2 * w) : (ShiftForm.right (!signed) false false).shiftLane w imm x d =
      if signed then x.sshiftRight (2 * w - imm) else x >>> (2 * w - imm) := by
  rw [shiftLane_right _ _ _ _ _ _ _ hle hlt, if_neg Bool.false_ne_true, if_neg Bool.false_ne_true,
    BitVec.zero_add, BitVec.add_zero]

theorem wp_plainKind (h : ¬ Reserved raw false) (kind : ShiftKind) (hkind : sameWidth (kindForm kind)) :
    (translateKind em raw kind).wp L.step n f fun st _ f' =>
      Writes (kindForm kind) raw false f.machine st f'.machine := by
  obtain ⟨-, hsize, hpos, hdvd, hle, hlt, hfits, -⟩ := fields h
  rw [Reserved, not_or, not_or] at h
  obtain ⟨hz, -, hq⟩ := h
  have hguard : ¬ (bits raw 19 4 &&& 8 ≠ 0 ∧ ((kind = .shrn ∨ kind = .shrn2) ∨
      ¬ (bit raw 30 == 1) = true)) := by
    rintro ⟨h8, hnarrow | hbit⟩
    · rcases hnarrow with rfl | rfl <;> cases hkind
    · rcases bit_cases raw 30 with hb | hb
      · exact hq ⟨Bool.false_ne_true, h8, hb⟩
      · exact hbit (beq_iff_eq.mpr hb)
  have himm : (bits raw 19 4 <<< 3) ||| bits raw 16 3 = immValue raw := rfl
  rw [translateKind, if_neg hz, if_neg hguard, laneLog2_eq hz, himm]
  simp only [Writes]
  have hresult := result_vector (q := bit raw 30 == 1) (kindForm kind) hkind
    (8 <<< immSize raw) (immValue raw) (f.machine.v (bits raw 5 5)) (f.machine.v (bits raw 0 5))
  generalize ShiftForm.result _ _ _ _ _ _ _ = result at hresult ⊢
  rw [Prog.wp_bind, L.wp_getVQ, Prog.wp_bind]
  refine Prog.wp_mono (Q := fun r _ f' => f'.machine = f.machine ∧ f'.value r = ⟨.u128, result⟩) ?_ ?_
  · rw [hresult]
    cases kind with
    | shrn => cases hkind
    | shrn2 => cases hkind
    | shl =>
      rw [if_pos rfl, kindResult, L.wp_vecShlImm _ hsize (by omega), value_define_self,
        value_define_self, halfForm_shift hpos hdvd hsize rfl, toNat_regField]
      exact ⟨rfl, rfl⟩
    | ushr =>
      rw [if_neg (by decide), kindResult, L.wp_vecUshrImm _ hsize (by omega), value_define_self,
        value_define_self, halfForm_shift hpos hdvd hsize rfl, toNat_regField]
      refine ⟨rfl, congrArg (activeRow _ _) (funext fun k => ?_)⟩
      exact (shiftLane_plain false _ _ hle hlt).symm
    | sshr =>
      rw [if_neg (by decide), kindResult, L.wp_vecSshrImm _ hsize (by omega), value_define_self,
        value_define_self, halfForm_shift hpos hdvd hsize rfl, toNat_regField]
      refine ⟨rfl, congrArg (activeRow _ _) (funext fun k => ?_)⟩
      exact (shiftLane_plain true _ _ hle hlt).symm
  · rintro r n1 f1 ⟨hmachine, hvalue⟩
    rw [Prog.wp_bind, L.wp_setVQ _ hvalue, Prog.wp_pure, hmachine, toNat_regField]
    exact ⟨rfl, rfl⟩

theorem wp_shlScalar (h : ¬ Reserved raw true) :
    (translateShlScalar em raw).wp L.step n f fun st _ f' =>
      Writes .shl raw true f.machine st f'.machine := by
  have hf := fields h
  have hlong := hf.long rfl
  have hle := hf.le
  have hlt := hf.lt
  rw [Reserved, not_or, not_or] at h
  rw [translateShlScalar, if_neg fun h8 => h.2.1 ⟨rfl, h8⟩, bits_imm]
  simp only [Writes]
  rw [hlong] at hle hlt ⊢
  rw [result_scalar .shl rfl, Prog.wp_bind, L.wp_getVD, Prog.wp_bind, L.wp_constU64, Prog.wp_bind,
    L.wp_lsl, Prog.wp_bind]
  have hne : n ≠ n + 1 := Nat.ne_of_lt (Nat.lt_succ_self n)
  simp only [Frame.value_define, hne, if_true, if_false, binaryValue_u64,
    amount64_ofNat (by omega : immValue raw - 64 < 64)]
  rw [L.wp_setVD _ (value_define_self ..), Prog.wp_pure, toNat_regField, toNat_regField]
  exact ⟨rfl, rfl⟩

/-! ### Narrowing and widening -/

/-- An encoding that narrows or widens has lanes of at most 32 bits, which are doubled. -/
structure DoubleFields (raw : U32) (w : Nat) : Prop where
  size : immSize raw < 3
  pos : 0 < w
  dvd : w ∣ 64
  fits : w ≤ 32
  le : w ≤ immValue raw
  lt : immValue raw < 2 * w
  double : 2 * w = 8 <<< (immSize raw + 1)
  doublePos : 0 < 2 * w
  doubleDvd : 2 * w ∣ 64
  active : activeLanes (2 * w) true false = 64 / w

theorem doubleFields (hz : ¬ bits raw 19 4 = 0) (hlt8 : bits raw 19 4 < 8) :
    DoubleFields raw (8 <<< immSize raw) := by
  have hall : ∀ immh < 16, immh = 0 ∨ 8 ≤ immh ∨ Nat.log2 immh < 3 := by decide +kernel
  have hsize : immSize raw < 3 :=
    ((hall _ (bits_lt raw 19 (by decide : 4 < 32))).resolve_left hz).resolve_left (by omega)
  obtain ⟨-, hle, hlt, -⟩ := immFields raw hz
  have hw : ∀ size < 3, 0 < 8 <<< size ∧ 8 <<< size ∣ 64 ∧ 8 <<< size ≤ 32 ∧
      2 * 8 <<< size = 8 <<< (size + 1) ∧ 2 * 8 <<< size ∣ 64 ∧
      activeLanes (2 * 8 <<< size) true false = 64 / 8 <<< size := by decide
  obtain ⟨hpos, hdvd, hfits, hdouble, hdvd2, hactive⟩ := hw _ hsize
  exact ⟨hsize, hpos, hdvd, hfits, hle, hlt, hdouble, by omega, hdvd2, hactive⟩

theorem narrowLanesTo_shift (hf : DoubleFields raw w) (x : U128) :
    narrowLanesTo w (halfForm true (shiftLanes (fun _ => (· >>> s)) (immSize raw + 1) x)) =
      ofLanes 64 w (upTo (64 / w) fun k => (lane (2 * w) x k >>> s).setWidth w) := by
  have hfull : 64 ≤ w * (64 / w) := (Nat.mul_div_cancel' hf.dvd).ge
  rw [narrowLanesTo, ← ofLanes_upTo_of_le hf.pos hfull]
  refine congrArg (ofLanes 64 w) (upTo_congr fun k hk => ?_)
  have hsize := hf.size
  rw [← hf.active] at hk
  rw [lane_halfForm hf.doublePos hf.doubleDvd _ hk,
    lane_shiftLanes hf.doublePos hf.doubleDvd (by omega) hf.double hk]

theorem wp_narrowKind (hz : ¬ bits raw 19 4 = 0) (hlt8 : bits raw 19 4 < 8) {upper : Bool}
    (hq : bit raw 30 = upper.toNat) :
    (translateKind em raw (if upper then .shrn2 else .shrn)).wp L.step n f fun st _ f' =>
      Writes (.narrow upper) raw false f.machine st f'.machine := by
  have hf := doubleFields hz hlt8
  have hsize := hf.size
  have hle := hf.le
  have hlt := hf.lt
  have hfits := hf.fits
  have himm : (bits raw 19 4 <<< 3) ||| bits raw 16 3 = immValue raw := rfl
  rw [translateKind, if_neg hz, if_neg fun h => h.1 ((and_eight raw).mpr hlt8), laneLog2_eq hz, himm]
  simp only [Writes, hq, beq_one]
  rw [Prog.wp_bind, L.wp_getVQ, Prog.wp_bind]
  have hnarrow := narrowLanesTo_shift (s := 2 * 8 <<< immSize raw - immValue raw) hf
    (f.machine.v (bits raw 5 5))
  cases upper with
  | false =>
    rw [if_neg Bool.false_ne_true, if_neg (by decide), kindResult, Prog.wp_bind,
      L.wp_vecUshrImm _ (by omega) (by omega), L.wp_vecXtn hf.size, Prog.wp_bind,
      L.wp_setVQ _ (value_define_self ..), Prog.wp_pure, value_define_self, value_define_self,
      toNat_regField, toNat_regField, hnarrow]
    exact ⟨rfl, rfl⟩
  | true =>
    rw [if_pos rfl, if_neg (by decide), kindResult, Prog.wp_bind,
      L.wp_vecUshrImm _ (by omega) (by omega), Prog.wp_bind, L.wp_getVQ, L.wp_vecXtn2 hf.size,
      Prog.wp_bind, L.wp_setVQ _ (value_define_self ..), Prog.wp_pure, value_define_self,
      value_define_self]
    have hne : n + 1 ≠ n + 1 + 1 := Nat.ne_of_lt (Nat.lt_succ_self _)
    simp only [Frame.value_define, hne, if_true, if_false, Frame.machine_define, toNat_regField, hnarrow]
    exact ⟨trivial, rfl⟩

theorem lane_extendHalf (hf : DoubleFields raw w) (signed high : Bool) (x : U128) {k : Nat}
    (hk : k < 64 / w) : lane (2 * w) (extendHalf signed high w x) k =
      if signed then (lane w x (k + if high then 64 / w else 0)).signExtend (2 * w)
      else (lane w x (k + if high then 64 / w else 0)).setWidth (2 * w) := by
  have hk' := hk
  rw [← hf.active] at hk'
  have hhalf : lane w (if high then x >>> 64 else x) k =
      lane w x (k + if high then 64 / w else 0) := by
    cases high with
    | true => exact lane_half true x hf.dvd hk
    | false => rfl
  rw [extendHalf, lane_ofLanes _ (activeLanes_le hf.doublePos hf.doubleDvd hk'), hhalf]

theorem lane_zeros (k : Nat) : lane w 0#128 k = 0#w := by
  ext i hi
  simp [lane]

theorem wp_widen (hz : ¬ bits raw 19 4 = 0) (hlt8 : bits raw 19 4 < 8) (signed : Bool) :
    (translateWidenShift em raw signed).wp L.step n f fun st _ f' =>
      Writes (.widen (!signed)) raw false f.machine st f'.machine := by
  have hf := doubleFields hz hlt8
  have hsize := hf.size
  have hle := hf.le
  have hlt := hf.lt
  have hfits := hf.fits
  have hguard : ¬ (bits raw 19 4 = 0 ∨ bits raw 19 4 &&& 8 ≠ 0) := by
    rintro (h | h)
    · exact hz h
    · exact h ((and_eight raw).mpr hlt8)
  rw [translateWidenShift, if_neg hguard, bits_imm, bit_ne_zero]
  simp only [Writes]
  generalize (bit raw 30 == 1) = q
  have hwidened : (IrEmitter.vecNode em (if signed then .vecSaddl else .vecUaddl) [n, n + 2]
      (longField (immSize raw) q)) = widen em signed n (n + 2) (immSize raw) q := by
    cases signed <;> rfl
  rw [Prog.wp_bind, L.wp_getVQ, Prog.wp_bind, L.wp_constU64, Prog.wp_bind, L.wp_vecBuildQ, Prog.wp_bind,
    ← hwidened, L.wp_addLong hsize rfl, Prog.wp_bind, L.wp_vecShlImm true (by omega) (by omega),
    Prog.wp_bind]
  refine (L.wp_setVQ _ (x := (ShiftForm.widen (!signed)).result (8 <<< immSize raw) (immValue raw) q
    false (f.machine.v (bits raw 5 5)) (f.machine.v (bits raw 0 5))) ?_).mpr ?_
  · have hzero : ((Value.ofU64 .u64 0#64).bits.setWidth 64 ++ (Value.ofU64 .u64 0#64).bits.setWidth 64 :
        U128) = 0#128 := by decide
    have h1 : n ≠ n + 1 := Nat.ne_of_lt (Nat.lt_succ_self n)
    have h2 : n ≠ n + 2 := Nat.ne_of_lt (Nat.lt_add_of_pos_right (by decide))
    simp only [Frame.value_define, h1, h2, if_true, if_false, toNat_regField, Nat.add_assoc,
      Nat.reduceAdd, hzero]
    refine congrArg (Value.mk .u128) ((halfForm_row hf.doublePos hf.doubleDvd
      (g := fun k =>
        let x := lane (8 <<< immSize raw) (f.machine.v (bits raw 5 5))
          (k + if q then 64 / 8 <<< immSize raw else 0)
        (if signed then x.signExtend (2 * 8 <<< immSize raw) else x.setWidth (2 * 8 <<< immSize raw))
          <<< (immValue raw - 8 <<< immSize raw)) fun k hk => ?_).trans ?_)
    · rw [lane_shiftLanes hf.doublePos hf.doubleDvd (by omega) hf.double hk]
      have hle2 := activeLanes_le hf.doublePos hf.doubleDvd hk
      rw [hf.active] at hk
      rw [lane_zipLanes _ hle2, lane_extendHalf hf signed q _ hk, lane_extendHalf hf signed q _ hk,
        lane_zeros]
      cases signed with
      | true =>
        have hzero : (0#(8 <<< immSize raw)).signExtend (2 * 8 <<< immSize raw) =
            0#(2 * 8 <<< immSize raw) := by
          rw [BitVec.signExtend_eq_setWidth_of_msb_false BitVec.msb_zero, BitVec.setWidth_zero]
        simp only [if_true, hzero, BitVec.add_zero]
      | false => simp only [Bool.false_eq_true, if_false, BitVec.setWidth_zero, BitVec.add_zero]
    · rw [hf.active]
      cases signed <;> rfl
  · rw [Prog.wp_pure, toNat_regField]
    simp only [Frame.machine_define, toNat_regField, and_self]

/-! ### All forms -/

/-- The translator of a form.  Plain shifts of vectors, and those to the left of scalars, have their
own. -/
def ofForm (em : IrEmitter) (raw : U32) (scalar : Bool) : ShiftForm → Emit InstStatus
  | .right unsigned rounded accumulate =>
    if scalar ∨ rounded ∨ accumulate then translateRight em raw scalar (!unsigned) rounded accumulate
    else translateKind em raw (if unsigned then .ushr else .sshr)
  | .shl => if scalar then translateShlScalar em raw else translateKind em raw .shl
  | .insert left => translateInsert em raw scalar left
  | .narrow upper => translateKind em raw (if upper then .shrn2 else .shrn)
  | .widen unsigned => translateWidenShift em raw (!unsigned)

theorem wp_ofForm {form : ShiftForm} (henc : form.Encodes raw) (hl : form.HasLanes raw scalar) :
    (ofForm em raw scalar form).wp L.step n f fun st _ f' =>
      Writes form raw scalar f.machine st f'.machine := by
  cases form with
  | right unsigned rounded accumulate =>
    have hres := (hasLanes_iff (.right unsigned rounded accumulate) rfl).mp hl
    obtain ⟨signed, rfl⟩ : ∃ signed, unsigned = !signed := ⟨!unsigned, (Bool.not_not _).symm⟩
    rw [ofForm, Bool.not_not]
    split_ifs with h hu
    · cases scalar with
      | true => exact wp_rightScalar hres signed rounded accumulate
      | false => exact wp_rightVector hres signed rounded accumulate
    · rw [not_or, not_or, Bool.not_eq_true, Bool.not_eq_true, Bool.not_eq_true] at h
      obtain ⟨rfl, rfl, rfl⟩ := h
      rw [hu]
      exact wp_plainKind hres .ushr rfl
    · rw [not_or, not_or, Bool.not_eq_true, Bool.not_eq_true, Bool.not_eq_true] at h
      obtain ⟨rfl, rfl, rfl⟩ := h
      rw [Bool.not_eq_true] at hu
      rw [hu]
      exact wp_plainKind hres .sshr rfl
  | shl =>
    have hres := (hasLanes_iff .shl rfl).mp hl
    cases scalar with
    | true => exact wp_shlScalar hres
    | false => exact wp_plainKind hres .shl rfl
  | insert left =>
    have hres := (hasLanes_iff (.insert left) rfl).mp hl
    cases scalar with
    | true => exact wp_insertScalar hres left
    | false => exact wp_insertVector hres left
  | narrow upper =>
    obtain ⟨hz, rfl, hlt⟩ := hl
    exact wp_narrowKind hz hlt henc.1
  | widen unsigned =>
    obtain ⟨hz, rfl, hlt⟩ := hl
    rw [ofForm]
    obtain ⟨signed, rfl⟩ : ∃ signed, unsigned = !signed := ⟨!unsigned, (Bool.not_not _).symm⟩
    rw [Bool.not_not]
    exact wp_widen hz hlt signed

/-- An emitter ends well only past its guard. -/
theorem not_of_result {α : Type} {P : Prop} [Decidable P] {p : Emit α} {e : Stop} {a : α}
    (h : (if P then .fail e else p : Emit α).result n = .ok a) : ¬ P := by
  intro hp
  rw [if_pos hp] at h
  cases h

theorem hasLanes_of_kind {kind : ShiftKind} {status : InstStatus}
    (hok : (translateKind em raw kind).result n = .ok status) :
    (kindForm kind).HasLanes raw false := by
  rw [translateKind] at hok
  have hz := not_of_result hok
  rw [if_neg hz] at hok
  have hguard := not_of_result hok
  rw [Ne, and_eight, not_and, not_or] at hguard
  refine ⟨hz, ?_⟩
  have hplain : 8 ≤ bits raw 19 4 → bit raw 30 = 1 := by
    intro h8
    exact eq_of_beq (not_not.mp (hguard (Nat.not_lt.mpr h8)).2)
  have hnarrow (hkind : kind = .shrn ∨ kind = .shrn2) : bits raw 19 4 < 8 := by
    by_contra h8
    exact (hguard h8).1 hkind
  cases kind with
  | shrn => exact ⟨rfl, hnarrow (.inl rfl)⟩
  | shrn2 => exact ⟨rfl, hnarrow (.inr rfl)⟩
  | _ => exact hplain

/-- The guards of the translators leave the encodings that have lanes. -/
theorem hasLanes_of_ofForm {form : ShiftForm} (hsame : scalar → sameWidth form) {status : InstStatus}
    (hok : (ofForm em raw scalar form).result n = .ok status) : form.HasLanes raw scalar := by
  have hlong (h : bits raw 19 4 &&& 8 ≠ 0) : bits raw 19 4 ≠ 0 ∧ 8 ≤ bits raw 19 4 := by
    rw [Ne, and_eight, Nat.not_lt] at h
    exact ⟨by omega, h⟩
  cases form with
  | right unsigned rounded accumulate =>
    rw [ofForm] at hok
    split_ifs at hok with h hu
    · rw [translateRight] at hok
      exact (hasLanes_iff _ rfl).mpr (not_of_result hok)
    · rw [not_or, Bool.not_eq_true] at h
      obtain ⟨rfl, -⟩ := h
      exact hasLanes_of_kind hok
    · rw [not_or, Bool.not_eq_true] at h
      obtain ⟨rfl, -⟩ := h
      exact hasLanes_of_kind hok
  | shl =>
    rw [ofForm] at hok
    cases scalar with
    | true =>
      rw [if_pos rfl, translateShlScalar] at hok
      exact hlong (not_of_result hok)
    | false => exact hasLanes_of_kind hok
  | insert left =>
    rw [ofForm, translateInsert] at hok
    exact (hasLanes_iff _ rfl).mpr (not_of_result hok)
  | narrow upper =>
    cases scalar with
    | true => cases hsame rfl
    | false =>
      cases upper with
      | true => exact hasLanes_of_kind hok
      | false => exact hasLanes_of_kind hok
  | widen unsigned =>
    cases scalar with
    | true => cases hsame rfl
    | false =>
      rw [ofForm, translateWidenShift] at hok
      have hguard := not_of_result hok
      rw [not_or, not_not, and_eight] at hguard
      exact ⟨hguard.1, rfl, hguard.2⟩

end ShiftImm

/-! ## The two classes -/

/-- A shift by an immediate, of either class. -/
inductive ShiftInsn where
  | vector (insn : Asimdshf)
  | scalar (insn : Asisdshf)

namespace ShiftInsn

open ShiftImm

def isScalar : ShiftInsn → Bool
  | vector _ => false
  | scalar _ => true

def form : ShiftInsn → Option (U32 × ShiftForm)
  | vector insn => insn.form
  | scalar insn => insn.form

variable (fixedFloatToInt : IrEmitter → U32 → Bool → Bool → Emit InstStatus) (em : IrEmitter)

def translate : ShiftInsn → Emit InstStatus
  | vector insn => insn.translate fixedFloatToInt em
  | scalar insn => insn.translateScalar fixedFloatToInt em

theorem translate_eq_ofForm {insn : ShiftInsn} {raw : U32} {form : ShiftForm}
    (h : insn.form = some (raw, form)) :
    insn.translate fixedFloatToInt em = ofForm em raw insn.isScalar form ∧
      (insn.isScalar → sameWidth form) := by
  cases insn with
  | vector insn =>
    refine ⟨?_, nofun⟩
    cases insn <;> cases h <;> rfl
  | scalar insn =>
    cases insn <;> cases h <;> exact ⟨rfl, fun _ => rfl⟩

/-- **The emitted code and the helper write the same vector**, which for a shift to the right has
the exact lanes, and zeros above them. -/
theorem shift_agrees (fixedPoint : U32 → U128 → Bool → St → Option (U128 × St)) (L : VectorLowering)
    {insn : ShiftInsn} {raw : U32} {form : ShiftForm} (hform : insn.form = some (raw, form))
    (henc : form.Encodes raw) (n : Nat) {status : InstStatus}
    (hok : (insn.translate fixedFloatToInt em).result n = .ok status) (f : Frame) (st : St) :
    ∃ r : U128,
      shiftImm fixedPoint raw (f.machine.v (bits raw 5 5)) (f.machine.v (bits raw 0 5)) insn.isScalar
        st = some (r, st) ∧
      ((insn.translate fixedFloatToInt em).wp L.step n f fun status _ f' =>
        status = .continues ∧ f'.machine = f.machine.writeV (bits raw 0 5) r) ∧
      ∀ unsigned rounded accumulate, form = .right unsigned rounded accumulate →
        let w := 8 <<< immSize raw
        r = ofLanes 128 w (upTo (activeLanes w (bit raw 30 == 1) insn.isScalar) fun k =>
          exactRight w (2 * w - immValue raw) unsigned rounded accumulate
            (lane w (f.machine.v (bits raw 5 5)) k) (lane w (f.machine.v (bits raw 0 5)) k)) := by
  obtain ⟨htranslate, hsame⟩ := translate_eq_ofForm fixedFloatToInt em hform
  rw [htranslate] at hok ⊢
  have hl := hasLanes_of_ofForm hsame hok
  refine ⟨_, shiftImm_eq fixedPoint henc hl _ _ st, wp_ofForm henc hl, ?_⟩
  rintro unsigned rounded accumulate rfl
  rfl

/-- The rounding shift by 64 of a scalar that is added to its own source. -/
theorem shift_agrees_srsra :
    ∃ r : U128,
      shiftImm (fun _ _ _ _ => none) 0x5f403421#32 7#128 7#128 true ⟨0, 0⟩ = some (r, ⟨0, 0⟩) ∧
      ((scalar (.srsraSdSnImmVlsr 0x5f403421#32)).translate (fun _ _ _ _ => .fail .panic) ⟨0#64⟩).wp
        (VectorLowering.mk false (fun _ => .spill 0) (fun _ => 0#128)
          fun _ => ⟨.frame 0, rfl, nofun⟩).step 0
        ⟨⟨fun _ => 5, 0, 0, fun _ => 7, fun _ => 0, []⟩, fun _ => ⟨.void, 0⟩⟩ fun status _ f' =>
          status = .continues ∧ f'.machine =
            (⟨fun _ => 5, 0, 0, fun _ => 7, fun _ => 0, []⟩ : Machine).writeV 1 r := by
  obtain ⟨r, hinterp, hcode, -⟩ := @shift_agrees (fun _ _ _ _ => .fail .panic) ⟨0#64⟩
    (fun _ _ _ _ => none) (VectorLowering.mk false (fun _ => .spill 0) (fun _ => 0#128)
      fun _ => ⟨.frame 0, rfl, nofun⟩)
    (scalar (.srsraSdSnImmVlsr 0x5f403421#32)) _ _ rfl (by decide) 0 .continues (by rfl)
    ⟨⟨fun _ => 5, 0, 0, fun _ => 7, fun _ => 0, []⟩, fun _ => ⟨.void, 0⟩⟩ ⟨0, 0⟩
  exact ⟨r, hinterp, hcode⟩

end ShiftInsn

end Rustarmic
