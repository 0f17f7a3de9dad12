import Mathlib.Data.Nat.Log
import Rustarmic.Interp.Rows

/-!
# Vector shifts by an immediate, out of line

The group "shift by immediate" as the helper computes it.  The conversions between floating point
and fixed point, which are encoded in the same group, are an argument.

* `shiftImm` — the helper.
* `exactRight` — a shift to the right in exact arithmetic.
* `ShiftForm.result` — what each form of the group is for.
* `shiftImm_eq` — the helper computes it.

One function of the source serves the whole group and takes the word apart itself.  The width of the
lanes is the position of the highest set bit of `immh`, and the amount is what `immh:immb` has
beyond that width, counted up for shifts to the left and down for those to the right; so a shift to
the right goes from one to the whole width, and a shift to the left from zero to one less.

What the forms are for is written without code.  `exactRight` is the floor of a quotient of
integers, with half of the last place added before if the form rounds and the destination added
after it if it accumulates, cut to the lane at the very end.  The helper computes in 128 bits and
adds the half there, so that the sum cannot overflow; `shiftRight` is modelled with the check of
that addition, and part of the theorem is that it does not fail.
-/

set_option autoImplicit false

namespace Rustarmic

open Checked Interp Lanes

namespace Interp

/-- `31 - immh.leading_zeros()`: lanes have `8 << immSize` bits. -/
def immSize (insn : U32) : Nat := Nat.log2 (bits insn 19 4)

/-- `(immh << 3) | immb`. -/
def immValue (insn : U32) : Nat := (bits insn 19 4 <<< 3) ||| bits insn 16 3

/-- A shift to the right, of a value to which half of the last place is added if it rounds. -/
def shiftRight (x : Int) (rshift : Nat) (round : Bool) : Option Int :=
  if round then
    (i128 ((1 : Int) <<< (rshift - 1))).bind fun half =>
      (i128 (x + half)).map fun (y : Int) => y >>> rshift
  else some (x >>> rshift)

/-- An element of SSHR, USHR and their relatives that round or accumulate. -/
def rightElement (u : Bool) (opcode esize rshift : Nat) (n d : U128) (i : Nat) : Option U64 :=
  (shiftRight (ext (get n i esize) esize u) rshift (opcode &&& 0b00100 != 0)).map fun v =>
    let v := BitVec.ofInt 64 v
    (if opcode &&& 0b00010 != 0 then v + get d i esize else v) &&& emask esize

def sriElement (esize rshift : Nat) (n d : U128) (i : Nat) : U64 :=
  let x := get n i esize
  let mask := if esize ≤ rshift then 0#64 else emask esize >>> rshift
  let sh := if 64 ≤ rshift then 0#64 else x >>> rshift
  (get d i esize &&& ~~~mask) ||| (sh &&& mask)

/-- An element of SHL, and of SLI if `u`. -/
def shlElement (u : Bool) (esize lshift : Nat) (n d : U128) (i : Nat) : U64 :=
  let x := get n i esize
  let sh := (x <<< lshift) &&& emask esize
  if u then
    let mask := (emask esize <<< lshift) &&& emask esize
    (get d i esize &&& ~~~mask) ||| sh
  else sh

/-- Whether the source and the destination of a narrowing shift are unsigned, and whether it
saturates. -/
def narrowFields (u : Bool) (opcode : Nat) : Bool × Bool × Bool :=
  match u, opcode >>> 1 with
  | false, 0b1000 => (true, true, false)
  | true, 0b1000 => (false, true, true)
  | false, _ => (false, false, true)
  | true, _ => (true, true, true)

def narrowShiftElement (u : Bool) (opcode esize rshift : Nat) (n : U128) (i : Nat) (st : St) :
    Option (U64 × St) :=
  let (srcUnsigned, dstUnsigned, saturating) := narrowFields u opcode
  (shiftRight (ext (get n i (2 * esize)) (2 * esize) srcUnsigned) rshift (opcode &&& 1 == 1)).bind
    fun v => if saturating then sat v esize dstUnsigned st else some (low v esize, st)

/-- The half of the vector that SSHLL or its second form widens. -/
def widenElement (u q : Bool) (esize lshift : Nat) (n : U128) (i : Nat) : U64 :=
  let half := if q then n >>> 64 else n &&& 0xFFFFFFFFFFFFFFFF#128
  BitVec.ofInt 64 (ext (get half i esize) esize u <<< lshift)

/-- The encodings of which the scalar form has 64-bit elements only. -/
def plainOk (u : Bool) (opcode : Nat) : Bool :=
  match u, opcode with
  | _, 0b00000 | _, 0b00010 | _, 0b00100 | _, 0b00110 | true, 0b01000 | _, 0b01010 => true
  | _, _ => false

/-- The encodings for which there is nothing to compute. -/
def shiftReserved (insn : U32) (scalar : Bool) : Bool :=
  let q := bit insn 30 == 1
  let opcode := bits insn 11 5
  let long := 8 <<< immSize insn == 64
  bits insn 19 4 == 0 ||
    (if (0b10000 ≤ opcode && opcode ≤ 0b10011) || opcode == 0b10100 then long
      else !scalar && long && !q) ||
    (scalar && plainOk (bit insn 29 == 1) opcode && !long)

/-- AdvSIMD shift by immediate, vector or scalar; `fixedPoint` is its floating-point part. -/
def shiftImm (fixedPoint : U32 → U128 → Bool → St → Option (U128 × St)) (insn : U32) (n d : U128)
    (scalar : Bool) (st : St) : Option (U128 × St) :=
  let q := bit insn 30 == 1
  let u := bit insn 29 == 1
  let opcode := bits insn 11 5
  let esize := 8 <<< immSize insn
  let datasize := if q || scalar then 128 else 64
  let rshift := 2 * esize - immValue insn
  let lshift := immValue insn - esize
  let elements := if scalar then 1 else datasize / esize
  if shiftReserved insn scalar then none
  else if opcode = 0b00000 ∨ opcode = 0b00010 ∨ opcode = 0b00100 ∨ opcode = 0b00110 then
    setElements esize elements
      (fun i st => (rightElement u opcode esize rshift n d i).map fun v => (v, st)) st
  else if u ∧ opcode = 0b01000 then
    setElements esize elements (fun i st => some (sriElement esize rshift n d i, st)) st
  else if opcode = 0b01010 then
    setElements esize elements (fun i st => some (shlElement u esize lshift n d i, st)) st
  else if (u ∧ opcode = 0b01100) ∨ opcode = 0b01110 then
    let srcUnsigned := u && opcode == 0b01110
    setElements esize elements (fun i st =>
      (i128 (ext (get n i esize) esize srcUnsigned <<< lshift)).bind fun v => sat v esize u st) st
  else if 0b10000 ≤ opcode ∧ opcode ≤ 0b10011 then
    if scalar && !(narrowFields u opcode).2.2 then none
    else
      (orElements esize (if scalar then 1 else 64 / esize)
        (narrowShiftElement u opcode esize rshift n) st).map fun acc =>
        (narrowInto q scalar acc.1 d, acc.2)
  else if opcode = 0b10100 then
    if scalar then none
    else
      setElements (2 * esize) (64 / esize)
        (fun i st => some (widenElement u q esize lshift n i, st)) st
  else if opcode = 0b11100 ∨ opcode = 0b11111 then fixedPoint insn n scalar st
  else none

end Interp

/-! ## In exact arithmetic -/

/-- What a shift rounds with: half of the last place it keeps. -/
def roundConst (s : Nat) (rounded : Bool) : Int := if rounded then 2 ^ (s - 1) else 0

/-- `⌊(x + r) / 2 ^ s⌋`, which is added to the destination if the shift accumulates. -/
def exactRight (w s : Nat) (unsigned rounded accumulate : Bool) (x d : BitVec w) : BitVec w :=
  BitVec.ofInt w ((if accumulate then (d.toNat : Int) else 0) +
    ⌊(((if unsigned then (x.toNat : Int) else x.toInt) + roundConst s rounded : Int) : ℚ) / 2 ^ s⌋)

/-- The shifts by an immediate: SSHR, USHR and their relatives, SHL, SLI or SRI, SHRN or its second
form, and SSHLL or USHLL. -/
inductive ShiftForm where
  | right (unsigned rounded accumulate : Bool)
  | shl
  | insert (up : Bool)
  | narrow (upper : Bool)
  | widen (unsigned : Bool)
  deriving DecidableEq, Repr

namespace ShiftForm

/-- What a lane of the destination becomes; `imm` is the field that has the lane width and the
distance in it. -/
def shiftLane (w imm : Nat) (x d : BitVec w) : ShiftForm → BitVec w
  | right unsigned rounded accumulate => exactRight w (2 * w - imm) unsigned rounded accumulate x d
  | shl => x <<< (imm - w)
  | insert true => (d &&& ~~~(BitVec.allOnes w <<< (imm - w))) ||| (x <<< (imm - w))
  | insert false => (d &&& ~~~(BitVec.allOnes w >>> (2 * w - imm))) ||| (x >>> (2 * w - imm))
  | narrow _ | widen _ => 0

/-- The destination, with zeros above the active lanes.  `q` is bit 30. -/
def result (w imm : Nat) (q scalar : Bool) (n d : U128) : ShiftForm → U128
  | narrow _ =>
    let lanes : U64 := ofLanes 64 w (upTo (64 / w) fun k =>
      (lane (2 * w) n k >>> (2 * w - imm)).setWidth w)
    if q then (lanes ++ d.setWidth 64 : U128) else lanes.setWidth 128
  | widen unsigned =>
    ofLanes 128 (2 * w) (upTo (64 / w) fun k =>
      let x := lane w n (k + if q then 64 / w else 0)
      (if unsigned then x.setWidth (2 * w) else x.signExtend (2 * w)) <<< (imm - w))
  | form =>
    ofLanes 128 w (upTo (activeLanes w q scalar) fun k => form.shiftLane w imm (lane w n k) (lane w d k))

/-- The bits by which the decoder tells the forms apart. -/
def Encodes (raw : U32) : ShiftForm → Prop
  | right unsigned rounded accumulate =>
    bit raw 29 = unsigned.toNat ∧ bits raw 11 5 = 4 * rounded.toNat + 2 * accumulate.toNat
  | shl => bit raw 29 = 0 ∧ bits raw 11 5 = 0b01010
  | insert up => bit raw 29 = 1 ∧ bits raw 11 5 = if up then 0b01010 else 0b01000
  | narrow upper => bit raw 30 = upper.toNat ∧ bit raw 29 = 0 ∧ bits raw 11 5 = 0b10000
  | widen unsigned => bit raw 29 = unsigned.toNat ∧ bits raw 11 5 = 0b10100

instance (raw : U32) (form : ShiftForm) : Decidable (form.Encodes raw) := by
  cases form <;> unfold Encodes <;> infer_instance

/-- The lanes that a form is for: the scalar forms and those of 64-bit vectors have 64-bit lanes or
have none, and there is nothing to narrow to or to widen. -/
def HasLanes (raw : U32) (scalar : Bool) (form : ShiftForm) : Prop :=
  bits raw 19 4 ≠ 0 ∧
    match form with
    | narrow _ | widen _ => scalar = false ∧ bits raw 19 4 < 8
    | _ => if scalar then 8 ≤ bits raw 19 4 else 8 ≤ bits raw 19 4 → bit raw 30 = 1

end ShiftForm

/-! ## The fields -/

theorem immFields (insn : U32) (h : ¬ bits insn 19 4 = 0) :
    8 <<< immSize insn ∈ [8, 16, 32, 64] ∧ 8 <<< immSize insn ≤ immValue insn ∧
      immValue insn < 2 * (8 <<< immSize insn) ∧
      (8 <<< immSize insn = 64 ↔ 8 ≤ bits insn 19 4) := by
  have hsize : ∀ immh < 16, immh = 0 ∨ 8 <<< Nat.log2 immh ∈ [8, 16, 32, 64] ∧
      (8 <<< Nat.log2 immh = 64 ↔ 8 ≤ immh) := by decide +kernel
  have hvalue : ∀ immh < 16, ∀ immb < 8, immh = 0 ∨ 8 <<< Nat.log2 immh ≤ (immh <<< 3) ||| immb ∧
      (immh <<< 3) ||| immb < 2 * (8 <<< Nat.log2 immh) := by decide +kernel
  have hlt := bits_lt insn 19 (by decide : 4 < 32)
  obtain ⟨hmem, hiff⟩ := (hsize _ hlt).resolve_left h
  obtain ⟨hle, hgt⟩ := (hvalue _ hlt _ (bits_lt insn 16 (by decide : 3 < 32))).resolve_left h
  exact ⟨hmem, hle, hgt, hiff⟩

/-- Both parts of the field at once. -/
theorem bits_imm (insn : U32) : bits insn 16 7 = immValue insn := by
  have hlow := bits_lt insn 16 (by decide : 3 < 32)
  rw [immValue, Nat.shiftLeft_eq, Nat.mul_comm, ← Nat.two_pow_add_eq_or_of_lt hlow,
    bits_eq insn 16 (by decide : 7 < 32), bits_eq insn 19 (by decide : 4 < 32),
    bits_eq insn 16 (by decide : 3 < 32)]
  omega

/-! ## Elements -/

section elements

variable {w s : Nat} {u : Bool}

theorem exactRight_eq (unsigned rounded accumulate : Bool) (x d : BitVec w) :
    exactRight w s unsigned rounded accumulate x d = (if accumulate then d else 0) +
      BitVec.ofInt w (((if unsigned then (x.toNat : Int) else x.toInt) + roundConst s rounded) /
        2 ^ s) := by
  have hfloor (y : Int) : ⌊(y : ℚ) / 2 ^ s⌋ = y / 2 ^ s := by
    have h := Rat.floor_intCast_div_natCast y (2 ^ s)
    push_cast at h
    exact h
  rw [exactRight, hfloor, BitVec.ofInt_add]
  congr 1
  cases accumulate
  · simp
  · simp

theorem shiftRight_eq (hpos : 0 < s) (hs : s ≤ 64) {x : Int} (hlo : -2 ^ 64 ≤ x) (hhi : x < 2 ^ 64)
    (round : Bool) : shiftRight x s round = some ((x + roundConst s round) / 2 ^ s) := by
  have hpow : (2 : Int) ^ (s - 1) ≤ 2 ^ 63 := pow_le_pow_right₀ (by decide) (by omega)
  have hone : (1 : Int) ≤ 2 ^ (s - 1) := one_le_pow₀ (by decide)
  norm_num at hpow hlo hhi
  cases round with
  | true =>
    rw [shiftRight, if_pos rfl, Int.shiftLeft_eq, one_mul, i128_eq_some (by omega) (by omega),
      Option.bind_some, i128_eq_some (by omega) (by omega), Option.map_some,
      Int.shiftRight_eq_div_pow]
    rfl
  | false =>
    rw [shiftRight, if_neg Bool.false_ne_true, Int.shiftRight_eq_div_pow, roundConst,
      if_neg Bool.false_ne_true, add_zero]
    rfl

theorem getLsbD_emask (h : w ≤ 64) (i : Nat) : (emask w).getLsbD i = decide (i < w) := by
  rw [emask]
  rcases Nat.lt_or_eq_of_le h with hlt | rfl
  · rw [mask, if_neg (by omega), ← BitVec.allOnes_and (x := _ - _), and_lowMask hlt,
      BitVec.getLsbD_setWidth, BitVec.getLsbD_setWidth, BitVec.getLsbD_allOnes]
    by_cases hi : i < w
    · simp [hi, (by omega : i < 64)]
    · simp [hi]
  · rw [mask, if_pos le_rfl, BitVec.getLsbD_allOnes]

theorem setWidth_and_emask (h : w ≤ 64) (x : U64) : (x &&& emask w).setWidth w = x.setWidth w := by
  refine BitVec.eq_of_getLsbD_eq fun i hi => ?_
  rw [BitVec.getLsbD_setWidth, BitVec.getLsbD_setWidth, BitVec.getLsbD_and, getLsbD_emask h,
    decide_eq_true hi, Bool.and_true]

theorem setWidth_get (h : w ≤ 64) (v : U128) (k : Nat) : (get v k w).setWidth w = lane w v k := by
  rw [get_eq h, BitVec.setWidth_setWidth_of_le _ h, BitVec.setWidth_eq]

theorem ext_get (h : w ≤ 64) (v : U128) (k : Nat) (unsigned : Bool) :
    ext (get v k w) w unsigned =
      if unsigned then ((lane w v k).toNat : Int) else (lane w v k).toInt := by
  rw [ext_eq h, value, setWidth_get h]

theorem ext_get_bounds (h : w ≤ 64) (v : U128) (k : Nat) (unsigned : Bool) :
    -2 ^ 64 ≤ ext (get v k w) w unsigned ∧ ext (get v k w) w unsigned < 2 ^ 64 := by
  rw [ext_eq h]
  obtain ⟨hlo, hhi⟩ := @value_mem w unsigned (get v k w)
  have hle : (2 : Int) ^ w ≤ 2 ^ 64 := pow_le_pow_right₀ (by decide) h
  have hle' : (2 : Int) ^ (w - 1) ≤ 2 ^ 64 := pow_le_pow_right₀ (by decide) (by omega)
  constructor
  · refine le_trans ?_ hlo
    rw [elementMin]
    split <;> omega
  · refine lt_of_le_of_lt hhi ?_
    rw [elementMax]
    split <;> omega

/-- An element of a shift to the right. -/
theorem exists_rightElement (h : w ≤ 64) (hpos : 0 < s) (hs : s ≤ 64) (opcode : Nat) (n d : U128)
    (i : Nat) : ∃ v, rightElement u opcode w s n d i = some v ∧
      v.setWidth w = exactRight w s u (opcode &&& 0b00100 != 0) (opcode &&& 0b00010 != 0)
        (lane w n i) (lane w d i) := by
  obtain ⟨hlo, hhi⟩ := ext_get_bounds h n i u
  refine ⟨_, by rw [rightElement, shiftRight_eq hpos hs hlo hhi]; rfl, ?_⟩
  rw [exactRight_eq, setWidth_and_emask h, ext_get h, ← setWidth_ofInt h]
  generalize BitVec.ofInt 64 _ = y
  by_cases hacc : (opcode &&& 0b00010 != 0) = true
  · rw [if_pos hacc, if_pos hacc, BitVec.setWidth_add _ _ h, setWidth_get h, BitVec.add_comm]
  · rw [if_neg hacc, if_neg hacc, BitVec.ofNat_eq_ofNat, BitVec.zero_add]

theorem setWidth_sriElement (h : w ≤ 64) (n d : U128) (i : Nat) :
    (sriElement w s n d i).setWidth w =
      (lane w d i &&& ~~~(BitVec.allOnes w >>> s)) ||| (lane w n i >>> s) := by
  refine BitVec.eq_of_getLsbD_eq fun j hj => ?_
  have hmask : (if w ≤ s then 0#64 else emask w >>> s).getLsbD j = decide (s + j < w) := by
    split_ifs with hle
    · rw [BitVec.getLsbD_zero, decide_eq_false (by omega : ¬ s + j < w)]
    · rw [BitVec.getLsbD_ushiftRight, getLsbD_emask h]
  have hsh : (if 64 ≤ s then 0#64 else get n i w >>> s).getLsbD j = (get n i w).getLsbD (s + j) := by
    split_ifs with hle
    · rw [BitVec.getLsbD_zero, BitVec.getLsbD_of_ge _ _ (by omega)]
    · rw [BitVec.getLsbD_ushiftRight]
  rw [sriElement, BitVec.getLsbD_setWidth, decide_eq_true hj, Bool.true_and, BitVec.getLsbD_or,
    BitVec.getLsbD_and, BitVec.getLsbD_not, BitVec.getLsbD_and, hmask, hsh, BitVec.getLsbD_or,
    BitVec.getLsbD_and, BitVec.getLsbD_not, BitVec.getLsbD_ushiftRight, BitVec.getLsbD_ushiftRight,
    BitVec.getLsbD_allOnes, decide_eq_true hj, decide_eq_true (by omega : j < 64), get_eq h,
    get_eq h, BitVec.getLsbD_setWidth, BitVec.getLsbD_setWidth, decide_eq_true (by omega : j < 64)]
  by_cases hin : s + j < w
  · simp [hin, (by omega : s + j < 64)]
  · rw [BitVec.getLsbD_of_ge (lane w n i) _ (by omega)]
    simp [hin]

theorem setWidth_shlElement (h : w ≤ 64) (n d : U128) (i : Nat) :
    (shlElement u w s n d i).setWidth w =
      if u then (lane w d i &&& ~~~(BitVec.allOnes w <<< s)) ||| (lane w n i <<< s)
      else lane w n i <<< s := by
  have hsh : ((get n i w <<< s) &&& emask w).setWidth w = lane w n i <<< s := by
    rw [setWidth_and_emask h, get_eq h]
    refine BitVec.eq_of_getLsbD_eq fun j hj => ?_
    rw [BitVec.getLsbD_setWidth, BitVec.getLsbD_shiftLeft, BitVec.getLsbD_setWidth,
      BitVec.getLsbD_shiftLeft, decide_eq_true hj, decide_eq_true (by omega : j < 64),
      decide_eq_true (by omega : j - s < 64), Bool.true_and, Bool.true_and, Bool.true_and]
  rw [shlElement]
  dsimp only
  cases u with
  | false => exact hsh
  | true =>
    rw [if_pos rfl, if_pos rfl, BitVec.setWidth_or, hsh]
    congr 1
    refine BitVec.eq_of_getLsbD_eq fun j hj => ?_
    rw [BitVec.getLsbD_setWidth, BitVec.getLsbD_and, BitVec.getLsbD_not, BitVec.getLsbD_and,
      BitVec.getLsbD_shiftLeft, getLsbD_emask h, getLsbD_emask h, get_eq h, BitVec.getLsbD_setWidth,
      BitVec.getLsbD_and, BitVec.getLsbD_not, BitVec.getLsbD_shiftLeft, BitVec.getLsbD_allOnes,
      decide_eq_true hj, decide_eq_true (by omega : j < 64)]
    simp

theorem narrowShiftElement_eq (h : 2 * w ≤ 64) (hpos : 0 < s) (hs : s ≤ 64) (n : U128) (i : Nat)
    (st : St) : narrowShiftElement false 0b10000 w s n i st =
      some (((lane (2 * w) n i >>> s).setWidth w).setWidth 64, st) := by
  obtain ⟨hlo, hhi⟩ := ext_get_bounds h n i true
  rw [narrowShiftElement]
  change (shiftRight (ext (get n i (2 * w)) (2 * w) true) s false).bind _ = _
  rw [shiftRight_eq hpos hs hlo hhi, ext_get h, if_pos rfl]
  change some (low _ w, st) = _
  rw [low_eq (by omega), roundConst, if_neg Bool.false_ne_true, add_zero]
  refine congrArg (fun y : BitVec w => some (y.setWidth 64, st)) ?_
  have hcast (x : Nat) : (x : Int) / 2 ^ s % ((2 ^ w : Nat) : Int) =
      ((x / 2 ^ s % 2 ^ w : Nat) : Int) := by push_cast; rfl
  refine BitVec.eq_of_toNat_eq ?_
  rw [BitVec.toNat_ofInt, BitVec.toNat_setWidth, BitVec.toNat_ushiftRight,
    Nat.shiftRight_eq_div_pow, hcast, Int.toNat_natCast]

/-- The half that is widened. -/
theorem lane_half (q : Bool) (n : U128) (hdvd : w ∣ 64) {i : Nat} (hi : i < 64 / w) :
    lane w (if q then n >>> 64 else n &&& 0xFFFFFFFFFFFFFFFF#128) i =
      lane w n (i + if q then 64 / w else 0) := by
  obtain ⟨c, hc⟩ := hdvd
  have hw : 0 < w := Nat.pos_of_ne_zero fun h0 => by simp [h0] at hc
  have hdiv : 64 / w = c := by rw [hc, Nat.mul_div_cancel_left c hw]
  have hin : w * i + w ≤ w * c := Nat.mul_le_mul_left w (hdiv ▸ hi)
  rw [← hc] at hin
  rw [hdiv]
  refine BitVec.eq_of_getLsbD_eq fun j hj => ?_
  cases q with
  | true =>
    rw [if_pos rfl, if_pos rfl, getLsbD_lane, getLsbD_lane, BitVec.getLsbD_ushiftRight, Nat.mul_add,
      ← hc, (by omega : 64 + (w * i + j) = w * i + 64 + j)]
  | false =>
    have hmask : (0xFFFFFFFFFFFFFFFF#128 : U128) = (1#128 <<< 64) - 1#128 := by decide
    rw [if_neg Bool.false_ne_true, if_neg Bool.false_ne_true, hmask, and_lowMask (by decide),
      getLsbD_lane, getLsbD_lane, BitVec.getLsbD_setWidth, BitVec.getLsbD_setWidth,
      decide_eq_true (by omega : w * i + j < 64), decide_eq_true (by omega : w * i + j < 128),
      Bool.true_and, Bool.true_and, Nat.add_zero]

theorem setWidth_widenElement (h : 2 * w ≤ 64) (q : Bool) (n : U128) (hdvd : w ∣ 64) {i : Nat}
    (hi : i < 64 / w) : (widenElement u q w s n i).setWidth (2 * w) =
      (if u then (lane w n (i + if q then 64 / w else 0)).setWidth (2 * w)
        else (lane w n (i + if q then 64 / w else 0)).signExtend (2 * w)) <<< s := by
  have hshift (x : Int) : BitVec.ofInt (2 * w) (x <<< s) = BitVec.ofInt (2 * w) x <<< s := by
    rw [Int.shiftLeft_eq, BitVec.ofInt_mul, BitVec.shiftLeft_eq_mul_twoPow]
    congr 1
    refine BitVec.eq_of_toNat_eq ?_
    rw [BitVec.toNat_ofInt, BitVec.toNat_twoPow]
    norm_cast
  rw [widenElement, setWidth_ofInt h, ext_get (by omega), lane_half q n hdvd hi, hshift]
  congr 1
  cases u with
  | true =>
    rw [if_pos rfl, if_pos rfl]
    exact BitVec.eq_of_toNat_eq (by rw [BitVec.toNat_ofInt, BitVec.toNat_setWidth]; norm_cast)
  | false => rfl

end elements

/-! ## The whole vector -/

variable {insn : U32} {scalar : Bool} {form : ShiftForm}

theorem beq_one (b : Bool) : (b.toNat == 1) = b := by cases b <;> rfl

theorem not_shiftReserved (henc : form.Encodes insn) (hl : form.HasLanes insn scalar) :
    shiftReserved insn scalar = false := by
  obtain ⟨hz, hlanes⟩ := hl
  have hlong : (8 <<< immSize insn == 64) = decide (8 ≤ bits insn 19 4) := by
    rw [Bool.eq_iff_iff, beq_iff_eq, decide_eq_true_iff, (immFields insn hz).2.2.2]
  have hzero : (bits insn 19 4 == 0) = false := beq_eq_false_iff_ne.mpr hz
  have hplain (h : if scalar then 8 ≤ bits insn 19 4 else 8 ≤ bits insn 19 4 → bit insn 30 = 1)
      (p : Bool) : (!scalar && decide (8 ≤ bits insn 19 4) && !(bit insn 30 == 1)) = false ∧
        (scalar && p && !decide (8 ≤ bits insn 19 4)) = false := by
    cases scalar with
    | true => simp [show 8 ≤ bits insn 19 4 from h]
    | false =>
      by_cases hle : 8 ≤ bits insn 19 4
      · simp [hle, show bit insn 30 = 1 from h hle]
      · simp [hle]
  have hno : ¬ scalar → bits insn 19 4 < 8 → decide (8 ≤ bits insn 19 4) = false ∧ scalar = false :=
    fun h1 h2 => ⟨decide_eq_false (by omega), by simpa using h1⟩
  rw [shiftReserved, hlong, hzero]
  cases form with
  | right u r a =>
    obtain ⟨h1, h2⟩ := hplain hlanes (plainOk (bit insn 29 == 1) (bits insn 11 5))
    rw [h1, h2, henc.2]
    cases r <;> cases a <;> rfl
  | shl =>
    obtain ⟨h1, h2⟩ := hplain hlanes (plainOk (bit insn 29 == 1) (bits insn 11 5))
    rw [h1, h2, henc.2]
    rfl
  | insert up =>
    obtain ⟨h1, h2⟩ := hplain hlanes (plainOk (bit insn 29 == 1) (bits insn 11 5))
    rw [h1, h2, henc.2]
    cases up <;> rfl
  | narrow upper =>
    obtain ⟨h1, h2⟩ := hno (by simp [hlanes.1]) hlanes.2
    rw [h1, h2, henc.2.2]
    rfl
  | widen u =>
    obtain ⟨h1, h2⟩ := hno (by simp [hlanes.1]) hlanes.2
    rw [h1, h2, henc.2]
    rfl

theorem elements_eq (w : Nat) (q scalar : Bool) :
    (if scalar then 1 else (if q || scalar then 128 else 64) / w) = activeLanes w q scalar := by
  cases scalar
  · rw [activeLanes, Bool.or_false]
  · rfl

theorem width_cases {w : Nat} (h : w ∈ [8, 16, 32, 64]) : 0 < w ∧ w ≤ 64 ∧ w ∣ 64 := by
  simp only [List.mem_cons, List.not_mem_nil, or_false] at h
  rcases h with rfl | rfl | rfl | rfl <;> decide

theorem narrowInto_eq (q : Bool) (r : U64) (d : U128) :
    narrowInto q false r d = if q then (r ++ d.setWidth 64 : U128) else r.setWidth 128 := by
  have hmask : (0xFFFFFFFFFFFFFFFF#128 : U128) = (1#128 <<< 64) - 1#128 := by decide
  rw [narrowInto, if_neg Bool.false_ne_true, hmask, and_lowMask (by decide)]
  cases q with
  | false => rw [if_neg Bool.false_ne_true, if_neg Bool.false_ne_true]
  | true =>
    rw [if_pos rfl, if_pos rfl]
    refine BitVec.eq_of_getLsbD_eq fun i hi => ?_
    rw [BitVec.getLsbD_or, BitVec.getLsbD_setWidth, BitVec.getLsbD_shiftLeft,
      BitVec.getLsbD_setWidth, BitVec.getLsbD_append, BitVec.getLsbD_setWidth]
    by_cases hlow : i < 64
    · simp [hi, hlow]
    · simp [hi, hlow, (by omega : i - 64 < 128)]

/-- **The helper computes the shift**, and leaves FPSR alone. -/
theorem shiftImm_eq (fixedPoint : U32 → U128 → Bool → St → Option (U128 × St))
    (henc : form.Encodes insn) (hl : form.HasLanes insn scalar) (n d : U128) (st : St) :
    shiftImm fixedPoint insn n d scalar st =
      some (form.result (8 <<< immSize insn) (immValue insn) (bit insn 30 == 1) scalar n d, st) := by
  obtain ⟨hmem, hle, hlt, hlong⟩ := immFields insn hl.1
  rw [shiftImm, not_shiftReserved henc hl, if_neg Bool.false_ne_true, elements_eq]
  generalize hw : 8 <<< immSize insn = w at hmem hle hlt hlong
  generalize immValue insn = imm at hle hlt
  obtain ⟨hpos, hw64, hdvd⟩ := width_cases hmem
  cases form with
  | right u r a =>
    obtain ⟨hu, hop⟩ := henc
    rw [hu, beq_one, hop, if_pos (by cases r <;> cases a <;> decide)]
    choose v hv hlane using exists_rightElement (w := w) (s := 2 * w - imm) (u := u) hw64 (by omega)
      (by omega) (4 * r.toNat + 2 * a.toNat) n d
    rw [setElements_eq hpos hw64 (v := v) (fun i st => by rw [hv]; rfl)]
    refine congrArg (fun g => some (ofLanes 128 w (upTo _ g), st)) (funext fun i => ?_)
    rw [hlane]
    cases r <;> cases a <;> rfl
  | shl =>
    obtain ⟨hu, hop⟩ := henc
    rw [hu, hop, if_neg (by decide), if_neg (by decide), if_pos rfl,
      setElements_eq hpos hw64 (fun i st => rfl)]
    refine congrArg (fun g => some (ofLanes 128 w (upTo _ g), st)) (funext fun i => ?_)
    exact setWidth_shlElement hw64 n d i
  | insert up =>
    obtain ⟨hu, hop⟩ := henc
    cases up with
    | true =>
      rw [hu, hop, if_neg (by decide), if_neg (by decide), if_pos (by decide),
        setElements_eq hpos hw64 (fun i st => rfl)]
      refine congrArg (fun g => some (ofLanes 128 w (upTo _ g), st)) (funext fun i => ?_)
      exact setWidth_shlElement hw64 n d i
    | false =>
      rw [hu, hop, if_neg (by decide), if_pos (by decide),
        setElements_eq hpos hw64 (fun i st => rfl)]
      refine congrArg (fun g => some (ofLanes 128 w (upTo _ g), st)) (funext fun i => ?_)
      exact setWidth_sriElement hw64 n d i
  | narrow upper =>
    obtain ⟨hq, hu, hop⟩ := henc
    obtain ⟨hscalar, hshort⟩ := hl.2
    have hdouble : 2 * w ≤ 64 := by
      simp only [List.mem_cons, List.not_mem_nil, or_false] at hmem
      omega
    rw [hu, hop, hscalar, if_neg (by decide), if_neg (by decide), if_neg (by decide),
      if_neg (by decide), if_pos (by decide), if_neg (by decide), if_neg Bool.false_ne_true]
    change (orElements w (64 / w) (narrowShiftElement false 0b10000 w (2 * w - imm) n) st).map _ = _
    rw [orElements_eq hpos fun i st => narrowShiftElement_eq hdouble (by omega) (by omega) n i st]
    exact congrArg (fun r => some (r, st)) (narrowInto_eq _ _ d)
  | widen u =>
    obtain ⟨hu, hop⟩ := henc
    obtain ⟨hscalar, hshort⟩ := hl.2
    have hdouble : 2 * w ≤ 64 := by
      simp only [List.mem_cons, List.not_mem_nil, or_false] at hmem
      omega
    rw [hu, hop, hscalar, beq_one, if_neg (by decide), if_neg (by cases u <;> decide),
      if_neg (by decide), if_neg (by cases u <;> decide), if_neg (by decide), if_pos rfl,
      if_neg Bool.false_ne_true, setElements_eq (by omega) hdouble (fun i st => rfl)]
    refine congrArg (fun g => some (ofLanes 128 (2 * w) g, st)) (upTo_congr fun i hi => ?_)
    exact setWidth_widenElement hdouble _ n hdvd hi

end Rustarmic
