import Rustarmic.Interp.Rows

/-!
# The inline saturating operations

SQADD, UQADD, SQSUB and UQSUB, and SQXTN, UQXTN and SQXTUN, as the generated code calls them: the
operands as 64-bit halves, what to do in a mode word.  They agree with the out-of-line helpers in
the result and in FPSR.

* `SimdBinaryStatus.saturatingBinary`, `Saturating.narrow` — the two helpers.
* `satRow`, `satStatus` — what both sides compute: every active lane clamped, QC when one changed.
* `binaryAgrees`, `narrowAgrees` — both sides compute it; `saturating_agree` is the result.

Both implementations go through the lanes in a loop and keep a flag.  One ors clamped lanes into a
128-bit integer and sets QC at the end; the other one sets element after element and calls a
function that sets QC itself.  So neither is compared with the other one: each is shown to give
`satRow` and `satStatus`, which have no loop, by an induction on the number of lanes.

* **Mode words.**  Width, sign, operation and form are packed by the translator and unpacked by the
  helper (`saturatingMode_fields`, `narrowMode_fields`).
* **Arithmetic** is on 128-bit integers, which hold every sum of two lanes exactly
  (`exactBinary_fits`), so that clamping sees the exact value.
* **QC accumulates**: it is set when some lane was clamped and is never cleared.
-/

set_option autoImplicit false

namespace Rustarmic

open Checked Interp Lanes

/-- `Ord::clamp`. -/
def clamp (x min max : Int) : Int := if x < min then min else if max < x then max else x

/-- `low as u128 | (high as u128) << 64`. -/
def fromHalves (low high : U64) : U128 := low.setWidth 128 ||| (high.setWidth 128 <<< 64)

/-- FPSR.QC as the inline helpers write it. -/
def saturationBit : U32 := 1#32 <<< 27

namespace SimdBinaryStatus

/-- The value of one lane. -/
def laneValue (input : U128) (width : Nat) (unsigned : Bool) (lane : Nat) : Int :=
  let mask := (1#128 <<< width) - 1#128
  let raw := (input >>> (lane * width)) &&& mask
  if unsigned then raw.toInt else ((raw <<< (128 - width)).sshiftRight (128 - width)).toInt

/-- Sum or difference of two vectors; the halves of the result and the context's FPCR and FPSR. -/
def saturatingBinary (ctx : St) (nLow nHigh mLow mHigh mode : U64) :
    Option ((U64 × U64) × St) :=
  let width := 8 <<< (mode &&& 3#64).toNat
  let unsigned := mode &&& 4#64 != 0#64
  let subtract := mode &&& 8#64 != 0#64
  let q := mode &&& 16#64 != 0#64
  let scalar := mode &&& 32#64 != 0#64
  let n := fromHalves nLow nHigh
  let m := fromHalves mLow mHigh
  let mask := (1#128 <<< width) - 1#128
  let minimum : Int := if unsigned then 0 else -((1 : Int) <<< (width - 1))
  let maximum : Int := if unsigned then mask.toInt else ((1 : Int) <<< (width - 1)) - 1
  let lanes := if scalar then 1 else (if q then 128 else 64) / width
  ((List.range lanes).foldlM
    (fun (acc : U128 × Bool) lane =>
      let a := laneValue n width unsigned lane
      let b := laneValue m width unsigned lane
      (i128 (if subtract then a - b else a + b)).map fun mathematical =>
        let clamped := clamp mathematical minimum maximum
        (acc.1 ||| ((BitVec.ofInt 128 clamped &&& mask) <<< (lane * width)),
          acc.2 || mathematical != clamped))
    (0#128, false)).map fun (result, saturated) =>
  ((result.setWidth 64, (result >>> 64).setWidth 64),
    if saturated then ctx.raise saturationBit else ctx)

/-- The mode word of an instruction; `unsigned` and `subtract` say which one it is. -/
def saturatingMode (raw : U32) (scalar unsigned subtract : Bool) : U64 :=
  BitVec.ofNat 64 (bits raw 22 2) ||| (u64OfBool unsigned <<< 2) ||| (u64OfBool subtract <<< 3) |||
    (u64OfBool (bit raw 30 != 0) <<< 4) ||| (u64OfBool scalar <<< 5)

end SimdBinaryStatus

namespace Saturating

/-- The low half of the narrowed vector, and the context's FPCR and FPSR. -/
def narrow (ctx : St) (low high mode : U64) : U64 × St :=
  let width := 8 <<< (mode &&& 3#64).toNat
  let sourceWidth := width * 2
  let kind := ((mode >>> 2) &&& 3#64).toNat
  let scalar := mode &&& 16#64 != 0#64
  let source := fromHalves low high
  let sourceMask := (1#128 <<< sourceWidth) - 1#128
  let destinationMask := (1#64 <<< width) - 1#64
  let min : Int := if kind = 0 then -((1 : Int) <<< (width - 1)) else 0
  let max : Int := if kind = 0 then ((1 : Int) <<< (width - 1)) - 1 else destinationMask.toNat
  let acc :=
    (List.range (if scalar then 1 else 64 / width)).foldl
      (fun (acc : U64 × Bool) lane =>
        let element := (source >>> (lane * sourceWidth)) &&& sourceMask
        let value :=
          if kind = 1 then element.toInt
          else ((element <<< (128 - sourceWidth)).sshiftRight (128 - sourceWidth)).toInt
        let clamped := clamp value min max
        (acc.1 ||| ((BitVec.ofInt 64 clamped &&& destinationMask) <<< (lane * width)),
          acc.2 || clamped != value))
      (0#64, false)
  (acc.1, if acc.2 then ctx.raise saturationBit else ctx)

/-- The mode word of an instruction; `kind` is 0 from signed to signed, 1 from unsigned to unsigned,
2 from signed to unsigned. -/
def narrowMode (raw : U32) (scalar : Bool) (kind : Nat) : U64 :=
  BitVec.ofNat 64 (bits raw 22 2) ||| (BitVec.ofNat 64 kind <<< 2) ||| (u64OfBool scalar <<< 4)

end Saturating

/-! ## What both sides compute -/

/-- The first `active` lanes clamped. -/
def satRow (n w active : Nat) (unsigned : Bool) (f : Nat → Int) : BitVec n :=
  ofLanes n w (upTo active fun k => BitVec.ofInt w (clampTo w unsigned (f k)))

/-- Whether clamping changes one of the first `active` lanes. -/
def saturates (w active : Nat) (unsigned : Bool) (f : Nat → Int) : Bool :=
  (List.range active).any fun k => clampTo w unsigned (f k) != f k

def satStatus (w active : Nat) (unsigned : Bool) (f : Nat → Int) (st : St) : St :=
  if saturates w active unsigned f then st.sat else st

/-! ## Elements -/

/-- The value of lane `k` of a vector. -/
def elementValue (w : Nat) (unsigned : Bool) (v : U128) (k : Nat) : Int :=
  if unsigned then (lane w v k).toNat else (lane w v k).toInt

variable {w k : Nat} {unsigned : Bool}

theorem value_get (h : w ≤ 64) (v : U128) (k : Nat) :
    value (get v k w) w unsigned = elementValue w unsigned v k := by
  rw [value, get_eq h, BitVec.setWidth_setWidth_of_le _ h, BitVec.setWidth_eq, elementValue]

theorem laneValue_eq (h : w < 128) (v : U128) (k : Nat) :
    SimdBinaryStatus.laneValue v w unsigned k = elementValue w unsigned v k := by
  rw [SimdBinaryStatus.laneValue, elementValue, and_lowMask h, lane_eq_setWidth]
  cases unsigned with
  | true =>
    have hlt := (lane w v k).isLt
    have hpow : 2 ^ w ≤ 2 ^ 127 := Nat.pow_le_pow_right (by decide) (by omega)
    rw [if_pos rfl, if_pos rfl, BitVec.toInt_eq_toNat_cond, BitVec.toNat_setWidth,
      Nat.mod_eq_of_lt (by omega), if_pos (by omega)]
  | false =>
    rw [if_neg Bool.false_ne_true, if_neg Bool.false_ne_true,
      shiftLeft_sshiftRight (Nat.le_of_lt h), BitVec.setWidth_setWidth_of_le _ (Nat.le_of_lt h),
      BitVec.setWidth_eq, BitVec.toInt_signExtend_of_le (Nat.le_of_lt h)]

theorem value_bounds (h : w ≤ 64) (x : U64) :
    -2 ^ 64 ≤ value x w unsigned ∧ value x w unsigned < 2 ^ 64 := by
  obtain ⟨hlo, hhi⟩ := @value_mem w unsigned x
  have hle : (2 : Int) ^ w ≤ 2 ^ 64 := pow_le_pow_right₀ (by decide) h
  have hle' : (2 : Int) ^ (w - 1) ≤ 2 ^ 64 := pow_le_pow_right₀ (by decide) (by omega)
  have hmin : -2 ^ 64 ≤ elementMin w unsigned := by
    cases unsigned <;> simp only [elementMin, if_true, Bool.false_eq_true, if_false] <;> omega
  have hmax : elementMax w unsigned < 2 ^ 64 := by
    cases unsigned <;> simp only [elementMax, if_true, Bool.false_eq_true, if_false] <;> omega
  omega

theorem elementValue_bounds (h : w ≤ 64) (v : U128) (k : Nat) :
    -2 ^ 64 ≤ elementValue w unsigned v k ∧ elementValue w unsigned v k < 2 ^ 64 := by
  rw [← value_get h]
  exact value_bounds h _

theorem clamp_eq (w : Nat) (unsigned : Bool) (v : Int) :
    clamp v (elementMin w unsigned) (elementMax w unsigned) = clampTo w unsigned v := by
  have hle := elementMin_le_max w unsigned
  rw [clamp, clampTo]
  split_ifs <;> omega

/-! ## Rows -/

theorem saturates_succ (w active : Nat) (unsigned : Bool) (f : Nat → Int) :
    saturates w (active + 1) unsigned f =
      (saturates w active unsigned f || clampTo w unsigned (f active) != f active) := by
  rw [saturates, List.range_succ, List.any_append, saturates]
  simp

theorem satStatus_succ (w active : Nat) (unsigned : Bool) (f : Nat → Int) (st : St) :
    satStatus w (active + 1) unsigned f st =
      if clampTo w unsigned (f active) = f active then satStatus w active unsigned f st
      else (satStatus w active unsigned f st).sat := by
  rw [satStatus, saturates_succ, satStatus]
  cases saturates w active unsigned f with
  | true =>
    rw [Bool.true_or, if_pos rfl, St.sat, St.sat, St.raise_self, ite_self]
  | false =>
    rw [Bool.false_or, if_neg Bool.false_ne_true]
    by_cases h : clampTo w unsigned (f active) = f active
    · simp [h]
    · simp [h]

theorem satRow_succ {n : Nat} (hw : 0 < w) (active : Nat) (f : Nat → Int) :
    satRow n w (active + 1) unsigned f = satRow n w active unsigned f |||
      ((BitVec.ofInt w (clampTo w unsigned (f active))).setWidth n <<< (active * w)) :=
  ofLanes_upTo_succ _ hw

/-- Elements that are computed clamped make up a row. -/
theorem setElements_row (hw : 0 < w) (h : w ≤ 64) {f : Nat → St → Option (U64 × St)}
    {x : Nat → Int} (hf : ∀ i st, f i st = Interp.sat (x i) w unsigned st) (active : Nat) (st : St) :
    setElements w active f st =
      some (satRow 128 w active unsigned x, satStatus w active unsigned x st) := by
  induction active with
  | zero =>
    rw [satRow, ofLanes_upTo_zero]
    rfl
  | succ k ih =>
    rw [setElements] at ih ⊢
    rw [foldlM_range_succ, ih, Option.bind_some, hf, sat_eq hw h, satStatus_succ, Option.map_some,
      satRow, set_row hw h, satRow]

theorem orElements_row (hw : 0 < w) (h : w ≤ 64) {f : Nat → St → Option (U64 × St)}
    {x : Nat → Int} (hf : ∀ i st, f i st = Interp.sat (x i) w unsigned st) (active : Nat) (st : St) :
    orElements w active f st =
      some (satRow 64 w active unsigned x, satStatus w active unsigned x st) := by
  induction active with
  | zero =>
    rw [satRow, ofLanes_upTo_zero]
    rfl
  | succ k ih =>
    rw [orElements] at ih ⊢
    rw [foldlM_range_succ, ih, Option.bind_some, hf, sat_eq hw h, satStatus_succ, Option.map_some,
      satRow_succ hw]

/-! ## Sums and differences -/

/-- The exact value of a lane. -/
def exactBinary (w : Nat) (unsigned subtract : Bool) (n m : U128) (k : Nat) : Int :=
  if subtract then elementValue w unsigned n k - elementValue w unsigned m k
  else elementValue w unsigned n k + elementValue w unsigned m k

theorem exactBinary_fits (h : w ≤ 64) (subtract : Bool) (n m : U128) (k : Nat) :
    i128 (exactBinary w unsigned subtract n m k) =
      some (exactBinary w unsigned subtract n m k) := by
  obtain ⟨h1, h2⟩ := @elementValue_bounds w unsigned h n k
  obtain ⟨h3, h4⟩ := @elementValue_bounds w unsigned h m k
  rw [exactBinary]
  split_ifs <;> exact i128_eq_some (by omega) (by omega)

theorem fromHalves_halves (v : U128) :
    fromHalves (v.setWidth 64) ((v >>> 64).setWidth 64) = v := by
  refine BitVec.eq_of_getLsbD_eq fun i hi => ?_
  rw [fromHalves, BitVec.getLsbD_or, BitVec.getLsbD_shiftLeft, BitVec.getLsbD_setWidth,
    BitVec.getLsbD_setWidth, BitVec.getLsbD_setWidth, BitVec.getLsbD_setWidth,
    BitVec.getLsbD_ushiftRight]
  by_cases hlow : i < 64
  · simp [hi, hlow]
  · have h1 : i - 64 < 64 := by omega
    have h2 : 64 + (i - 64) = i := by omega
    have h3 : i - 64 < 128 := by omega
    simp [hi, hlow, h1, h2, h3]

theorem width_bounds (raw : U32) : 0 < 8 <<< bits raw 22 2 ∧ 8 <<< bits raw 22 2 ≤ 64 := by
  have hsize := bits_lt raw 22 (by decide : 2 < 32)
  generalize bits raw 22 2 = size at hsize
  revert size
  decide

/-- What a mode word says. -/
theorem saturatingMode_fields (raw : U32) (scalar unsigned subtract : Bool) :
    (SimdBinaryStatus.saturatingMode raw scalar unsigned subtract &&& 3#64).toNat = bits raw 22 2 ∧
      (SimdBinaryStatus.saturatingMode raw scalar unsigned subtract &&& 4#64 != 0#64) = unsigned ∧
      (SimdBinaryStatus.saturatingMode raw scalar unsigned subtract &&& 8#64 != 0#64) = subtract ∧
      (SimdBinaryStatus.saturatingMode raw scalar unsigned subtract &&& 16#64 != 0#64) =
        (bit raw 30 != 0) ∧
      (SimdBinaryStatus.saturatingMode raw scalar unsigned subtract &&& 32#64 != 0#64) = scalar := by
  have hall : ∀ size < 4, ∀ scalar unsigned subtract q : Bool,
      let mode := BitVec.ofNat 64 size ||| (u64OfBool unsigned <<< 2) |||
        (u64OfBool subtract <<< 3) ||| (u64OfBool q <<< 4) ||| (u64OfBool scalar <<< 5)
      (mode &&& 3#64).toNat = size ∧ (mode &&& 4#64 != 0#64) = unsigned ∧
        (mode &&& 8#64 != 0#64) = subtract ∧ (mode &&& 16#64 != 0#64) = q ∧
        (mode &&& 32#64 != 0#64) = scalar := by decide
  exact hall _ (bits_lt raw 22 (by decide : 2 < 32)) scalar unsigned subtract _

theorem bounds_eq (h : w ≤ 64) :
    (if unsigned then 0 else -((1 : Int) <<< (w - 1))) = elementMin w unsigned ∧
      (if unsigned then ((1#128 <<< w) - 1#128).toInt else ((1 : Int) <<< (w - 1)) - 1) =
        elementMax w unsigned := by
  have hmask : ((1#128 <<< w) - 1#128).toInt = 2 ^ w - 1 := by
    have hpow : 2 ^ w ≤ 2 ^ 64 := Nat.pow_le_pow_right (by decide) h
    have hpos := Nat.two_pow_pos w
    have hnat : ((1#128 <<< w) - 1#128).toNat = 2 ^ w - 1 := by
      rw [BitVec.toNat_sub, BitVec.toNat_shiftLeft, BitVec.toNat_one (by decide),
        Nat.shiftLeft_eq, Nat.one_mul, Nat.mod_eq_of_lt (by omega : 2 ^ w < 2 ^ 128)]
      omega
    rw [BitVec.toInt_eq_toNat_cond, hnat, if_pos (by omega : 2 * (2 ^ w - 1) < 2 ^ 128),
      Int.natCast_sub hpos]
    push_cast
    rfl
  rw [hmask, Int.shiftLeft_eq, one_mul]
  exact ⟨rfl, rfl⟩

/-- Lanes that are clamped one after the other make up a row, and say whether one changed. -/
theorem foldlM_row (hw : 0 < w) (x : Nat → Int) {g : U128 × Bool → Nat → Option (U128 × Bool)}
    (hg : ∀ acc k, g acc k =
      some (acc.1 ||| ((BitVec.ofInt w (clampTo w unsigned (x k))).setWidth 128 <<< (k * w)),
        acc.2 || clampTo w unsigned (x k) != x k)) (active : Nat) :
    (List.range active).foldlM g (0#128, false) =
      some (satRow 128 w active unsigned x, saturates w active unsigned x) := by
  induction active with
  | zero =>
    rw [satRow, ofLanes_upTo_zero]
    rfl
  | succ k ih =>
    rw [foldlM_range_succ, ih, Option.bind_some, hg, satRow_succ hw, saturates_succ]

theorem saturatingBinary_row (raw : U32) (n m : U128) (scalar unsigned subtract : Bool) (st : St) :
    let w := 8 <<< bits raw 22 2
    let active := activeLanes w (bit raw 30 != 0) scalar
    let x := exactBinary w unsigned subtract n m
    let row := satRow 128 w active unsigned x
    SimdBinaryStatus.saturatingBinary st (n.setWidth 64) ((n >>> 64).setWidth 64) (m.setWidth 64)
        ((m >>> 64).setWidth 64) (SimdBinaryStatus.saturatingMode raw scalar unsigned subtract) =
      some ((row.setWidth 64, (row >>> 64).setWidth 64), satStatus w active unsigned x st) := by
  obtain ⟨hsize, hunsigned, hsubtract, hq, hscalar⟩ :=
    saturatingMode_fields raw scalar unsigned subtract
  obtain ⟨hw, hle⟩ := width_bounds raw
  obtain ⟨hmin, hmax⟩ := @bounds_eq _ unsigned hle
  intro w active x row
  rw [SimdBinaryStatus.saturatingBinary]
  simp only [hsize, hunsigned, hsubtract, hq, hscalar, fromHalves_halves, hmin, hmax]
  rw [@foldlM_row _ unsigned hw x, Option.map_some]
  · simp only [row, active, w, activeLanes, satStatus, St.sat, saturationBit, qc]
  · intro acc k
    have hexact : (if subtract = true then
          SimdBinaryStatus.laneValue n w unsigned k - SimdBinaryStatus.laneValue m w unsigned k
        else SimdBinaryStatus.laneValue n w unsigned k + SimdBinaryStatus.laneValue m w unsigned k) =
        x k := by
      rw [laneValue_eq (by omega), laneValue_eq (by omega)]
      rfl
    rw [hexact, exactBinary_fits hle, Option.map_some, clamp_eq, and_lowMask (by omega),
      setWidth_ofInt (by omega), bne_comm]

/-- SQADD and its relatives, on one element. -/
theorem int3_saturating {size : Nat} (h : 8 <<< size ≤ 64) (subtract : Bool) (a b d : U64)
    (st : St) :
    int3 (if subtract then 0b00101 else 0b00001) unsigned size a b d st =
      Interp.sat (if subtract then value a (8 <<< size) unsigned - value b (8 <<< size) unsigned
        else value a (8 <<< size) unsigned + value b (8 <<< size) unsigned) (8 <<< size) unsigned
        st := by
  obtain ⟨h1, h2⟩ := @value_bounds _ unsigned h a
  obtain ⟨h3, h4⟩ := @value_bounds _ unsigned h b
  cases subtract with
  | true =>
    rw [if_pos rfl, if_pos rfl, int3, ext_eq h, ext_eq h, i128_eq_some (by omega) (by omega)]
    rfl
  | false =>
    rw [if_neg Bool.false_ne_true, if_neg Bool.false_ne_true, int3, ext_eq h, ext_eq h,
      i128_eq_some (by omega) (by omega)]
    rfl

section threeSame

variable {float : U32 → U128 → U128 → U128 → Bool → St → Option (U128 × St)} {insn : U32}
  {subtract : Bool}

/-- The scalar form computes the first element. -/
theorem threeSame_scalar (hop : bits insn 11 5 = if subtract then 0b00101 else 0b00001)
    (n m d : U128) (st : St) :
    threeSame float insn n m d true st =
      (int3 (if subtract then 0b00101 else 0b00001) (bit insn 29 == 1) (bits insn 22 2)
        (Interp.get n 0 (8 <<< bits insn 22 2)) (Interp.get m 0 (8 <<< bits insn 22 2))
        (Interp.get d 0 (8 <<< bits insn 22 2)) st).map fun v => (v.1.setWidth 128, v.2) := by
  rw [threeSame, hop]
  cases subtract <;> rfl

/-- The vector form computes every element, once it has asked whether there is an operation. -/
theorem threeSame_vector (hop : bits insn 11 5 = if subtract then 0b00101 else 0b00001)
    (n m d : U128) (st : St) :
    threeSame float insn n m d false st =
      if (bits insn 22 2 == 3 && !(bit insn 30 == 1 || false)) = true then none
      else
        (int3 (if subtract then 0b00101 else 0b00001) (bit insn 29 == 1) (bits insn 22 2) 0#64 0#64
          0#64 ⟨0#32, 0#32⟩).bind fun _ =>
        setElements (8 <<< bits insn 22 2)
          ((if (bit insn 30 == 1 || false) = true then 128 else 64) / 8 <<< bits insn 22 2)
          (fun i st => int3 (if subtract then 0b00101 else 0b00001) (bit insn 29 == 1)
            (bits insn 22 2) (Interp.get n i (8 <<< bits insn 22 2))
            (Interp.get m i (8 <<< bits insn 22 2)) (Interp.get d i (8 <<< bits insn 22 2)) st)
          st := by
  rw [threeSame, hop]
  cases subtract <;> simp

/-- The lanes of a vector in the out-of-line helper. -/
theorem threeSame_row (hop : bits insn 11 5 = if subtract then 0b00101 else 0b00001)
    (n m d : U128) (scalar : Bool) (st : St) :
    threeSame float insn n m d scalar st =
      if bits insn 22 2 = 3 ∧ bit insn 30 = 0 ∧ scalar = false then none
      else
        some (satRow 128 (8 <<< bits insn 22 2)
            (activeLanes (8 <<< bits insn 22 2) (bit insn 30 != 0) scalar) (bit insn 29 == 1)
            (exactBinary (8 <<< bits insn 22 2) (bit insn 29 == 1) subtract n m),
          satStatus (8 <<< bits insn 22 2)
            (activeLanes (8 <<< bits insn 22 2) (bit insn 30 != 0) scalar) (bit insn 29 == 1)
            (exactBinary (8 <<< bits insn 22 2) (bit insn 29 == 1) subtract n m) st) := by
  obtain ⟨hw, hle⟩ := width_bounds insn
  have helement (i : Nat) (st : St) : int3 (if subtract then 0b00101 else 0b00001)
      (bit insn 29 == 1) (bits insn 22 2) (Interp.get n i (8 <<< bits insn 22 2))
      (Interp.get m i (8 <<< bits insn 22 2)) (Interp.get d i (8 <<< bits insn 22 2)) st =
      Interp.sat (exactBinary (8 <<< bits insn 22 2) (bit insn 29 == 1) subtract n m i)
        (8 <<< bits insn 22 2) (bit insn 29 == 1) st := by
    rw [int3_saturating hle, value_get hle, value_get hle]
    rfl
  cases scalar with
  | true =>
    rw [if_neg (by simp), threeSame_scalar hop, helement, sat_eq hw hle, activeLanes, if_pos rfl,
      satRow_succ hw, satStatus_succ, satRow, ofLanes_upTo_zero, Option.map_some,
      setWidth_double hle, Nat.zero_mul, BitVec.shiftLeft_zero, BitVec.ofNat_eq_ofNat, BitVec.zero_or]
    rfl
  | false =>
    have hlanes : (if (bit insn 30 == 1 || false) = true then 128 else 64) / 8 <<< bits insn 22 2 =
        activeLanes (8 <<< bits insn 22 2) (bit insn 30 != 0) false := by
      rw [activeLanes]
      rcases bit_cases insn 30 with h | h <;> rw [h] <;> rfl
    rw [threeSame_vector hop, int3_saturating hle, sat_eq hw hle, Option.bind_some, hlanes,
      setElements_row hw hle helement]
    rcases bit_cases insn 30 with h | h <;> rw [h] <;> simp

end threeSame

/-! ## Narrowing -/

/-- The lanes that a narrowing computes. -/
def narrowLanes (w : Nat) (scalar : Bool) : Nat := if scalar then 1 else 64 / w

/-- What a mode word of a narrowing says. -/
theorem narrowMode_fields (raw : U32) (scalar : Bool) {kind : Nat} (hkind : kind < 3) :
    (Saturating.narrowMode raw scalar kind &&& 3#64).toNat = bits raw 22 2 ∧
      ((Saturating.narrowMode raw scalar kind >>> 2) &&& 3#64).toNat = kind ∧
      (Saturating.narrowMode raw scalar kind &&& 16#64 != 0#64) = scalar := by
  have hall : ∀ size < 4, ∀ kind < 3, ∀ scalar : Bool,
      let mode := BitVec.ofNat 64 size ||| (BitVec.ofNat 64 kind <<< 2) |||
        (u64OfBool scalar <<< 4)
      (mode &&& 3#64).toNat = size ∧ ((mode >>> 2) &&& 3#64).toNat = kind ∧
        (mode &&& 16#64 != 0#64) = scalar := by decide
  exact hall _ (bits_lt raw 22 (by decide : 2 < 32)) _ hkind scalar

/-- Lanes that are clamped into a 64-bit word. -/
theorem foldl_row (hw : 0 < w) (x : Nat → Int) {g : U64 × Bool → Nat → U64 × Bool}
    (hg : ∀ acc k, g acc k =
      (acc.1 ||| ((BitVec.ofInt w (clampTo w unsigned (x k))).setWidth 64 <<< (k * w)),
        acc.2 || clampTo w unsigned (x k) != x k)) (active : Nat) :
    (List.range active).foldl g (0#64, false) =
      (satRow 64 w active unsigned x, saturates w active unsigned x) := by
  induction active with
  | zero =>
    rw [satRow, ofLanes_upTo_zero]
    rfl
  | succ k ih =>
    rw [List.range_succ, List.foldl_append, List.foldl_cons, List.foldl_nil, ih, hg,
      satRow_succ hw, saturates_succ]

theorem narrow_width (raw : U32) (hsize : bits raw 22 2 ≠ 3) : 8 <<< bits raw 22 2 ≤ 32 := by
  have hlt := bits_lt raw 22 (by decide : 2 < 32)
  generalize bits raw 22 2 = size at hlt hsize
  revert size
  decide

theorem narrow_bounds (h : w ≤ 32) (kind : Nat) :
    (if kind = 0 then -((1 : Int) <<< (w - 1)) else 0) = elementMin w (kind != 0) ∧
      (if kind = 0 then ((1 : Int) <<< (w - 1)) - 1 else (((1#64 <<< w) - 1#64).toNat : Int)) =
        elementMax w (kind != 0) := by
  have hmask : (((1#64 <<< w) - 1#64).toNat : Int) = 2 ^ w - 1 := by
    have h64 : mask w = (1#64 <<< w) - 1#64 := by rw [mask, if_neg (by omega)]
    rw [← h64, toNat_mask (by omega), Int.natCast_sub (Nat.two_pow_pos w)]
    push_cast
    rfl
  rw [hmask, Int.shiftLeft_eq, one_mul, elementMin, elementMax]
  by_cases hkind : kind = 0
  · subst hkind
    exact ⟨rfl, rfl⟩
  · simp [hkind]

/-- The inline narrowing: a source lane is unsigned for kind 1, a result lane for kinds 1 and 2. -/
theorem narrow_row (raw : U32) (n : U128) (scalar : Bool) {kind : Nat} (hkind : kind < 3)
    (hsize : bits raw 22 2 ≠ 3) (st : St) :
    Saturating.narrow st (n.setWidth 64) ((n >>> 64).setWidth 64)
        (Saturating.narrowMode raw scalar kind) =
      (satRow 64 (8 <<< bits raw 22 2) (narrowLanes (8 <<< bits raw 22 2) scalar) (kind != 0)
          (elementValue (8 <<< bits raw 22 2 * 2) (kind == 1) n),
        satStatus (8 <<< bits raw 22 2) (narrowLanes (8 <<< bits raw 22 2) scalar) (kind != 0)
          (elementValue (8 <<< bits raw 22 2 * 2) (kind == 1) n) st) := by
  obtain ⟨hmode, hkind', hscalar⟩ := narrowMode_fields raw scalar hkind
  obtain ⟨hw, -⟩ := width_bounds raw
  have hle := narrow_width raw hsize
  rw [Saturating.narrow, hmode, hkind', hscalar, fromHalves_halves]
  generalize 8 <<< bits raw 22 2 = w at hw hle ⊢
  obtain ⟨hmin, hmax⟩ := narrow_bounds hle kind
  dsimp only
  rw [hmin, hmax, @foldl_row _ (kind != 0) hw (elementValue (w * 2) (kind == 1) n)]
  · simp only [satStatus, St.sat, narrowLanes, saturationBit, qc]
    rfl
  · intro acc k
    have hvalue : (if kind = 1 then
          ((n >>> (k * (w * 2))) &&& ((1#128 <<< (w * 2)) - 1#128)).toInt
        else (((n >>> (k * (w * 2))) &&& ((1#128 <<< (w * 2)) - 1#128)) <<<
          (128 - w * 2)).sshiftRight (128 - w * 2) |>.toInt) =
        elementValue (w * 2) (kind == 1) n k := by
      rw [← laneValue_eq (by omega), SimdBinaryStatus.laneValue]
      by_cases h : kind = 1 <;> simp [h]
    rw [hvalue, clamp_eq, and_lowMask (by omega), setWidth_ofInt (by omega)]

/-- The kind of a narrowing instruction: from signed to unsigned for SQXTUN. -/
def narrowKind (u : Bool) (opcode : Nat) : Nat :=
  if opcode = 0b10010 then 2 else if u then 1 else 0

section twoRegMisc

variable {other : U32 → U128 → U128 → Bool → St → Option (U128 × St)} {insn : U32}

/-- SQXTN and UQXTN, or SQXTUN. -/
def Narrows (insn : U32) : Prop :=
  bits insn 12 5 = 0b10100 ∨ bits insn 12 5 = 0b10010 ∧ bit insn 29 = 1

theorem twoRegMisc_narrows (hop : Narrows insn) (n d : U128) (scalar : Bool) (st : St) :
    twoRegMisc other insn n d scalar st =
      if bits insn 22 2 = 3 then none
      else
        (orElements (8 <<< bits insn 22 2) (narrowLanes (8 <<< bits insn 22 2) scalar)
          (fun i st => narrowElement (bit insn 29 == 1) (bits insn 12 5) (8 <<< bits insn 22 2)
            (Interp.get n i (2 * 8 <<< bits insn 22 2)) st) st).map fun acc =>
          (narrowInto (bit insn 30 == 1) scalar acc.1 d, acc.2) := by
  rw [twoRegMisc]
  rcases hop with h | ⟨h, hu⟩
  · by_cases hsize : bits insn 22 2 = 3 <;> cases scalar <;> simp [h, hsize, narrowLanes]
  · by_cases hsize : bits insn 22 2 = 3 <;> cases scalar <;> simp [h, hu, hsize, narrowLanes]

theorem narrowElement_eq (hop : Narrows insn) {w : Nat} (hw : 2 * w ≤ 64) (n : U128) (i : Nat)
    (st : St) :
    narrowElement (bit insn 29 == 1) (bits insn 12 5) w (Interp.get n i (2 * w)) st =
      Interp.sat (elementValue (2 * w)
          (narrowKind (bit insn 29 == 1) (bits insn 12 5) == 1) n i) w
        (narrowKind (bit insn 29 == 1) (bits insn 12 5) != 0) st := by
  have hvalue (unsigned : Bool) :
      ext (Interp.get n i (2 * w)) (2 * w) unsigned = elementValue (2 * w) unsigned n i := by
    rw [ext_eq hw, value_get hw]
  rcases hop with h | ⟨h, hu⟩
  · rw [h]
    rcases bit_cases insn 29 with hu | hu <;> rw [hu, ← hvalue] <;> rfl
  · rw [h, hu, ← hvalue]
    rfl

/-- The lanes of a narrowed vector in the out-of-line helper. -/
theorem twoRegMisc_row (hop : Narrows insn) (n d : U128) (scalar : Bool) (st : St) :
    let kind := narrowKind (bit insn 29 == 1) (bits insn 12 5)
    let w := 8 <<< bits insn 22 2
    let x := elementValue (w * 2) (kind == 1) n
    twoRegMisc other insn n d scalar st =
      if bits insn 22 2 = 3 then none
      else
        some (narrowInto (bit insn 30 == 1) scalar
            (satRow 64 w (narrowLanes w scalar) (kind != 0) x) d,
          satStatus w (narrowLanes w scalar) (kind != 0) x st) := by
  obtain ⟨hw, hle⟩ := width_bounds insn
  intro kind w x
  rw [twoRegMisc_narrows hop]
  split_ifs with hsize
  · rfl
  · have hle' := narrow_width insn hsize
    rw [orElements_row hw hle (narrowElement_eq hop (by omega) n), Option.map_some,
      Nat.mul_comm 2]

end twoRegMisc

/-! ## Main results -/

/-- The inline sum or difference, its halves put together. -/
def inlineBinary (insn : U32) (n m : U128) (scalar subtract : Bool) (st : St) :
    Option (U128 × St) :=
  (SimdBinaryStatus.saturatingBinary st (n.setWidth 64) ((n >>> 64).setWidth 64) (m.setWidth 64)
      ((m >>> 64).setWidth 64)
      (SimdBinaryStatus.saturatingMode insn scalar (bit insn 29 == 1) subtract)).map fun r =>
    (fromHalves r.1.1 r.1.2, r.2)

/-- The inline and the out-of-line sum or difference agree, and compute every active lane clamped;
the one encoding the helper refuses, 64-bit lanes without Q, is the one the translator refuses. -/
def BinaryAgrees (float : U32 → U128 → U128 → U128 → Bool → St → Option (U128 × St)) (insn : U32)
    (n m d : U128) (scalar subtract : Bool) (st : St) : Prop :=
  let unsigned := bit insn 29 == 1
  let w := 8 <<< bits insn 22 2
  let active := activeLanes w (bit insn 30 != 0) scalar
  let x := exactBinary w unsigned subtract n m
  threeSame float insn n m d scalar st =
      (if bits insn 22 2 = 3 ∧ bit insn 30 = 0 ∧ scalar = false then none
      else inlineBinary insn n m scalar subtract st) ∧
    inlineBinary insn n m scalar subtract st =
      some (satRow 128 w active unsigned x, satStatus w active unsigned x st)

/-- The inline and the out-of-line narrowing agree, and compute every active lane clamped; the
translator refuses the size the helper refuses. -/
def NarrowAgrees (other : U32 → U128 → U128 → Bool → St → Option (U128 × St)) (insn : U32)
    (n d : U128) (scalar : Bool) (st : St) : Prop :=
  let kind := narrowKind (bit insn 29 == 1) (bits insn 12 5)
  let w := 8 <<< bits insn 22 2
  let x := elementValue (w * 2) (kind == 1) n
  let inline := Saturating.narrow st (n.setWidth 64) ((n >>> 64).setWidth 64)
    (Saturating.narrowMode insn scalar kind)
  twoRegMisc other insn n d scalar st =
      (if bits insn 22 2 = 3 then none
      else some (narrowInto (bit insn 30 == 1) scalar inline.1 d, inline.2)) ∧
    (bits insn 22 2 ≠ 3 →
      inline = (satRow 64 w (narrowLanes w scalar) (kind != 0) x,
        satStatus w (narrowLanes w scalar) (kind != 0) x st))

theorem binaryAgrees {float : U32 → U128 → U128 → U128 → Bool → St → Option (U128 × St)}
    {insn : U32} {subtract : Bool} (hop : bits insn 11 5 = if subtract then 0b00101 else 0b00001)
    (n m d : U128) (scalar : Bool) (st : St) :
    BinaryAgrees float insn n m d scalar subtract st := by
  have hinline := congrArg (Option.map fun r : (U64 × U64) × St => (fromHalves r.1.1 r.1.2, r.2))
    (saturatingBinary_row insn n m scalar (bit insn 29 == 1) subtract st)
  rw [Option.map_some, fromHalves_halves] at hinline
  refine ⟨?_, hinline⟩
  rw [threeSame_row hop, inlineBinary, hinline]

theorem narrowAgrees {other : U32 → U128 → U128 → Bool → St → Option (U128 × St)} {insn : U32}
    (hop : Narrows insn) (n d : U128) (scalar : Bool) (st : St) :
    NarrowAgrees other insn n d scalar st := by
  have hkind : narrowKind (bit insn 29 == 1) (bits insn 12 5) < 3 := by
    rw [narrowKind]
    split_ifs <;> decide
  refine ⟨?_, fun hsize => narrow_row insn n scalar hkind hsize st⟩
  rw [twoRegMisc_row hop]
  split_ifs with hsize
  · rfl
  · rw [narrow_row insn n scalar hkind hsize st]

/-- **The inline and the out-of-line saturating operations agree**, in every lane and in FPSR.  QC
is set exactly when clamping changes an active lane, and no other status bit changes. -/
theorem saturating_agree :
    (∀ float insn n m d scalar subtract st,
      bits insn 11 5 = (if subtract then 0b00101 else 0b00001) →
        BinaryAgrees float insn n m d scalar subtract st) ∧
      ∀ other insn n d scalar st, Narrows insn → NarrowAgrees other insn n d scalar st :=
  ⟨fun _ _ n m d scalar _ st hop => binaryAgrees hop n m d scalar st,
    fun _ _ n d scalar st hop => narrowAgrees hop n d scalar st⟩

/-- `SQADD V0.16B, V0.16B, V0.16B` and `SQXTUN V0.8B, V0.8H`. -/
theorem saturating_agree_bytes :
    BinaryAgrees (fun _ _ _ _ _ _ => none) 0x4E200C00 (0x7F#128) (0x01#128) 0#128 false false
        ⟨0, 0⟩ ∧
      NarrowAgrees (fun _ _ _ _ _ => none) 0x2E212800 (0x100#128) 0#128 false ⟨0, 0⟩ :=
  ⟨saturating_agree.1 _ 0x4E200C00 _ _ _ _ false _ (by decide),
    saturating_agree.2 _ 0x2E212800 _ _ _ _ (.inr (by decide))⟩

end Rustarmic
