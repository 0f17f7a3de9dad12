import Rustarmic.Interp.Compare

/-!
# The inline maximum and minimum

The generated code selects the larger or smaller operand with integer comparisons of the encodings:
one helper for singles, which the across-lane reductions also use, and one for doubles with number
preference.

* `FpReduce.pair`, `FpMinmaxNumber.double` — the helpers.
* `select` — both of them, by the fields of the operands.
* `minMax_agree_iff` — where they agree with the instruction helper.

Encodings are in the order of the numbers they stand for if they are positive, and in the opposite
order if they are negative.  A key turns them into integers whose order is the right one throughout:
the complement of a negative encoding and a positive one moved up by half of the range
(`keyOf_lt_iff`).  The two zeros are different integers, and a maximum of both has to be the
positive one, which the key gets right by itself.

**The order of the checks is what differs.**  These helpers flush both operands first and then look
for NaNs; the instruction helper looks for NaNs first and returns, so that a denormal beside a NaN
is never reported there.  `missed` says when that happens, and `report` adds it to the status.  With
that the two are equal for all operands (`select_eq`), and the exact condition of agreement follows:
nothing is missed, or IDC was set before.
-/

set_option autoImplicit false

namespace Rustarmic

open Interp

namespace FpReduce

def sign : U32 := 0x80000000#32

def infinity : U32 := 0x7F800000#32

def quiet : U32 := 0x00400000#32

def defaultNan : U32 := infinity ||| quiet

/-- Flush a denormal under FPCR.FZ; the operand and the status. -/
def unpack (value fpcr status : U32) : U32 × U32 :=
  if fpcr &&& (1#32 <<< 24) ≠ 0#32 ∧ value &&& infinity = 0#32 ∧ value &&& 0x007FFFFF#32 ≠ 0#32 then
    (value &&& sign, status ||| (1#32 <<< 7))
  else (value, status)

/-- A key whose order is the order of the numbers. -/
def key (value : U32) : U32 := if value &&& sign ≠ 0#32 then ~~~value else value ^^^ sign

/-- The selected operand and the status. -/
def pair (n m : U32) (minimum numeric : Bool) (fpcr status : U32) : U32 × U32 :=
  let (n, status) := unpack n fpcr status
  let (m, status) := unpack m fpcr status
  let nNan := decide (infinity < n &&& ~~~sign)
  let mNan := decide (infinity < m &&& ~~~sign)
  let nSignaling := nNan && n &&& quiet == 0#32
  let mSignaling := mNan && m &&& quiet == 0#32
  if nSignaling || mSignaling then
    let selected := if nSignaling then n else m
    (if fpcr &&& (1#32 <<< 25) ≠ 0#32 then defaultNan else selected ||| quiet, status ||| 1#32)
  else if nNan || mNan then
    if numeric && nNan != mNan then (if nNan then m else n, status)
    else
      let selected := if nNan then n else m
      (if fpcr &&& (1#32 <<< 25) ≠ 0#32 then defaultNan else selected, status)
  else if n &&& ~~~sign = 0#32 ∧ m &&& ~~~sign = 0#32 then
    (if minimum then (n ||| m) &&& sign else (n &&& m) &&& sign, status)
  else if decide (key n < key m) = minimum then (n, status)
  else (m, status)

end FpReduce

namespace FpMinmaxNumber

def sign : U64 := 0x8000000000000000#64

def infinity : U64 := 0x7FF0000000000000#64

def fraction : U64 := 0x000FFFFFFFFFFFFF#64

def quiet : U64 := 0x0008000000000000#64

def key (value : U64) : U64 := if value &&& sign ≠ 0#64 then ~~~value else value ^^^ sign

/-- Flush a denormal operand, when FPCR.FZ is set. -/
def flush (ctx : St) (value : U64) : U64 × St :=
  if value &&& infinity = 0#64 ∧ value &&& fraction ≠ 0#64 then
    (value &&& sign, ctx.raise (1#32 <<< 7))
  else (value, ctx)

/-- The selected double and the context's FPCR and FPSR. -/
def double (ctx : St) (n m minimum : U64) : U64 × St :=
  let fz := ctx.fpcr &&& (1#32 <<< 24) != 0#32
  let (n, ctx) := if fz then flush ctx n else (n, ctx)
  let (m, ctx) := if fz then flush ctx m else (m, ctx)
  let nNan := decide (infinity < n &&& ~~~sign)
  let mNan := decide (infinity < m &&& ~~~sign)
  let nSignaling := nNan && n &&& quiet == 0#64
  let mSignaling := mNan && m &&& quiet == 0#64
  if nSignaling || mSignaling then
    (if ctx.fpcr &&& (1#32 <<< 25) ≠ 0#32 then infinity ||| quiet
      else (if nSignaling then n else m) ||| quiet, ctx.raise 1#32)
  else if nNan || mNan then
    if nNan != mNan then (if nNan then m else n, ctx)
    else (if ctx.fpcr &&& (1#32 <<< 25) ≠ 0#32 then infinity ||| quiet else n, ctx)
  else if n &&& ~~~sign = 0#64 ∧ m &&& ~~~sign = 0#64 then
    (if minimum ≠ 0#64 then (n ||| m) &&& sign else (n &&& m) &&& sign, ctx)
  else if decide (key n < key m) = decide (minimum ≠ 0#64) then (n, ctx)
  else (m, ctx)

end FpMinmaxNumber

/-! ## By fields -/

/-- The selection both helpers make. -/
def select (f : Fmt) (a b : U64) (minimum numeric : Bool) (st : St) : U64 × St :=
  let (a, st) := flushIn f a st
  let (b, st) := flushIn f b st
  if f.isSnan a || f.isSnan b then
    (if st.dn then f.defaultNan else f.quiet (if f.isSnan a then a else b), st.raise ioc)
  else if f.isNan a || f.isNan b then
    if numeric && f.isNan a != f.isNan b then (if f.isNan a then b else a, st)
    else (if st.dn then f.defaultNan else if f.isNan a then a else b, st)
  else (pick f a b (!minimum), st)

/-- A denormal operand that the reference does not report: it stands beside a NaN, and the result is
that NaN. -/
def missed (f : Fmt) (a b : U64) (numeric : Bool) (st : St) : Bool :=
  st.fz && (f.isNan a && f.isDenormal b && !(numeric && !f.isSnan a) ||
    f.isDenormal a && f.isNan b && !(numeric && !f.isSnan b))

section Select

variable {f : Fmt} {a b x : U64} {minimum numeric : Bool} {st : St}

theorem quiet_of_not_isSnan (hn : f.isNan x = true) (hs : f.isSnan x = false) : f.quiet x = x := by
  have hb : f.fbits - 1 < 64 := by cases f <;> decide
  rw [Fmt.isSnan, hn, Bool.true_and, ← Bool.not_eq_true, Fmt.quietBit_iff] at hs
  have hbit : x.getLsbD (f.fbits - 1) = true := by
    rw [← BitVec.testBit_toNat, Nat.testBit_eq_decide_div_mod_eq]
    simp only [decide_eq_true_iff]
    omega
  refine BitVec.eq_of_getLsbD_eq fun i hi => ?_
  rw [Fmt.quiet, BitVec.getLsbD_or]
  by_cases h : i = f.fbits - 1
  · rw [h, hbit, Bool.true_or]
  · have : (1#64 <<< (f.fbits - 1)).getLsbD i = false := by
      rw [BitVec.getLsbD_shiftLeft, BitVec.getLsbD_one]
      simp
      omega
    rw [this, Bool.or_false]

theorem processNans_pair : processNans f [a, b] st =
    if f.isSnan a then some (processNan f a st)
    else if f.isSnan b then some (processNan f b st)
    else if f.isNan a then some (processNan f a st)
    else if f.isNan b then some (processNan f b st)
    else none := by
  rw [processNans]
  cases ha : f.isSnan a <;> cases hb : f.isSnan b <;> cases hna : f.isNan a <;>
    cases hnb : f.isNan b <;> simp [List.find?, ha, hb, hna, hnb]

theorem not_isSnan_of_not_isNan (h : f.isNan x = false) : f.isSnan x = false := by
  rw [Fmt.isSnan, h, Bool.false_and]

/-- The flush beside a NaN: a denormal there is only reported. -/
theorem flushIn_snd (hf : f ≠ .h) : (flushIn f x st).2 =
    if st.fz && f.isDenormal x then st.raise idc else st := by
  rw [flushIn]
  by_cases h : st.fz = true ∧ f.isDenormal x = true
  · rw [if_pos ⟨hf, h⟩, h.1, h.2]
    rfl
  · rw [if_neg (fun h' => h h'.2), if_neg]
    rwa [Bool.and_eq_true]

/-- A quiet NaN replaced by the infinity that loses to every number. -/
theorem pick_inf_left (hb : f.isNan b = false) (hbe : f.Encodes b) (max : Bool) :
    pick f (f.inf max) b max = b := by
  have hinf : f.low (f.inf max) ≠ 0 := by
    have := Fmt.fbits_pow_le_infLow f
    have := Nat.two_pow_pos f.fbits
    rw [Fmt.low_inf]
    omega
  rw [pick, if_neg (fun h => hinf h.1)]
  cases max
  · have := Fmt.units_le_inf hb
    rw [decide_eq_false this.not_gt]
    rfl
  · have hle := Fmt.inf_le_units hb
    rcases hle.lt_or_eq with hlt | heq
    · rw [decide_eq_true hlt]
      rfl
    · rw [Fmt.eq_of_units_eq (Fmt.encodes_inf _) hbe heq (fun h => hinf h.1), ite_self]

theorem pick_inf_right (ha : f.isNan a = false) (hae : f.Encodes a) (max : Bool) :
    pick f a (f.inf max) max = a := by
  have hinf : f.low (f.inf max) ≠ 0 := by
    have := Fmt.fbits_pow_le_infLow f
    have := Nat.two_pow_pos f.fbits
    rw [Fmt.low_inf]
    omega
  rw [pick, if_neg (fun h => hinf h.2)]
  cases max
  · have hle := Fmt.units_le_inf ha
    rcases hle.lt_or_eq with hlt | heq
    · rw [decide_eq_true hlt]
      rfl
    · rw [Fmt.eq_of_units_eq hae (Fmt.encodes_inf _) heq (fun h => hinf h.2), ite_self]
  · have := Fmt.inf_le_units ha
    rw [decide_eq_false this.not_gt]
    rfl

theorem fmaxmin_eq (max nm : Bool) : fmaxmin f a b max nm st =
    let qa := f.isNan a && !f.isSnan a
    let qb := f.isNan b && !f.isSnan b
    let a' := if nm && (qa && !qb) then f.inf max else a
    let b' := if nm && (!qa && qb) then f.inf max else b
    (processNans f [a', b'] st).getD (fmaxminNumbers f a' b' max st) := by
  rw [fmaxmin]
  dsimp only
  split
  case h_1 h => rw [h, Option.getD_some]
  case h_2 h => rw [h, Option.getD_none, fmaxminNumbers]

theorem processNan_snan (h : f.isSnan x = true) : processNan f x st =
    (if st.dn then f.defaultNan else f.quiet x, st.raise ioc) := by
  rw [processNan, if_pos h, St.raise_dn]

theorem processNan_qnan (hn : f.isNan x = true) (hs : f.isSnan x = false) : processNan f x st =
    (if st.dn then f.defaultNan else x, st) := by
  simp only [processNan, hs, Bool.false_eq_true, if_false, quiet_of_not_isSnan hn hs]

theorem not_isDenormal_of_isNan (h : f.isNan x = true) : f.isDenormal x = false := by
  rw [← Bool.not_eq_true]
  intro hden
  rw [Fmt.not_isNan_of_isDenormal hden] at h
  exact absurd h Bool.false_ne_true

theorem flushIn_inf (s : Bool) : flushIn f (f.inf s) st = (f.inf s, st) :=
  flushIn_of_not fun _ => Fmt.not_isDenormal_inf s

theorem isSnan_flushIn (h : f.isSnan x = false) : f.isSnan (flushIn f x st).1 = false := by
  cases hn : f.isNan x
  · exact not_isSnan_of_not_isNan (isNan_flushIn.trans hn)
  · rw [flushIn_of_isNan hn, h]

/-- The reference's result with the denormal it misses. -/
def report (missed : Bool) (r : U64 × St) : U64 × St :=
  (r.1, if missed then r.2.raise idc else r.2)

variable (hf : f ≠ .h)
include hf

theorem select_snan_left (ha : f.isSnan a = true) : select f a b minimum numeric st =
    report (missed f a b numeric st) (fmaxmin f a b (!minimum) numeric st) := by
  have hna := Fmt.isSnan_imp ha
  have hda := not_isDenormal_of_isNan hna
  rw [fmaxmin_eq, select, missed, report, flushIn_of_isNan hna]
  simp only [ha, hna, hda, Bool.not_true, Bool.and_false, Bool.false_and, Bool.not_false,
    Bool.true_and, Bool.true_or, if_true, Bool.or_false, processNans_pair, Bool.false_eq_true,
    if_false, Option.getD_some, processNan_snan ha, flushIn_snd hf, Bool.and_true]
  split
  · rw [St.raise_comm]
    rfl
  · rfl

theorem select_snan_right (ha : f.isSnan a = false) (hb : f.isSnan b = true) :
    select f a b minimum numeric st =
      report (missed f a b numeric st) (fmaxmin f a b (!minimum) numeric st) := by
  have hnb := Fmt.isSnan_imp hb
  have hdb := not_isDenormal_of_isNan hnb
  have hsa := @isSnan_flushIn f a st ha
  have ha' : f.isSnan (if (numeric && (f.isNan a && !f.isSnan a && !(f.isNan b && !f.isSnan b))) = true
      then f.inf (!minimum) else a) = false := by
    split
    · exact not_isSnan_of_not_isNan (Fmt.not_isNan_inf _)
    · exact ha
  rw [fmaxmin_eq, select, missed, report]
  dsimp only
  rw [flushIn_of_isNan hnb, processNans_pair, ha']
  simp only [hb, hnb, hdb, hsa, Bool.not_true, Bool.and_false, Bool.false_and, Bool.not_false,
    Bool.or_true, if_true, Bool.false_or, Bool.false_eq_true, if_false, Option.getD_some,
    processNan_snan hb, flushIn_snd hf, Bool.and_true]
  split
  · rw [St.raise_comm]
    rfl
  · rfl

omit hf in
theorem select_qnan_both (hna : f.isNan a = true) (hnb : f.isNan b = true)
    (ha : f.isSnan a = false) (hb : f.isSnan b = false) : select f a b minimum numeric st =
      report (missed f a b numeric st) (fmaxmin f a b (!minimum) numeric st) := by
  have hda := not_isDenormal_of_isNan hna
  have hdb := not_isDenormal_of_isNan hnb
  rw [fmaxmin_eq, select, missed, report, flushIn_of_isNan hna]
  dsimp only
  rw [flushIn_of_isNan hnb, processNans_pair]
  simp only [ha, hb, hna, hnb, hda, hdb, Bool.not_true, Bool.not_false, Bool.and_self,
    Bool.and_false, Bool.false_and, Bool.or_self, Bool.false_eq_true, if_false, if_true,
    bne_self_eq_false, Option.getD_some, processNan_qnan hna ha]

theorem select_qnan_left (hbe : f.Encodes b) (hna : f.isNan a = true) (hnb : f.isNan b = false)
    (ha : f.isSnan a = false) : select f a b minimum numeric st =
      report (missed f a b numeric st) (fmaxmin f a b (!minimum) numeric st) := by
  have hb := not_isSnan_of_not_isNan hnb
  have hda := not_isDenormal_of_isNan hna
  have hnb' := (@isNan_flushIn f b st).trans hnb
  have hinf := Fmt.not_isNan_inf (f := f) (!minimum)
  rw [fmaxmin_eq, select, missed, report, flushIn_of_isNan hna]
  dsimp only
  rw [isSnan_flushIn hb, hnb', processNans_pair]
  cases numeric
  · simp only [ha, hb, hna, hnb, hda, Bool.false_and, Bool.and_false, Bool.or_false, Bool.true_and,
      Bool.not_false, Bool.and_true, Bool.false_eq_true, if_false, if_true, Option.getD_some,
      processNan_qnan hna ha, flushIn_snd hf]
    split <;> rfl
  · have hsel := pick_inf_left hnb' (encodes_flushIn hbe) (!minimum)
    have hnum := @fmaxminNumbers_eq f _ _ (!minimum) st hf (Fmt.encodes_inf (!minimum)) hbe
      hinf hnb
    rw [flushIn_inf, hsel] at hnum
    simp only [ha, hb, hna, hnb, hda, not_isSnan_of_not_isNan hinf, hinf, hnum, Bool.and_false,
      Bool.or_false, Bool.true_and, Bool.not_false, Bool.not_true, Bool.and_true,
      Bool.false_eq_true, if_false, if_true, Option.getD_none, bne_iff_ne, ne_eq, not_false_eq_true,
      Bool.true_eq_false]

theorem select_qnan_right (hae : f.Encodes a) (hna : f.isNan a = false) (hnb : f.isNan b = true)
    (hb : f.isSnan b = false) : select f a b minimum numeric st =
      report (missed f a b numeric st) (fmaxmin f a b (!minimum) numeric st) := by
  have ha := not_isSnan_of_not_isNan hna
  have hdb := not_isDenormal_of_isNan hnb
  have hna' := (@isNan_flushIn f a st).trans hna
  have hinf := Fmt.not_isNan_inf (f := f) (!minimum)
  rw [fmaxmin_eq, select, missed, report]
  dsimp only
  rw [flushIn_of_isNan hnb, isSnan_flushIn ha, hna', processNans_pair]
  cases numeric
  · simp only [ha, hb, hna, hnb, hdb, Bool.false_and, Bool.and_false, Bool.or_false, Bool.false_or,
      Bool.not_false, Bool.and_true, Bool.false_eq_true, if_false, if_true, Option.getD_some,
      processNan_qnan hnb hb, flushIn_snd hf]
    split <;> rfl
  · have hsel := pick_inf_right hna' (encodes_flushIn hae) (!minimum)
    have hnum := @fmaxminNumbers_eq f _ _ (!minimum) st hf hae (Fmt.encodes_inf (!minimum))
      hna hinf
    rw [flushIn_inf, hsel] at hnum
    simp only [ha, hb, hna, hnb, hdb, not_isSnan_of_not_isNan hinf, hinf, hnum, Bool.and_false,
      Bool.or_false, Bool.false_or, Bool.not_false, Bool.not_true, Bool.and_true,
      Bool.false_eq_true, if_false, if_true, Option.getD_none, bne_iff_ne, ne_eq, not_false_eq_true,
      Bool.true_and]

theorem select_numbers (hae : f.Encodes a) (hbe : f.Encodes b) (hna : f.isNan a = false)
    (hnb : f.isNan b = false) : select f a b minimum numeric st =
      report (missed f a b numeric st) (fmaxmin f a b (!minimum) numeric st) := by
  have ha := not_isSnan_of_not_isNan hna
  have hb := not_isSnan_of_not_isNan hnb
  rw [fmaxmin_eq, select, missed, report]
  dsimp only
  rw [isSnan_flushIn ha, isSnan_flushIn hb, isNan_flushIn, isNan_flushIn, processNans_pair]
  simp only [ha, hb, hna, hnb, Bool.false_and, Bool.and_false, Bool.or_self, Bool.false_eq_true,
    if_false, Option.getD_none, fmaxminNumbers_eq hf hae hbe hna hnb]

/-- **The helpers select what the reference selects**, and report one denormal more. -/
theorem select_eq (hae : f.Encodes a) (hbe : f.Encodes b) : select f a b minimum numeric st =
    report (missed f a b numeric st) (fmaxmin f a b (!minimum) numeric st) := by
  cases ha : f.isSnan a
  case true => exact select_snan_left hf ha
  cases hb : f.isSnan b
  case true => exact select_snan_right hf ha hb
  cases hna : f.isNan a <;> cases hnb : f.isNan b
  case false.false => exact select_numbers hf hae hbe hna hnb
  case false.true => exact select_qnan_right hf hae hna hnb hb
  case true.false => exact select_qnan_left hf hbe hna hnb ha
  case true.true => exact select_qnan_both hna hnb ha hb

end Select

/-! ## Keys -/

section Key

variable {f : Fmt} {a b : U64}

/-- Complemented negative and offset positive encodings are in the order of the numbers. -/
def keyOf (f : Fmt) (x : U64) : Nat :=
  if f.sign x then 2 ^ (f.bits - 1) - 1 - f.low x else 2 ^ (f.bits - 1) + f.low x

theorem keyOf_lt_iff (hz : ¬(f.low a = 0 ∧ f.low b = 0)) :
    keyOf f a < keyOf f b ↔ f.units a < f.units b := by
  have ha := f.low_lt a
  have hb := f.low_lt b
  rw [← Fmt.bits_split] at ha hb
  rw [Fmt.units_lt_iff, keyOf, keyOf]
  generalize 2 ^ (f.bits - 1) = p at ha hb ⊢
  cases f.sign a <;> cases f.sign b <;> simp only [Bool.false_eq_true, if_false, if_true, iff_false] <;>
    omega

theorem xor_two_pow {x k : Nat} (h : x < 2 ^ k) : x ^^^ 2 ^ k = 2 ^ k + x := by
  have hdm := Nat.div_add_mod (x ^^^ 2 ^ k) (2 ^ k)
  rw [Nat.xor_div_two_pow, Nat.xor_mod_two_pow, Nat.div_self (Nat.two_pow_pos k), Nat.mod_self,
    Nat.xor_zero, Nat.mod_eq_of_lt h, Nat.div_eq_of_lt h, Nat.zero_xor, Nat.mul_one] at hdm
  exact hdm.symm

theorem sign_eq_getLsbD (x : U64) : f.sign x = x.getLsbD (f.bits - 1) := by
  rw [Bool.eq_iff_iff, Fmt.sign_iff, ← BitVec.testBit_toNat, Nat.testBit_eq_decide_div_mod_eq,
    decide_eq_true_iff]

theorem sign_or : f.sign (a ||| b) = (f.sign a || f.sign b) := by
  rw [sign_eq_getLsbD, sign_eq_getLsbD, sign_eq_getLsbD, BitVec.getLsbD_or]

theorem sign_and : f.sign (a &&& b) = (f.sign a && f.sign b) := by
  rw [sign_eq_getLsbD, sign_eq_getLsbD, sign_eq_getLsbD, BitVec.getLsbD_and]

end Key

/-! ## Singles -/

namespace FpReduce

variable (n m : U32)

/-- A single as a 64-bit word. -/
def word (n : U32) : U64 := n.setWidth 64

theorem toNat_word : (word n).toNat = n.toNat := by
  have := n.isLt
  rw [word, BitVec.toNat_setWidth, Nat.mod_eq_of_lt (by omega)]

theorem encodes_word : Fmt.s.Encodes (word n) := by
  rw [Fmt.Encodes, toNat_word]
  exact n.isLt

theorem toNat_magnitude : (n &&& ~~~sign).toNat = Fmt.s.low (word n) := by
  rw [toNat_and_field n 0 31 rfl, Fmt.low, toNat_word]
  simp [Fmt.bits]

theorem nan_eq : decide (infinity < n &&& ~~~sign) = Fmt.s.isNan (word n) := by
  rw [Bool.eq_iff_iff, decide_eq_true_iff, Fmt.isNan_iff, BitVec.lt_def, toNat_magnitude]
  rfl

theorem quiet_eq : (n &&& quiet == 0#32) = (word n &&& (1#64 <<< (Fmt.s.fbits - 1)) == 0#64) := by
  rw [Bool.eq_iff_iff, Fmt.quietBit_iff, beq_iff_eq, ← BitVec.toNat_inj,
    toNat_and_field n 22 1 rfl, toNat_word, BitVec.toNat_zero]
  simp only [Fmt.fbits, Fmt.bits, Fmt.ebits]
  omega

theorem sign_eq : (n &&& sign ≠ 0#32) ↔ Fmt.s.sign (word n) = true := by
  rw [Fmt.sign_iff, Ne, ← BitVec.toNat_inj, toNat_and_field n 31 1 rfl, toNat_word,
    BitVec.toNat_zero]
  simp only [Fmt.bits]
  omega

theorem word_or (a b : U32) : word (a ||| b) = word a ||| word b := BitVec.setWidth_or

theorem word_and (a b : U32) : word (a &&& b) = word a &&& word b := BitVec.setWidth_and

theorem word_sign : word (n &&& sign) = Fmt.s.zero (Fmt.s.sign (word n)) := by
  rw [word_and, ← Fmt.and_signBit]
  rfl

theorem denormal_iff : n &&& infinity = 0#32 ∧ n &&& 0x007FFFFF#32 ≠ 0#32 ↔
    Fmt.s.isDenormal (word n) = true := by
  rw [Fmt.isDenormal_iff, Fmt.low, toNat_word, Ne, ← BitVec.toNat_inj, ← BitVec.toNat_inj,
    toNat_and_field n 23 8 rfl, toNat_and_field n 0 23 rfl, BitVec.toNat_zero]
  simp only [Fmt.bits, Fmt.fbits, Fmt.ebits]
  omega

/-- The status after a helper, with the control register it was given. -/
def wide (r : U32 × U32) (fpcr : U32) : U64 × St := (word r.1, ⟨fpcr, r.2⟩)

theorem wide_unpack (fpcr status : U32) :
    wide (unpack n fpcr status) fpcr = flushIn .s (word n) ⟨fpcr, status⟩ := by
  rw [unpack, flushIn]
  simp only [denormal_iff]
  by_cases h : fpcr &&& (1#32 <<< 24) ≠ 0#32 ∧ Fmt.s.isDenormal (word n) = true
  · rw [if_pos h, if_pos ⟨by decide, bne_iff_ne.mpr h.1, h.2⟩, wide, word_sign]
    rfl
  · rw [if_neg h, if_neg (fun h' => h ⟨bne_iff_ne.mp h'.2.1, h'.2.2⟩)]
    rfl

theorem toNat_key : (key n).toNat = keyOf .s (word n) := by
  have hsplit := Fmt.toNat_split (encodes_word n)
  have hlow := Fmt.s.low_lt (word n)
  rw [toNat_word] at hsplit
  rw [← Fmt.bits_split] at hlow
  rw [key, keyOf]
  by_cases hs : Fmt.s.sign (word n) = true
  · rw [if_pos ((sign_eq n).mpr hs), if_pos hs, BitVec.toNat_not, hsplit, if_pos hs]
    simp only [Fmt.bits] at hlow ⊢
    omega
  · rw [if_neg (fun h => hs ((sign_eq n).mp h)), if_neg hs, BitVec.toNat_xor, hsplit, if_neg hs,
      Nat.zero_add]
    exact xor_two_pow hlow

/-- **The single helper is the selection.** -/
theorem pair_eq (minimum numeric : Bool) (fpcr status : U32) :
    wide (pair n m minimum numeric fpcr status) fpcr =
      select .s (word n) (word m) minimum numeric ⟨fpcr, status⟩ := by
  have hn := wide_unpack n fpcr status
  have hm := wide_unpack m fpcr (unpack n fpcr status).2
  rw [pair, select, ← hn]
  dsimp only [wide]
  dsimp only [wide] at hm
  rw [← hm]
  dsimp only
  generalize (unpack m fpcr (unpack n fpcr status).2).2 = status'
  generalize (unpack m fpcr (unpack n fpcr status).2).1 = m'
  generalize (unpack n fpcr status).1 = n'
  rw [nan_eq, nan_eq, quiet_eq, quiet_eq]
  have hsnan : ∀ x : U32, (Fmt.s.isNan (word x) && word x &&& (1#64 <<< (Fmt.s.fbits - 1)) == 0#64) =
      Fmt.s.isSnan (word x) := fun _ => rfl
  rw [hsnan, hsnan]
  have hdn : (fpcr &&& (1#32 <<< 25) ≠ 0#32) ↔ (⟨fpcr, status'⟩ : St).dn = true := bne_iff_ne.symm
  have hmag : ∀ x : U32, x &&& ~~~sign = 0#32 ↔ Fmt.s.low (word x) = 0 := by
    intro x
    rw [← toNat_magnitude, ← BitVec.toNat_inj, BitVec.toNat_zero]
  simp only [hdn, hmag]
  by_cases hs : (Fmt.s.isSnan (word n') || Fmt.s.isSnan (word m')) = true
  · rw [if_pos hs, if_pos hs, ← apply_ite word]
    split
    · rfl
    · rw [word_or]
      rfl
  rw [if_neg hs, if_neg hs]
  by_cases hq : (Fmt.s.isNan (word n') || Fmt.s.isNan (word m')) = true
  · rw [if_pos hq, if_pos hq]
    split <;> split <;> (try split) <;> rfl
  rw [if_neg hq, if_neg hq, pick]
  by_cases hz : Fmt.s.low (word n') = 0 ∧ Fmt.s.low (word m') = 0
  · rw [if_pos hz, if_pos hz]
    cases minimum
    · rw [if_neg Bool.false_ne_true, Bool.not_false, if_pos rfl, word_sign, word_and, sign_and]
    · rw [if_pos rfl, Bool.not_true, if_neg Bool.false_ne_true, word_sign, word_or, sign_or]
  · rw [if_neg hz, if_neg hz, Bool.not_not]
    simp only [BitVec.lt_def, toNat_key, keyOf_lt_iff hz]
    split <;> rfl

end FpReduce

/-! ## Doubles -/

namespace FpMinmaxNumber

variable (n m : U64)

theorem encodes : Fmt.d.Encodes n := n.isLt

theorem toNat_magnitude : (n &&& ~~~sign).toNat = Fmt.d.low n := by
  rw [toNat_and_field n 0 63 rfl, Fmt.low]
  simp [Fmt.bits]

theorem nan_eq : decide (infinity < n &&& ~~~sign) = Fmt.d.isNan n := by
  rw [Bool.eq_iff_iff, decide_eq_true_iff, Fmt.isNan_iff, BitVec.lt_def, toNat_magnitude]
  rfl

theorem sign_eq : (n &&& sign ≠ 0#64) ↔ Fmt.d.sign n = true := by
  rw [Fmt.sign_iff, Ne, ← BitVec.toNat_inj, toNat_and_field n 63 1 rfl, BitVec.toNat_zero]
  simp only [Fmt.bits]
  omega

theorem and_sign : n &&& sign = Fmt.d.zero (Fmt.d.sign n) := Fmt.and_signBit .d n

theorem denormal_iff : n &&& infinity = 0#64 ∧ n &&& fraction ≠ 0#64 ↔
    Fmt.d.isDenormal n = true := by
  rw [Fmt.isDenormal_iff, Fmt.low, Ne, ← BitVec.toNat_inj, ← BitVec.toNat_inj,
    toNat_and_field n 52 11 rfl, toNat_and_field n 0 52 rfl, BitVec.toNat_zero]
  simp only [Fmt.bits, Fmt.fbits, Fmt.ebits]
  omega

theorem flush_eq (ctx : St) :
    (if ctx.fz then flush ctx n else (n, ctx)) = flushIn .d n ctx := by
  rw [flush, flushIn]
  simp only [denormal_iff]
  by_cases hz : ctx.fz = true
  · rw [if_pos hz]
    split
    case isTrue h => rw [if_pos ⟨by decide, hz, h⟩, and_sign, idc]
    case isFalse h => rw [if_neg (fun h' => h h'.2.2)]
  · rw [if_neg hz, if_neg (fun h' => hz h'.2.1)]

theorem toNat_key : (key n).toNat = keyOf .d n := by
  have hsplit := Fmt.toNat_split (encodes n)
  have hlow := Fmt.d.low_lt n
  rw [← Fmt.bits_split] at hlow
  rw [key, keyOf]
  by_cases hs : Fmt.d.sign n = true
  · rw [if_pos ((sign_eq n).mpr hs), if_pos hs, BitVec.toNat_not, hsplit, if_pos hs]
    simp only [Fmt.bits] at hlow ⊢
    omega
  · rw [if_neg (fun h => hs ((sign_eq n).mp h)), if_neg hs, BitVec.toNat_xor, hsplit, if_neg hs,
      Nat.zero_add]
    exact xor_two_pow hlow

/-- **The double helper is the selection with number preference.** -/
theorem double_eq (ctx : St) (minimum : U64) :
    double ctx n m minimum = select .d n m (minimum ≠ 0#64) true ctx := by
  have hfz : (ctx.fpcr &&& (1#32 <<< 24) != 0#32) = ctx.fz := rfl
  have hm := flush_eq m (flushIn .d n ctx).2
  rw [flushIn_fz] at hm
  have hsnan : ∀ x : U64, (Fmt.d.isNan x && x &&& quiet == 0#64) = Fmt.d.isSnan x := fun _ => rfl
  have hmag : ∀ x : U64, x &&& ~~~sign = 0#64 ↔ Fmt.d.low x = 0 := by
    intro x
    rw [← toNat_magnitude, ← BitVec.toNat_inj, BitVec.toNat_zero]
  rw [double, select, hfz]
  dsimp only
  rw [flush_eq, hm]
  generalize (flushIn .d m (flushIn .d n ctx).2).2 = ctx'
  generalize (flushIn .d m (flushIn .d n ctx).2).1 = m'
  generalize (flushIn .d n ctx).1 = n'
  have hdn : (ctx'.fpcr &&& (1#32 <<< 25) ≠ 0#32) ↔ ctx'.dn = true := bne_iff_ne.symm
  rw [nan_eq, nan_eq, hsnan, hsnan, Bool.true_and]
  simp only [hdn, hmag]
  by_cases hs : (Fmt.d.isSnan n' || Fmt.d.isSnan m') = true
  · rw [if_pos hs, if_pos hs]
    rfl
  rw [if_neg hs, if_neg hs]
  by_cases hq : (Fmt.d.isNan n' || Fmt.d.isNan m') = true
  · rw [if_pos hq, if_pos hq]
    cases hn : Fmt.d.isNan n' <;> cases hm : Fmt.d.isNan m' <;> rw [hn, hm] at hq
    case false.false => exact absurd hq Bool.false_ne_true
    all_goals rfl
  rw [if_neg hq, if_neg hq, pick]
  by_cases hz : Fmt.d.low n' = 0 ∧ Fmt.d.low m' = 0
  · rw [if_pos hz, if_pos hz]
    by_cases hmin : minimum = 0#64
    · rw [if_neg (not_not_intro hmin), if_pos (by simp [hmin]), and_sign, sign_and]
    · rw [if_pos hmin, if_neg (by simp [hmin]), and_sign, sign_or]
  · rw [if_neg hz, if_neg hz, Bool.not_not]
    simp only [BitVec.lt_def, toNat_key, keyOf_lt_iff hz]
    split <;> rfl

end FpMinmaxNumber

/-! ## Agreement -/

/-- The single helper and the reference agree. -/
def FpReduce.Agrees (n m : U32) (minimum numeric : Bool) (fpcr fpsr : U32) : Prop :=
  wide (pair n m minimum numeric fpcr fpsr) fpcr =
    fmaxmin .s (word n) (word m) (!minimum) numeric ⟨fpcr, fpsr⟩

/-- The double helper and the reference agree. -/
def FpMinmaxNumber.Agrees (ctx : St) (n m minimum : U64) : Prop :=
  double ctx n m minimum = fmaxmin .d n m (minimum = 0#64) true ctx

theorem getLsbD_idc (i : Nat) : idc.getLsbD i = decide (i = 7) := by
  rw [show idc = BitVec.twoPow 32 7 from rfl, BitVec.getLsbD_twoPow]
  by_cases h : i = 7
  · rw [h]
    rfl
  · rw [decide_eq_false h, decide_eq_false (Ne.symm h), Bool.and_false]

theorem or_idc_eq_iff (v : U32) : v ||| idc = v ↔ v &&& idc ≠ 0#32 := by
  constructor
  · intro h h0
    have hbit : (v &&& idc).getLsbD 7 = true := by
      rw [BitVec.getLsbD_and, ← h, BitVec.getLsbD_or, getLsbD_idc]
      simp
    rw [h0] at hbit
    exact absurd hbit Bool.false_ne_true
  · intro h
    have hbit : v.getLsbD 7 = true := by
      by_contra hclear
      refine h (BitVec.eq_of_getLsbD_eq fun i _ => ?_)
      rw [BitVec.getLsbD_and, getLsbD_idc, BitVec.getLsbD_zero]
      by_cases hi : i = 7
      · rw [Bool.not_eq_true] at hclear
        rw [hi, hclear, Bool.false_and]
      · simp [hi]
    refine BitVec.eq_of_getLsbD_eq fun i _ => ?_
    rw [BitVec.getLsbD_or, getLsbD_idc]
    by_cases hi : i = 7
    · rw [hi, hbit, Bool.true_or]
    · simp [hi]

theorem or_ioc_and_idc (v : U32) : (v ||| ioc) &&& idc = v &&& idc := by
  have h : idc &&& ioc = 0#32 := rfl
  rw [BitVec.and_comm, BitVec.and_or_distrib_left, h, BitVec.or_zero, BitVec.and_comm]

section Report

variable {f : Fmt} {a b x : U64} {max nm : Bool} {st : St}

theorem processNan_status : (processNan f x st).2.fpsr &&& idc = st.fpsr &&& idc := by
  rw [processNan]
  split
  · rw [St.raise_fpsr, or_ioc_and_idc]
  · rfl

/-- Where a denormal is missed the result is a NaN operand's. -/
theorem fmaxmin_missed (h : missed f a b nm st = true) :
    (fmaxmin f a b max nm st).2.fpsr &&& idc = st.fpsr &&& idc := by
  have hsome : ∀ x y r, processNans f [x, y] st = some r → r.2.fpsr &&& idc = st.fpsr &&& idc := by
    intro x y r hr
    rw [processNans_pair] at hr
    split_ifs at hr <;> cases hr <;> exact processNan_status
  rw [fmaxmin_eq]
  dsimp only
  cases hr : processNans f _ st with
  | some r =>
    rw [Option.getD_some]
    exact hsome _ _ r hr
  | none =>
    exfalso
    simp only [missed, Bool.and_eq_true, Bool.or_eq_true] at h
    rcases h with ⟨-, ⟨⟨hna, hdb⟩, hq⟩ | ⟨⟨hda, hnb⟩, hq⟩⟩
    · have hnb := Fmt.not_isNan_of_isDenormal hdb
      have hsb := not_isSnan_of_not_isNan hnb
      rw [processNans_pair] at hr
      cases nm <;> cases hs : f.isSnan a <;> simp [hna, hnb, hs, hsb] at hr hq
    · have hna := Fmt.not_isNan_of_isDenormal hda
      have hsa := not_isSnan_of_not_isNan hna
      rw [processNans_pair] at hr
      cases nm <;> cases hs : f.isSnan b <;> simp [hna, hnb, hs, hsa] at hr hq

/-- IDC distinguishes the helpers only where it was clear. -/
theorem report_eq_iff : report (missed f a b nm st) (fmaxmin f a b max nm st) =
    fmaxmin f a b max nm st ↔ (missed f a b nm st = true → st.fpsr &&& idc ≠ 0#32) := by
  cases hm : missed f a b nm st
  · simp [report]
  · rw [report, if_pos rfl, ← @fmaxmin_missed f a b max _ _ hm, ← or_idc_eq_iff]
    generalize fmaxmin f a b max nm st = r
    obtain ⟨r, ⟨fpcr, fpsr⟩⟩ := r
    simp [St.raise]

end Report

/-- **The helpers agree with the reference** exactly where it misses no denormal, or IDC was set
already. -/
theorem minMax_agree_iff (n m : U32) (minimum numeric : Bool) (fpcr fpsr : U32) (ctx : St)
    (nd md minimumd : U64) :
    (FpReduce.Agrees n m minimum numeric fpcr fpsr ↔
      (missed .s (FpReduce.word n) (FpReduce.word m) numeric ⟨fpcr, fpsr⟩ = true →
        fpsr &&& idc ≠ 0#32)) ∧
    (FpMinmaxNumber.Agrees ctx nd md minimumd ↔
      (missed .d nd md true ctx = true → ctx.fpsr &&& idc ≠ 0#32)) := by
  constructor
  · rw [FpReduce.Agrees, FpReduce.pair_eq,
      select_eq (by decide) (FpReduce.encodes_word n) (FpReduce.encodes_word m), report_eq_iff]
  · have hmin : (!decide (minimumd ≠ 0#64)) = decide (minimumd = 0#64) := by simp
    rw [FpMinmaxNumber.Agrees, FpMinmaxNumber.double_eq,
      select_eq (by decide) (FpMinmaxNumber.encodes nd) (FpMinmaxNumber.encodes md), hmin,
      report_eq_iff]

/-- A quiet NaN and a denormal under FZ: only one side reports the denormal. -/
theorem minMax_disagree : ¬FpReduce.Agrees 0x7FC00000#32 1#32 false false (1#32 <<< 24) 0#32 := by
  rw [FpReduce.Agrees]
  decide

end Rustarmic
