import Mathlib.Tactic.Ring
import Rustarmic.Optimizer.Fold

/-!
# Two operations with a constant each

`tryCombineConst` replaces `op_o (op_i x i) o` by one operation on `x`.  The sums, differences,
products, masks and rotations it forms are right for all constants.  The amounts of two shifts are
added in 64 bits and compared with the width, and that sum can wrap.

* `evalAt` — an operation on a value and a constant, modulo the width, as `tryFold` evaluates it.
* `AmountsFit` — the two amounts, each taken modulo the width, stay below it together.
* `combineOps_iff` — what is returned is right for every value iff the amounts fit.

What it means to be right is taken from constant folding: both the two operations and the one put in
their place are evaluated by `foldOp`, on every value of the operand, modulo the width.  An
operation takes its amount modulo the width, so that two shifts by less than the width each may add
up to more, and their composition is zero or all signs, while one operation with the sum starts
over.  The source asks whether the *sum* is below the width, with the amounts as they stand in the
nodes, and with amounts from 2 ^ 63 on the sum wraps.

The arithmetic of the operations is done on words of `w` bits (`binary`), once for both widths.  The
proofs for operations that add no amounts are one lemma with an identity of words as its argument,
and those for shifts and rotations another.
-/

set_option autoImplicit false

namespace Rustarmic

namespace Optimizer

/-! ## Shifting twice -/

section Shifts

variable {w a b : Nat}

theorem getLsbD_rotateRight_mod {i : Nat} (x : BitVec w) (r : Nat) (hi : i < w) :
    (x.rotateRight r).getLsbD i = x.getLsbD ((i + r) % w) := by
  have hr := Nat.mod_lt r (Nat.zero_lt_of_lt hi)
  have hmod : (i + r) % w = (i + r % w) % w := by rw [Nat.add_mod_mod]
  rw [BitVec.getLsbD_rotateRight, hmod]
  by_cases h : i < w - r % w
  · rw [decide_eq_true h, cond_true, Nat.mod_eq_of_lt (show i + r % w < w by omega), Nat.add_comm]
  · rw [decide_eq_false h, cond_false, decide_eq_true hi, Bool.true_and,
      Nat.mod_eq_sub_mod (show w ≤ i + r % w by omega),
      Nat.mod_eq_of_lt (show i + r % w - w < w by omega)]
    congr 1
    omega

theorem rotateRight_rotateRight (x : BitVec w) (a b : Nat) :
    (x.rotateRight a).rotateRight b = x.rotateRight (a + b) := by
  apply BitVec.eq_of_getLsbD_eq
  intro i hi
  have hpos := Nat.zero_lt_of_lt hi
  rw [getLsbD_rotateRight_mod _ _ hi, getLsbD_rotateRight_mod _ _ (Nat.mod_lt _ hpos),
    getLsbD_rotateRight_mod _ _ hi, Nat.mod_add_mod]
  congr 2
  omega

theorem rotateRight_congr (x : BitVec w) (h : a % w = b % w) : x.rotateRight a = x.rotateRight b := by
  rw [← BitVec.rotateRight_mod_eq_rotateRight, h, BitVec.rotateRight_mod_eq_rotateRight]

/-- Two shifts to the left by less than the width are the one by the sum modulo the width iff the
sum is below the width. -/
theorem shiftLeft_twice_iff (hw : 0 < w) :
    (∀ x : BitVec w, x <<< ((a + b) % w) = x <<< a <<< b) ↔ a + b < w := by
  constructor
  · intro h
    by_contra hge
    have hbit := congrArg (BitVec.getLsbD · ((a + b) % w)) (h 1)
    have hlt := Nat.mod_lt (a + b) hw
    rw [← BitVec.shiftLeft_add] at hbit
    simp only [BitVec.getLsbD_shiftLeft, hlt, Nat.sub_self] at hbit
    simp [show (a + b) % w < a + b from by omega, hw] at hbit
  · intro h x
    rw [Nat.mod_eq_of_lt h, BitVec.shiftLeft_add]

theorem ushiftRight_twice_iff (hw : 0 < w) :
    (∀ x : BitVec w, x >>> ((a + b) % w) = x >>> a >>> b) ↔ a + b < w := by
  constructor
  · intro h
    by_contra hge
    have hbit := congrArg (BitVec.getLsbD · (w - 1 - (a + b) % w)) (h (BitVec.allOnes w))
    have hlt := Nat.mod_lt (a + b) hw
    rw [← BitVec.shiftRight_add] at hbit
    simp only [BitVec.getLsbD_ushiftRight, BitVec.getLsbD_allOnes, decide_eq_decide] at hbit
    omega
  · intro h x
    rw [Nat.mod_eq_of_lt h, BitVec.shiftRight_add]

theorem sshiftRight_twice_iff (ha : a < w) (hb : b < w) :
    (∀ x : BitVec w, x.sshiftRight ((a + b) % w) = (x.sshiftRight a).sshiftRight b) ↔ a + b < w := by
  constructor
  · intro h
    by_contra hge
    have hmod : (a + b) % w = a + b - w := by
      rw [Nat.mod_eq_sub_mod (by omega), Nat.mod_eq_of_lt (by omega)]
    -- All ones but the sign: the one shift keeps a bit, the two keep none.
    have hbit := congrArg (BitVec.getLsbD · 0) (h (BitVec.allOnes w >>> 1))
    rw [← BitVec.sshiftRight_add, hmod] at hbit
    have hmsb : (BitVec.allOnes w >>> 1).msb = false := by
      rw [BitVec.msb_eq_getLsbD_last, BitVec.getLsbD_ushiftRight, BitVec.getLsbD_allOnes]
      exact decide_eq_false (by omega)
    simp only [BitVec.getLsbD_sshiftRight, BitVec.getLsbD_ushiftRight, BitVec.getLsbD_allOnes,
      hmsb] at hbit
    simp [show a + b - w < w from by omega, show ¬ a + b < w from hge,
      show 1 + (a + b - w) < w from by omega, show ¬ w ≤ 0 from by omega] at hbit
  · intro h x
    rw [Nat.mod_eq_of_lt h, BitVec.sshiftRight_add]

end Shifts

/-! ## Evaluating the operations -/

/-- `op x c` modulo `2 ^ bits`, as constant folding evaluates it. -/
def evalAt (bits : Nat) (op : Op) (x c : U64) : Option (BitVec bits) :=
  (foldOp op x (some c)).map (BitVec.setWidth bits)

/-- `outer (inner x i) o` modulo `2 ^ bits`. -/
def evalTwice (bits : Nat) (outer inner : Op) (x i o : U64) : Option (BitVec bits) :=
  (foldOp inner x (some i)).bind fun v => evalAt bits outer v o

def isShift (op : Op) : Bool :=
  op == .lsl32 || op == .lsl64 || op == .lsr32 || op == .lsr64 || op == .asr32 || op == .asr64

/-- The amounts of two shifts in a row, each taken modulo the width, stay below it together. -/
def AmountsFit (op : Op) (i o : U64) : Prop :=
  isShift op → i.toNat % op.sizeBits + o.toNat % op.sizeBits < op.sizeBits

/-- What the operations do to words of `w` bits. -/
def binary (w : Nat) : Op → Option (BitVec w → BitVec w → BitVec w)
  | .add32 | .add64 => some (· + ·)
  | .sub32 | .sub64 => some (· - ·)
  | .and32 | .and64 => some (· &&& ·)
  | .or32 | .or64 => some (· ||| ·)
  | .eor32 | .eor64 => some (· ^^^ ·)
  | .mul32 | .mul64 => some (· * ·)
  | .lsl32 | .lsl64 => some fun x c => x <<< (c.toNat % w)
  | .lsr32 | .lsr64 => some fun x c => x >>> (c.toNat % w)
  | .asr32 | .asr64 => some fun x c => x.sshiftRight (c.toNat % w)
  | .ror32 | .ror64 => some fun x c => x.rotateRight (c.toNat % w)
  | _ => none

theorem shiftBy_31 (y : U64) : shiftBy y 31 = (y.setWidth 32).toNat % 32 := by
  rw [shiftBy, BitVec.toNat_and]
  exact Nat.and_two_pow_sub_one_eq_mod _ 5

theorem shiftBy_63 (y : U64) : shiftBy y 63 = (y.setWidth 64).toNat % 64 := by
  rw [shiftBy, BitVec.toNat_and, BitVec.toNat_setWidth, BitVec.setWidth_eq]
  exact (Nat.and_two_pow_sub_one_eq_mod _ 6).trans (by omega)

theorem setWidth_on32 (f : U32 → U32 → U32) (x y : U64) :
    (on32 f x y).setWidth 32 = f (x.setWidth 32) (y.setWidth 32) := by
  rw [on32, BitVec.setWidth_setWidth_of_le _ (by decide), BitVec.setWidth_eq]

theorem foldOp_binary {w : Nat} {op : Op} {f : BitVec w → BitVec w → BitVec w}
    (hw : op.sizeBits = w) (h : binary w op = some f) (x c : U64) :
    ∃ v, foldOp op x (some c) = some v ∧ v.setWidth w = f (x.setWidth w) (c.setWidth w) := by
  revert h
  fun_cases binary w op
  case case21 => exact nofun
  all_goals
    rintro ⟨⟩
    refine ⟨_, rfl, ?_⟩
    first
    | obtain rfl : 32 = w := hw
      first
      | exact setWidth_on32 _ x c
      | exact (setWidth_on32 _ x c).trans (by rw [shiftBy_31])
    | obtain rfl : 64 = w := hw
      simp only [BitVec.setWidth_eq, shiftBy_63]

/-- The operation returned is right for every 64-bit value iff it is for every word. -/
theorem agree_iff {w : Nat} {op outer inner : Op} {f g k : BitVec w → BitVec w → BitVec w}
    (hwle : w ≤ 64) (hop : op.sizeBits = w) (hout : outer.sizeBits = w) (hin : inner.sizeBits = w)
    (hf : binary w op = some f) (hg : binary w outer = some g) (hk : binary w inner = some k)
    (i o c : U64) :
    (∀ x, evalAt w op x c = evalTwice w outer inner x i o) ↔
      ∀ x, f x (c.setWidth w) = g (k x (i.setWidth w)) (o.setWidth w) := by
  have heval (x : U64) : evalAt w op x c = some (f (x.setWidth w) (c.setWidth w)) := by
    obtain ⟨v, hv, hval⟩ := foldOp_binary hop hf x c
    rw [evalAt, hv, Option.map_some, hval]
  have htwice (x : U64) : evalTwice w outer inner x i o =
      some (g (k (x.setWidth w) (i.setWidth w)) (o.setWidth w)) := by
    obtain ⟨v, hv, hval⟩ := foldOp_binary hin hk x i
    obtain ⟨u, hu, hval'⟩ := foldOp_binary hout hg v o
    rw [evalTwice, hv, Option.bind_some, evalAt, hu, Option.map_some, hval', hval]
  constructor
  · intro h x
    have hx := h (x.setWidth 64)
    rw [heval, htwice, BitVec.setWidth_setWidth_of_le x hwle, BitVec.setWidth_eq] at hx
    exact Option.some.inj hx
  · intro h x
    rw [heval, htwice, h]

/-! ## Combining -/

theorem setWidth_maskOf : (maskOf 32).setWidth 32 = BitVec.allOnes 32 := by decide

theorem toNat_add_mod {w : Nat} (hw : w ∣ 2 ^ 64) (i o : U64) :
    (i + o).toNat % w = (i.toNat % w + o.toNat % w) % w := by
  rw [BitVec.toNat_add, Nat.mod_mod_of_dvd _ hw, Nat.add_mod]

theorem toNat_setWidth_mod {w : Nat} (hw : w ∣ 2 ^ w) (v : U64) :
    (v.setWidth w).toNat % w = v.toNat % w := by
  rw [BitVec.toNat_setWidth, Nat.mod_mod_of_dvd _ hw]

theorem setWidth_32_zero : (0 : U64).setWidth 32 = 0 := rfl

theorem setWidth_32_add (x y : U64) : (x + y).setWidth 32 = x.setWidth 32 + y.setWidth 32 :=
  BitVec.setWidth_add x y (by decide)

theorem setWidth_32_mul (x y : U64) : (x * y).setWidth 32 = x.setWidth 32 * y.setWidth 32 :=
  BitVec.setWidth_mul x y (by decide)

theorem setWidth_32_sub (x y : U64) : (x - y).setWidth 32 = x.setWidth 32 - y.setWidth 32 := by
  rw [BitVec.sub_eq_add_neg, setWidth_32_add, BitVec.setWidth_neg_of_le (by decide),
    ← BitVec.sub_eq_add_neg]

/-- Operations that add no amounts. -/
theorem combined_of_eq {w : Nat} {op outer inner : Op} {f g k : BitVec w → BitVec w → BitVec w}
    {i o c : U64} (hwle : w ≤ 64) (hop : op.sizeBits = w) (hout : outer.sizeBits = w)
    (hin : inner.sizeBits = w) (hf : binary w op = some f) (hg : binary w outer = some g)
    (hk : binary w inner = some k) (hshift : isShift outer = false)
    (heq : ∀ x, f x (c.setWidth w) = g (k x (i.setWidth w)) (o.setWidth w)) :
    op.sizeBits = w ∧
      ((∀ x, evalAt w op x c = evalTwice w outer inner x i o) ↔ AmountsFit outer i o) := by
  refine ⟨hop, iff_of_true ((agree_iff hwle hop hout hin hf hg hk i o c).mpr heq) fun h => ?_⟩
  rw [hshift] at h
  cases h

/-- Operations that add their amounts, with what is known of the two ways to shift. -/
theorem combined_of_shift {w : Nat} {op : Op} {i o : U64} {f : BitVec w → BitVec w → BitVec w}
    {shift : BitVec w → Nat → BitVec w} (hwle : w ≤ 64) (h64 : w ∣ 2 ^ 64) (hw : w ∣ 2 ^ w)
    (hop : op.sizeBits = w) (hf : binary w op = some f) (hshift : isShift op = true)
    (hfs : ∀ x c, f x c = shift x (c.toNat % w))
    (htwice : (∀ x, shift x ((i.toNat % w + o.toNat % w) % w) =
      shift (shift x (i.toNat % w)) (o.toNat % w)) ↔ i.toNat % w + o.toNat % w < w) :
    op.sizeBits = w ∧
      ((∀ x, evalAt w op x (i + o) = evalTwice w op op x i o) ↔ AmountsFit op i o) := by
  refine ⟨hop, ?_⟩
  rw [agree_iff hwle hop hop hop hf hf hf, AmountsFit, hop, hshift]
  simp only [hfs, toNat_setWidth_mod hw, toNat_add_mod h64, htwice, true_imp_iff]

theorem rotateRight_amounts {w : Nat} (h64 : w ∣ 2 ^ 64) (hw : w ∣ 2 ^ w) {k : Nat} (hk : w = 2 ^ k)
    (hlt : k < 64) (x : BitVec w) (i o : U64) :
    x.rotateRight (((i + o &&& BitVec.ofNat 64 (w - 1)).setWidth w).toNat % w) =
      (x.rotateRight ((i.setWidth w).toNat % w)).rotateRight ((o.setWidth w).toNat % w) := by
  have hle : w - 1 < 2 ^ 64 :=
    lt_of_lt_of_le (by rw [hk]; have := Nat.two_pow_pos k; omega)
      (Nat.pow_le_pow_right (by decide) hlt.le)
  rw [rotateRight_rotateRight, toNat_setWidth_mod hw, toNat_setWidth_mod hw, toNat_setWidth_mod hw]
  apply rotateRight_congr
  rw [BitVec.toNat_and, BitVec.toNat_ofNat, Nat.mod_eq_of_lt hle]
  conv_lhs => rw [hk, Nat.and_two_pow_sub_one_eq_mod, ← hk, Nat.mod_mod, Nat.mod_mod,
    toNat_add_mod h64]

/-- **When the combined operation is right.** -/
theorem combineOps_iff {outer inner op : Op} {i o c : U64}
    (h : combineOps outer inner i o outer.sizeBits = some (c, op)) :
    op.sizeBits = outer.sizeBits ∧
      ((∀ x, evalAt outer.sizeBits op x c = evalTwice outer.sizeBits outer inner x i o) ↔
        AmountsFit outer i o) := by
  revert h
  generalize hbits : outer.sizeBits = bits
  fun_cases combineOps outer inner i o bits
  case case17 | case18 =>
    intro h
    obtain ⟨-, h⟩ := Option.ite_none_left_eq_some.mp h
    cases h
    subst hbits
    exact combined_of_shift (by decide) (by decide) (by decide) rfl rfl rfl (fun _ _ => rfl)
      (shiftLeft_twice_iff (by decide))
  case case19 | case20 =>
    intro h
    obtain ⟨-, h⟩ := Option.ite_none_left_eq_some.mp h
    cases h
    subst hbits
    exact combined_of_shift (by decide) (by decide) (by decide) rfl rfl rfl (fun _ _ => rfl)
      (ushiftRight_twice_iff (by decide))
  case case21 | case22 =>
    intro h
    obtain ⟨-, h⟩ := Option.ite_none_left_eq_some.mp h
    cases h
    subst hbits
    exact combined_of_shift (by decide) (by decide) (by decide) rfl rfl rfl (fun _ _ => rfl)
      (sshiftRight_twice_iff (Nat.mod_lt _ (by decide)) (Nat.mod_lt _ (by decide)))
  case case23 =>
    rintro ⟨⟩
    subst hbits
    exact combined_of_eq (by decide) rfl rfl rfl rfl rfl rfl rfl fun x =>
      rotateRight_amounts (by decide) (by decide) (k := 5) rfl (by decide) x i o
  case case24 =>
    rintro ⟨⟩
    subst hbits
    exact combined_of_eq (by decide) rfl rfl rfl rfl rfl rfl rfl fun x =>
      rotateRight_amounts (by decide) (by decide) (k := 6) rfl (by decide) x i o
  case case25 => exact nofun
  all_goals
    rintro ⟨⟩
    first
    | obtain rfl : 32 = bits := hbits
      refine combined_of_eq (by decide) rfl rfl rfl rfl rfl rfl rfl fun x => ?_
      simp +zetaDelta only [setWidth_32_zero, setWidth_32_add, setWidth_32_mul, setWidth_32_sub,
        BitVec.setWidth_and, BitVec.setWidth_or, BitVec.setWidth_xor, setWidth_maskOf,
        BitVec.and_allOnes]
      first
      | ring
      | ac_rfl
    | obtain rfl : 64 = bits := hbits
      refine combined_of_eq (by decide) rfl rfl rfl rfl rfl rfl rfl fun x => ?_
      simp only [BitVec.setWidth_eq]
      first
      | ring
      | ac_rfl

/-- **Combining constants.**  What `tryCombineConst` returns is an operation of the same width on
the operand of the inner node, and it computes what the two nodes compute for every value of that
operand iff the amounts fit, which is asked of shifts only. -/
theorem tryCombineConst_iff {a : Armlet} {b : Block} {consts : Consts} {base : ValueRef} {c : U64}
    {op : Op} (h : tryCombineConst a b consts = some (base, c, op)) :
    ∃ inner i o, b.code[a.args.get 0]? = some inner ∧ consts (inner.args.get 1) = some i ∧
      consts (a.args.get 1) = some o ∧ base = inner.args.get 0 ∧ op.sizeBits = a.op.sizeBits ∧
      ((∀ x, evalAt a.op.sizeBits op x c = evalTwice a.op.sizeBits a.op inner.op x i o) ↔
        AmountsFit a.op i o) := by
  obtain ⟨o, ho, h⟩ := Option.bind_eq_some_iff.mp h
  obtain ⟨-, h⟩ := Option.ite_none_left_eq_some.mp h
  obtain ⟨inner, hinner, h⟩ := Option.bind_eq_some_iff.mp h
  obtain ⟨i, hi, h⟩ := Option.bind_eq_some_iff.mp h
  obtain ⟨-, h⟩ := Option.ite_none_left_eq_some.mp h
  obtain ⟨r, hr, heq⟩ := Option.map_eq_some_iff.mp h
  obtain ⟨rfl, rfl⟩ := Prod.mk.inj heq
  obtain ⟨hbits, hiff⟩ := combineOps_iff hr
  exact ⟨inner, i, o, hinner, hi, ho, rfl, hbits, hiff⟩

/-- `(X0 << i) << o` with the amounts in registers. -/
def shiftTwice (i o : U64) : Block :=
  (Block.new 0).pushAll [Armlet.new .getX .u64, (Armlet.new .constU64 .u64).withImm i,
    (Armlet.new .lsl64 .u64).withArgs [1, 2], (Armlet.new .constU64 .u64).withImm o,
    (Armlet.new .lsl64 .u64).withArgs [3, 4]]

/-- The constants of `shiftTwice`. -/
def shiftTwiceConsts (i o : U64) : Consts :=
  fun v => if v = 2 then some i else if v = 4 then some o else none

theorem tryCombineConst_iff_small :
    ∃ inner i o, (shiftTwice 3 4).code[3]? = some inner ∧
      shiftTwiceConsts 3 4 (inner.args.get 1) = some i ∧ shiftTwiceConsts 3 4 4 = some o ∧
      1 = inner.args.get 0 ∧ Op.lsl64.sizeBits = Op.lsl64.sizeBits ∧
      ((∀ x, evalAt Op.lsl64.sizeBits .lsl64 x 7 =
        evalTwice Op.lsl64.sizeBits .lsl64 inner.op x i o) ↔ AmountsFit .lsl64 i o) :=
  @tryCombineConst_iff ((shiftTwice 3 4).get 5) (shiftTwice 3 4) (shiftTwiceConsts 3 4) 1 7 .lsl64
    (by decide)

/-- The amounts `-1` and `5` add up to `4`, but a shift by 63 and one by 5 leave nothing. -/
theorem shiftTwice_wraps :
    tryCombineConst ((shiftTwice (-1) 5).get 5) (shiftTwice (-1) 5) (shiftTwiceConsts (-1) 5) =
        some (1, 4, .lsl64) ∧
      evalAt 64 .lsl64 1 4 = some 16 ∧ evalTwice 64 .lsl64 .lsl64 1 (-1) 5 = some 0 := by
  decide

end Optimizer

end Rustarmic
