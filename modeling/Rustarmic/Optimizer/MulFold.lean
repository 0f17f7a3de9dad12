import Rustarmic.Ir.Ssa
import Rustarmic.Optimizer.Combine
import Rustarmic.Optimizer.Pass

/-!
# Sums of multiples

`extractTerm` follows multiplications and left shifts by a constant and identities down to a value
that is none of these.  Each step goes to an argument, and in a list in which arguments come first
that ends.

* `descend` — one step: the argument it goes to, and what becomes of the term found there.
* `Extracts` — the whole descent, however deep; `extracts_of_ssa` says that it ends and that
  `extractTerm` has its result.
* `Models` — values of the nodes that agree with the operations and the known constants.
* `tryMulFold_sound` — the multiplication that replaces a sum computes the sum.
-/

set_option autoImplicit false

namespace Rustarmic

namespace Optimizer

variable {b : Block} {consts : Consts} {bits : Nat} {l l₁ l₂ : List ValueRef} {v : ValueRef}
  {t : Term}

/-! ## The descent -/

/-- The argument `extractTerm` goes on with, and what it makes of the term found there. -/
def descend (b : Block) (consts : Consts) (bits : Nat) (v : ValueRef) :
    Option (ValueRef × (Term → Term)) :=
  let scaled (c : U64) (t : Term) : Term := { base := t.base, coeff := t.coeff * c, hasMul := true }
  if b.code.size ≤ v ∨ v.isNone then none
  else
    let a := b.get v
    match a.op with
    | .mul32 | .mul64 =>
      if a.op.sizeBits = bits then
        match constOf consts (a.args.get 0), constOf consts (a.args.get 1) with
        | some c, _ => some (a.args.get 1, scaled c)
        | none, some c => some (a.args.get 0, scaled c)
        | none, none => none
      else none
    | .lsl32 | .lsl64 =>
      if a.op.sizeBits = bits then
        (constOf consts (a.args.get 1)).map fun k =>
          (a.args.get 0,
            fun t => { t with coeff := t.coeff <<< shiftBy k (BitVec.ofNat 32 (bits - 1)) })
      else none
    | .identity => some (a.args.get 0, id)
    | _ => none

theorem extractTerm_succ (n : Nat) (v : ValueRef) :
    extractTerm b consts bits (n + 1) v =
      ((descend b consts bits v).map fun d => d.2 (extractTerm b consts bits n d.1)).getD
        (.leaf v) := by
  rw [descend]
  by_cases hout : b.code.size ≤ v ∨ v.isNone
  · rw [extractTerm, if_pos hout, if_pos hout]
    rfl
  rw [if_neg hout]
  dsimp only
  split
  all_goals
    rename_i hop
    rw [extractTerm, if_neg hout]
    simp only [hop]
  case h_1 | h_2 =>
    split
    · cases constOf consts ((b.get v).args.get 0) with
      | some c => rfl
      | none => cases constOf consts ((b.get v).args.get 1) <;> rfl
    · rfl
  case h_3 | h_4 =>
    split
    · cases constOf consts ((b.get v).args.get 1) <;> rfl
    · rfl
  case h_5 | h_6 => rfl

/-- A step goes to an argument. -/
theorem descend_arg {d : ValueRef × (Term → Term)} (h : descend b consts bits v = some d) :
    ∃ k, d.1 = (b.get v).args.get k := by
  simp only [descend] at h
  split at h
  · cases h
  split at h
  case h_1 | h_2 =>
    split at h
    · split at h
      · exact ⟨1, by rw [← Option.some.inj h]⟩
      · exact ⟨0, by rw [← Option.some.inj h]⟩
      · cases h
    · cases h
  case h_3 | h_4 =>
    split at h
    · obtain ⟨k, -, rfl⟩ := Option.map_eq_some_iff.mp h
      exact ⟨0, rfl⟩
    · cases h
  case h_5 => exact ⟨0, by rw [← Option.some.inj h]⟩
  case h_6 => cases h

/-- The descent from a value comes to an end with a term. -/
inductive Extracts (b : Block) (consts : Consts) (bits : Nat) : ValueRef → Term → Prop where
  | leaf {v : ValueRef} (h : descend b consts bits v = none) : Extracts b consts bits v (.leaf v)
  | step {v arg : ValueRef} {k : Term → Term} {t : Term}
      (h : descend b consts bits v = some (arg, k)) (ht : Extracts b consts bits arg t) :
      Extracts b consts bits v (k t)

theorem descend_none (b : Block) (consts : Consts) (bits : Nat) :
    descend b consts bits ValueRef.none = none := if_pos (Or.inr rfl)

/-- **The descent ends.**  From a node with `n` nodes before it, it takes at most `n` steps and
ends with what `extractTerm` finds. -/
theorem extracts_of_position (h : b.Ssa (l₁ ++ v :: l₂)) {n : Nat} (hn : l₁.length < n) :
    Extracts b consts bits v (extractTerm b consts bits n v) := by
  induction n generalizing l₁ v l₂ with
  | zero => exact absurd hn (Nat.not_lt_zero _)
  | succ n ih =>
    rw [extractTerm_succ]
    cases hd : descend b consts bits v with
    | none => exact .leaf hd
    | some d =>
      obtain ⟨arg, f⟩ := d
      obtain ⟨k, rfl⟩ := descend_arg hd
      suffices hrec : Extracts b consts bits ((b.get v).args.get k)
          (extractTerm b consts bits n ((b.get v).args.get k)) from
        (Extracts.step hd hrec : Extracts b consts bits v (f _))
      by_cases hx : ((b.get v).args.get k).isSome
      · obtain ⟨m₁, m₂, hm, hlt⟩ := h.split_at_arg k hx
        rw [hm] at h
        exact ih h (by omega)
      · have hnone : (b.get v).args.get k = ValueRef.none := by simpa using hx
        rw [hnone]
        cases n with
        | zero => exact .leaf (descend_none b consts bits)
        | succ n =>
          rw [extractTerm_succ, descend_none]
          exact .leaf (descend_none b consts bits)

/-- A live value or an empty slot. -/
theorem extracts_of_ssa (hwalk : b.Walk b.head l) (hssa : b.Ssa l) (hv : v.isSome → v ∈ l) :
    Extracts b consts bits v (extractTerm b consts bits b.code.size v) := by
  by_cases hx : v.isSome
  · obtain ⟨l₁, l₂, rfl⟩ := List.append_of_mem (hv hx)
    refine extracts_of_position hssa ?_
    have hlen := hwalk.length_le
    rw [List.length_append, List.length_cons] at hlen
    omega
  · obtain rfl : v = ValueRef.none := by simpa using hx
    cases b.code.size with
    | zero => exact .leaf (descend_none b consts bits)
    | succ n =>
      rw [extractTerm_succ, descend_none]
      exact .leaf (descend_none b consts bits)

/-! ## Values -/

/-- Values of the nodes of `l` that agree with their operations, as constant folding evaluates
them, and with the known constants. -/
structure Models (b : Block) (l : List ValueRef) (consts : Consts) (val : ValueRef → U64) :
    Prop where
  const : ∀ v c, constOf consts v = some c → val v = c
  node : ∀ v ∈ l, ∀ y, foldOp (b.get v).op (val ((b.get v).args.get 0))
    (some (val ((b.get v).args.get 1))) = some y → val v = y

variable {val : ValueRef → U64}

/-- The value of a binary node as a word. -/
theorem Models.binary_eq (hm : Models b l consts val) (hv : v ∈ l) {w : Nat}
    {f : BitVec w → BitVec w → BitVec w} (hw : (b.get v).op.sizeBits = w)
    (hf : binary w (b.get v).op = some f) :
    (val v).setWidth w = f ((val ((b.get v).args.get 0)).setWidth w)
      ((val ((b.get v).args.get 1)).setWidth w) := by
  obtain ⟨y, hy, hval⟩ := foldOp_binary hw hf (val ((b.get v).args.get 0))
    (val ((b.get v).args.get 1))
  rw [hm.node v hv y hy, hval]

/-- The value a term stands for, modulo `2 ^ bits`. -/
def Term.value (val : ValueRef → U64) (bits : Nat) (t : Term) : BitVec bits :=
  (val t.base).setWidth bits * t.coeff.setWidth bits

theorem setWidth_mul_of_le {w : Nat} (hw : w ≤ 64) (x y : U64) :
    (x * y).setWidth w = x.setWidth w * y.setWidth w := BitVec.setWidth_mul x y hw

/-- The amount of a shift, masked and modulo the width. -/
theorem shiftBy_eq (hbits : bits = 32 ∨ bits = 64) (c : U64) :
    shiftBy c (BitVec.ofNat 32 (bits - 1)) = (c.setWidth bits).toNat % bits := by
  rcases hbits with rfl | rfl
  · exact shiftBy_31 c
  · exact shiftBy_63 c

/-- **One step of the descent.**  What is made of a term for the argument is a term for the node. -/
theorem descend_value (hm : Models b l consts val) (hv : v ∈ l) (hbits : bits = 32 ∨ bits = 64)
    {arg : ValueRef} {k : Term → Term} (hd : descend b consts bits v = some (arg, k))
    (ht : (val arg).setWidth bits = t.value val bits) :
    (val v).setWidth bits = (k t).value val bits := by
  have hle : bits ≤ 64 := by omega
  simp only [descend] at hd
  split at hd
  · cases hd
  split at hd
  case h_1 hop | h_2 hop =>
    split at hd
    case isFalse => cases hd
    case isTrue hb =>
      have hmul := hm.binary_eq hv (f := (· * ·)) hb (by rw [hop]; rfl)
      split at hd
      case h_1 c hc =>
        cases hd
        rw [hmul, hm.const _ _ hc, ht, Term.value, Term.value, setWidth_mul_of_le hle]
        ring
      case h_2 c _ hc =>
        cases hd
        rw [hmul, hm.const _ _ hc, ht, Term.value, Term.value, setWidth_mul_of_le hle]
        ring
      case h_3 => cases hd
  case h_3 hop | h_4 hop =>
    split at hd
    case isFalse => cases hd
    case isTrue hb =>
      obtain ⟨c, hc, heq⟩ := Option.map_eq_some_iff.mp hd
      cases heq
      have hlsl := hm.binary_eq hv (f := fun x c => x <<< (c.toNat % bits)) hb (by rw [hop]; rfl)
      rw [hlsl, hm.const _ _ hc, ht, Term.value, Term.value, ← shiftBy_eq hbits,
        BitVec.setWidth_shiftLeft_of_le hle, BitVec.shiftLeft_eq_mul_twoPow,
        BitVec.shiftLeft_eq_mul_twoPow, mul_assoc]
  case h_5 hop =>
    cases hd
    have hid := hm.node v hv (val ((b.get v).args.get 0)) (by rw [hop]; rfl)
    rw [hid, ht]
    rfl
  case h_6 => cases hd

theorem Extracts.value (h : Extracts b consts bits v t) (hssa : b.Ssa l)
    (hm : Models b l consts val) (hv : v.isSome → v ∈ l) (hbits : bits = 32 ∨ bits = 64) :
    (val v).setWidth bits = t.value val bits := by
  induction h with
  | @leaf v =>
    have hone : (1 : U64).setWidth bits = 1 := by rcases hbits with rfl | rfl <;> rfl
    rw [Term.value, Term.leaf, hone, mul_one]
  | @step v arg k t hd _ ih =>
    have hsome : v.isSome := by
      by_contra hnone
      obtain rfl : v = ValueRef.none := by simpa using hnone
      rw [descend_none] at hd
      cases hd
    obtain ⟨l₁, l₂, rfl⟩ := List.append_of_mem (hv hsome)
    refine descend_value hm (hv hsome) hbits hd (ih fun hx => ?_)
    obtain ⟨i, rfl⟩ := descend_arg hd
    exact List.mem_append_left _ (hssa.arg_mem i hx)

/-! ## Folding a sum -/

/-- The multiplication that takes the place of a sum, as `visitMulFold` chooses it. -/
def productOf (op : Op) : Op := if op.sizeBits = 32 then .mul32 else .mul64

/-- The coefficient of the sum or the difference of two terms. -/
def sumCoeff (op : Op) (lhs rhs : U64) : U64 :=
  if op == .sub32 || op == .sub64 then lhs - rhs else lhs + rhs

theorem tryMulFold_eq_some {add : Armlet} {base : ValueRef} {coeff : U64}
    (h : tryMulFold add b consts = some (base, coeff)) :
    ∃ lhs rhs, lhs = extractTerm b consts add.op.sizeBits b.code.size (add.args.get 0) ∧
      rhs = extractTerm b consts add.op.sizeBits b.code.size (add.args.get 1) ∧
      lhs.base = base ∧ rhs.base = base ∧
      coeff = sumCoeff add.op lhs.coeff rhs.coeff &&& maskOf add.op.sizeBits := by
  obtain ⟨hbase, h⟩ := Option.ite_none_left_eq_some.mp h
  obtain ⟨-, h⟩ := Option.ite_none_left_eq_some.mp h
  obtain ⟨-, h⟩ := Option.ite_none_left_eq_some.mp h
  obtain ⟨rfl, rfl⟩ := Prod.mk.inj (Option.some.inj h)
  rw [not_or, not_not] at hbase
  exact ⟨_, _, rfl, rfl, rfl, hbase.1.symm, rfl⟩

/-- The product of the base and the summed coefficients is the sum of the products. -/
theorem foldOp_productOf {op : Op} (h : isSum op) {x y base lhs rhs : U64}
    (hx : x.setWidth op.sizeBits = base.setWidth op.sizeBits * lhs.setWidth op.sizeBits)
    (hy : y.setWidth op.sizeBits = base.setWidth op.sizeBits * rhs.setWidth op.sizeBits) :
    foldOp (productOf op) base (some (sumCoeff op lhs rhs &&& maskOf op.sizeBits)) =
      foldOp op x (some y) := by
  simp only [isSum, Bool.or_eq_true, beq_iff_eq] at h
  rcases h with ((rfl | rfl) | rfl) | rfl
  · change x.setWidth 32 = base.setWidth 32 * lhs.setWidth 32 at hx
    change y.setWidth 32 = base.setWidth 32 * rhs.setWidth 32 at hy
    change some (on32 (· * ·) base (lhs + rhs &&& maskOf 32)) = some (on32 (· + ·) x y)
    rw [on32, on32, hx, hy, BitVec.setWidth_and, setWidth_maskOf, BitVec.and_allOnes,
      setWidth_32_add, mul_add]
  · change x.setWidth 64 = base.setWidth 64 * lhs.setWidth 64 at hx
    change y.setWidth 64 = base.setWidth 64 * rhs.setWidth 64 at hy
    change some (base * (lhs + rhs &&& BitVec.allOnes 64)) = some (x + y)
    simp only [BitVec.setWidth_eq] at hx hy
    rw [hx, hy, BitVec.and_allOnes, mul_add]
  · change x.setWidth 32 = base.setWidth 32 * lhs.setWidth 32 at hx
    change y.setWidth 32 = base.setWidth 32 * rhs.setWidth 32 at hy
    change some (on32 (· * ·) base (lhs - rhs &&& maskOf 32)) = some (on32 (· - ·) x y)
    rw [on32, on32, hx, hy, BitVec.setWidth_and, setWidth_maskOf, BitVec.and_allOnes,
      setWidth_32_sub, mul_sub]
  · change x.setWidth 64 = base.setWidth 64 * lhs.setWidth 64 at hx
    change y.setWidth 64 = base.setWidth 64 * rhs.setWidth 64 at hy
    change some (base * (lhs - rhs &&& BitVec.allOnes 64)) = some (x - y)
    simp only [BitVec.setWidth_eq] at hx hy
    rw [hx, hy, BitVec.and_allOnes, mul_sub]

theorem sizeBits_of_isSum {op : Op} (h : isSum op) : op.sizeBits = 32 ∨ op.sizeBits = 64 := by
  simp only [isSum, Bool.or_eq_true, beq_iff_eq] at h
  rcases h with ((rfl | rfl) | rfl) | rfl <;> decide

/-- **Sums of multiples.**  In a live list in which arguments come first, the descent from both
operands of a sum or difference ends with what `extractTerm` finds; and the multiplication of the
base and the coefficient that are returned has the value of the sum, whatever the values of the
nodes, as long as they agree with the operations and the known constants. -/
theorem tryMulFold_sound (hwalk : b.Walk b.head l) (hssa : b.Ssa l) {add : Armlet}
    (hadd : isSum add.op) (hargs : ∀ k, (add.args.get k).isSome → add.args.get k ∈ l) :
    (∀ k, Extracts b consts add.op.sizeBits (add.args.get k)
      (extractTerm b consts add.op.sizeBits b.code.size (add.args.get k))) ∧
    ∀ base coeff, tryMulFold add b consts = some (base, coeff) →
      ∀ val, Models b l consts val →
        foldOp (productOf add.op) (val base) (some coeff) =
          foldOp add.op (val (add.args.get 0)) (some (val (add.args.get 1))) := by
  have hends (k : Fin 4) : Extracts b consts add.op.sizeBits (add.args.get k)
      (extractTerm b consts add.op.sizeBits b.code.size (add.args.get k)) :=
    extracts_of_ssa hwalk hssa (hargs k)
  refine ⟨hends, fun base coeff h val hm => ?_⟩
  obtain ⟨lhs, rhs, hl, hr, hlb, hrb, rfl⟩ := tryMulFold_eq_some h
  have hbits := sizeBits_of_isSum hadd
  have hlv := (hl ▸ hends 0).value hssa hm (hargs 0) hbits
  have hrv := (hr ▸ hends 1).value hssa hm (hargs 1) hbits
  rw [Term.value, hlb] at hlv
  rw [Term.value, hrb] at hrv
  exact foldOp_productOf hadd hlv hrv

/-- `X0 * 3 + (X0 << 2)`. -/
def threeAndFour : Block :=
  (Block.new 0).pushAll [Armlet.new .getX .u64, (Armlet.new .constU64 .u64).withImm 3,
    (Armlet.new .mul64 .u64).withArgs [1, 2], (Armlet.new .constU64 .u64).withImm 2,
    (Armlet.new .lsl64 .u64).withArgs [1, 4], (Armlet.new .add64 .u64).withArgs [3, 5]]

/-- The constants of `threeAndFour`. -/
def threeAndFourConsts : Consts := fun v => if v = 2 then some 3 else if v = 4 then some 2 else none

/-- The values of its nodes when `X0` is five. -/
def threeAndFourValues : ValueRef → U64 := fun v => [0, 5, 3, 15, 2, 20, 35].getD v 0

theorem tryMulFold_sound_threeAndFour :
    tryMulFold (threeAndFour.get 6) threeAndFour threeAndFourConsts = some (1, 7) ∧
      foldOp (productOf .add64) (threeAndFourValues 1) (some 7) =
        foldOp .add64 (threeAndFourValues 3) (some (threeAndFourValues 5)) := by
  have hlinked : threeAndFour.Linked [1, 2, 3, 4, 5, 6] :=
    (Block.Linked.new 0).pushAll (by decide) _
  have hfold : tryMulFold (threeAndFour.get 6) threeAndFour threeAndFourConsts = some (1, 7) := by
    decide
  have hsound := @tryMulFold_sound threeAndFour threeAndFourConsts _ hlinked.walk (by decide)
    (threeAndFour.get 6) (by decide) (by decide)
  refine ⟨hfold, hsound.2 1 7 hfold threeAndFourValues ⟨fun v c h => ?_, fun v hv y hy => ?_⟩⟩
  · simp only [constOf, threeAndFourConsts] at h
    split_ifs at h with h0 h2 h4
    · obtain rfl := Option.some.inj h
      rw [h2]
      rfl
    · obtain rfl := Option.some.inj h
      rw [h4]
      rfl
  · have hall : ∀ v ∈ [1, 2, 3, 4, 5, 6], (foldOp (threeAndFour.get v).op
        (threeAndFourValues ((threeAndFour.get v).args.get 0))
        (some (threeAndFourValues ((threeAndFour.get v).args.get 1)))).all
          (fun y => threeAndFourValues v == y) := by decide
    have hv' := hall v hv
    rw [hy] at hv'
    exact eq_of_beq hv'

end Optimizer

end Rustarmic
