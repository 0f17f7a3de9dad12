import Rustarmic.Interp.Crypto

/-!
# AES in the backend

The byte routines the compiled code calls for AES, and that they and the instruction helpers compute
the same and undo each other.

* `CryptoAes.transform` — substitution with the row shift, and the column mix.
* `gfMul_eq`, `multiply_eq` — both multiplications are the one of the field.
* `aes_agree` — the two implementations agree, decryption undoes encryption.

The two implementations have been written apart.  One multiplies by branches, the other one by
masks, in eight rounds; both have a loop of their own for the inverse in the field, and both compute
their tables at compile time.  So there is nothing in common to start from except the field, and
each multiplication is shown to be the one of `Lib.BinaryField` with the polynomial of AES.

**What is evaluated.**  That the substitution is a permutation of the 256 bytes is found by
computing it for all of them, as is usual; the inverse table is built from the table, so that it
needs nothing more.

**What is not.**  The column mix works on four bytes at once, and its inverse is checked by
linearity: a map that is additive is determined by what it does to single bits, and for these the
weights are evaluated.  `Linear.ext` is the step from eight bits to all bytes.
-/

set_option autoImplicit false

namespace Rustarmic
namespace CryptoAes

open Interp

/-! ## The routines -/

/-- One round of `multiply`, on `(a, b, result)`. -/
def multiplyRound (s : U8 × U8 × U8) : U8 × U8 × U8 :=
  let (a, b, result) := s
  let result := result ^^^ (a &&& (0#8 - (b &&& 1#8)))
  ((a <<< 1) ^^^ (0x1b#8 &&& (0#8 - (a >>> 7))), b >>> 1, result)

def multiply (a b : U8) : U8 := (multiplyRound^[8] (a, b, 0#8)).2.2

/-- The rounds of `inverse`. -/
def inverseLoop (result base : U8) (exponent : Nat) : U8 :=
  if exponent = 0 then result
  else
    inverseLoop (if exponent &&& 1 ≠ 0 then multiply result base else result)
      (multiply base base) (exponent >>> 1)
termination_by exponent
decreasing_by
  rw [Nat.shiftRight_eq_div_pow]
  omega

def inverse (value : U8) : U8 := inverseLoop 1#8 value 254

/-- Entry `index` of S_BOX. -/
def substitution (index : Fin 256) : U8 :=
  let value := inverse (BitVec.ofFin index)
  value ^^^ value.rotateLeft 1 ^^^ value.rotateLeft 2 ^^^ value.rotateLeft 3 ^^^
    value.rotateLeft 4 ^^^ 0x63#8

/-- INVERSE_S_BOX. -/
def inverseSubstitution : Fin 256 → U8 := stored substitution

def round (input : Bytes16) (decrypt : Bool) : Bytes16 := fun i =>
  let table := if decrypt then inverseSubstitution else substitution
  let column := i.val / 4
  let row := i.val % 4
  let sourceColumn := if decrypt then (column + 4 - row) &&& 3 else (column + row) &&& 3
  table (input (Fin.ofNat 16 (sourceColumn * 4 + row))).toFin

def mixColumns (input : Bytes16) (inverse : Bool) : Bytes16 := fun i =>
  let coefficients : Fin 4 → U8 := if inverse then ![14, 11, 13, 9] else ![2, 3, 1, 1]
  let column := i.val / 4
  let row := i.val % 4
  (List.finRange 4).foldl (fun output offset =>
    output ^^^ multiply (input (Fin.ofNat 16 (column * 4 + ((row + offset.val) &&& 3))))
      (coefficients offset)) 0#8

/-- The routine behind the compiled instructions; other modes do not occur. -/
def transform (input : Bytes16) (mode : Nat) : Option Bytes16 :=
  match mode with
  | 0 => some (round input false)
  | 1 => some (round input true)
  | 2 => some (mixColumns input false)
  | 3 => some (mixColumns input true)
  | _ => none

/-! ## Multiplication -/

/-- The product of the field of AES. -/
def product (a b : U8) : U8 := BinaryField.mul 0x1B#8 8 a b

theorem xtime_eq (a : U8) : BinaryField.xtime 0x1B#8 a =
    if a &&& 0x80#8 ≠ 0#8 then (a <<< 1) ^^^ 0x1B#8 else a <<< 1 := by
  revert a
  decide

theorem addend_eq (a b : U8) : (a &&& (0#8 - (b &&& 1#8))) = if b.getLsbD 0 then a else 0#8 := by
  have hb : 0#8 - (b &&& 1#8) = if b.getLsbD 0 then BitVec.allOnes 8 else 0#8 := by
    revert b
    decide
  rw [hb]
  split
  · exact BitVec.and_allOnes
  · exact BitVec.and_zero

theorem gfMulLoop_eq {n : Nat} (a : U8) {b : U8} (r : U8) (h : b.toNat < 2 ^ n) :
    gfMulLoop a b r = r ^^^ BinaryField.mul 0x1B#8 n a b := by
  induction n generalizing a b r with
  | zero =>
    have hb : b = 0#8 := BitVec.eq_of_toNat_eq (by simpa using h)
    rw [gfMulLoop, if_pos hb, hb, BinaryField.mul_zero, BitVec.xor_zero]
  | succ n ih =>
    by_cases hb : b = 0#8
    · rw [gfMulLoop, if_pos hb, hb, BinaryField.mul_zero, BitVec.xor_zero]
    · have hlt : (b >>> 1).toNat < 2 ^ n := by
        rw [BitVec.toNat_ushiftRight, Nat.shiftRight_eq_div_pow, pow_one]
        exact Nat.div_lt_of_lt_mul (by rw [← Nat.pow_succ']; exact h)
      have hsum : (if b &&& 1#8 ≠ 0#8 then r ^^^ a else r) =
          r ^^^ (if b.getLsbD 0 then a else 0) := by
        have hbit : b &&& 1#8 ≠ 0#8 ↔ b.getLsbD 0 = true := by
          clear ih hlt hb h
          revert b
          decide
        simp only [hbit]
        split
        · rfl
        · exact BitVec.xor_zero.symm
      rw [gfMulLoop, if_neg hb]
      dsimp only
      rw [← xtime_eq, hsum, ih _ _ hlt, BinaryField.mul, BitVec.xor_assoc]

theorem gfMul_eq (a b : U8) : gfMul a b = product a b := by
  rw [gfMul, gfMulLoop_eq a 0#8 b.isLt, BitVec.zero_xor, product]

theorem product_xor (a b c : U8) : product a (b ^^^ c) = product a b ^^^ product a c :=
  BinaryField.mul_xor _ _ _ _ _

theorem product_linear (a : U8) : BinaryField.Linear (product a) := product_xor a

theorem product_linear_left (b : U8) : BinaryField.Linear fun a => product a b := fun _ _ =>
  BinaryField.xor_mul _ _ _ _ _

/-- Two products of powers of the variable may be exchanged, so all products may. -/
theorem product_comm (a b : U8) : product a b = product b a := by
  have hpow : ∀ i < 8, ∀ j < 8, product (1#8 <<< i) (1#8 <<< j) = product (1#8 <<< j) (1#8 <<< i) := by
    decide
  have hright : ∀ j < 8, (fun a => product a (1#8 <<< j)) = product (1#8 <<< j) := fun j hj =>
    (product_linear_left _).ext (product_linear _) fun i hi => hpow i hi j hj
  have hall : product a = fun b => product b a :=
    (product_linear a).ext (product_linear_left a) fun j hj => congrFun (hright j hj) a
  exact congrFun hall b

theorem multiplyRound_iterate (n : Nat) (a b r : U8) :
    (multiplyRound^[n] (a, b, r)).2.2 = r ^^^ BinaryField.mul 0x1B#8 n a b := by
  induction n generalizing a b r with
  | zero => simp [BinaryField.mul]
  | succ n ih =>
    have hx : ((a <<< 1) ^^^ (0x1b#8 &&& (0#8 - (a >>> 7)))) = BinaryField.xtime 0x1B#8 a := by
      revert a
      decide
    rw [Function.iterate_succ_apply, multiplyRound, ih, hx, addend_eq, BinaryField.mul, BitVec.xor_assoc]
    rfl

theorem multiply_eq (a b : U8) : multiply a b = product a b := by
  rw [multiply, multiplyRound_iterate, BitVec.zero_xor, product]

/-! ## The substitution tables -/

theorem gfInvLoop_eq {n : Nat} (r base : U8) {e : Nat} (h : e < 2 ^ n) :
    gfInvLoop r base e = BinaryField.pow 0x1B#8 8 n r base e := by
  induction n generalizing r base e with
  | zero =>
    rw [gfInvLoop, if_pos (by simpa using h)]
    rfl
  | succ n ih =>
    rw [gfInvLoop]
    by_cases he : e = 0
    · rw [if_pos he, he, BinaryField.pow_zero]
    · have hlt : e >>> 1 < 2 ^ n := by
        rw [Nat.shiftRight_eq_div_pow, pow_one]
        exact Nat.div_lt_of_lt_mul (by rw [← Nat.pow_succ']; exact h)
      have hodd : e &&& 1 ≠ 0 ↔ e % 2 = 1 := by
        rw [Nat.and_one_is_mod]
        omega
      rw [if_neg he, ih _ _ hlt, Nat.shiftRight_eq_div_pow, pow_one, BinaryField.pow, gfMul_eq,
        gfMul_eq]
      simp only [hodd]
      rfl

theorem inverseLoop_eq (r base : U8) (e : Nat) : inverseLoop r base e = gfInvLoop r base e := by
  induction r, base, e using gfInvLoop.induct with
  | case1 r base => rw [inverseLoop, gfInvLoop, if_pos rfl, if_pos rfl]
  | case2 r base e he ih =>
    rw [inverseLoop, gfInvLoop, if_neg he, if_neg he]
    simp only [multiply_eq, gfMul_eq, dite_eq_ite] at ih ⊢
    exact ih

/-- The inverse as a power. -/
theorem gfInv_eq (a : U8) : gfInv a = BinaryField.pow 0x1B#8 8 8 1#8 a 254 :=
  gfInvLoop_eq _ _ (by decide)

theorem gfInv_zero : gfInv 0#8 = 0#8 := by
  rw [gfInv_eq]
  decide

/-- The affine part of the substitution. -/
def affine (value : U8) : U8 :=
  value ^^^ value.rotateLeft 1 ^^^ value.rotateLeft 2 ^^^ value.rotateLeft 3 ^^^
    value.rotateLeft 4 ^^^ 0x63#8

theorem substitution_eq (i : Fin 256) :
    substitution i = affine (BinaryField.pow 0x1B#8 8 8 1#8 (BitVec.ofFin i) 254) := by
  rw [substitution, inverse, inverseLoop_eq, ← gfInv, gfInv_eq]
  rfl

theorem sbox_eq : sbox = substitution := by
  funext i
  have hinv : (if i = 0 then 0#8 else gfInv (BitVec.ofFin i)) = gfInv (BitVec.ofFin i) := by
    split
    case isTrue h =>
      rw [h]
      exact gfInv_zero.symm
    case isFalse => rfl
  rw [sbox, hinv, substitution_eq, ← gfInv_eq]
  generalize gfInv (BitVec.ofFin i) = v
  revert v
  decide

/-- The entries of a table, as a set of bits. -/
def entries (table : Fin 256 → U8) : Nat :=
  (List.finRange 256).foldl (fun set i => set ||| 1 <<< (table i).toNat) 0

theorem exists_of_testBit {table : Fin 256 → U8} {n : Nat}
    (h : (entries table).testBit n = true) : ∃ i, (table i).toNat = n := by
  have hfold : ∀ (l : List (Fin 256)) (set : Nat),
      (l.foldl (fun set i => set ||| 1 <<< (table i).toNat) set).testBit n = true →
        set.testBit n = true ∨ ∃ i, (table i).toNat = n := by
    intro l
    induction l with
    | nil => exact fun _ h => Or.inl h
    | cons i l ih =>
      intro set h
      rcases ih _ h with h | h
      · rw [Nat.testBit_or, Bool.or_eq_true, Nat.one_shiftLeft, Nat.testBit_two_pow,
          decide_eq_true_eq] at h
        exact h.imp id fun h => ⟨i, h⟩
      · exact Or.inr h
  rcases hfold _ _ h with h | h
  · rw [Nat.zero_testBit] at h
    exact absurd h Bool.false_ne_true
  · exact h

theorem entries_substitution : entries substitution = 2 ^ 256 - 1 := by
  have h : substitution = fun i =>
      affine (BinaryField.pow 0x1B#8 8 8 1#8 (BitVec.ofFin i) 254) := funext substitution_eq
  rw [h]
  decide +kernel

/-- **The substitution is a permutation of the bytes.** -/
theorem substitution_injective : Function.Injective fun i => (substitution i).toFin := by
  refine Finite.injective_iff_surjective.mpr fun j => ?_
  obtain ⟨i, hi⟩ : ∃ i, (substitution i).toNat = j.val := by
    refine exists_of_testBit ?_
    rw [entries_substitution, Nat.testBit_two_pow_sub_one, decide_eq_true j.isLt]
  exact ⟨i, Fin.ext hi⟩

theorem stored_apply {table : Fin 256 → U8} (h : Function.Injective fun i => (table i).toFin)
    (i : Fin 256) : stored table (table i).toFin = BitVec.ofFin i := by
  have hfold : ∀ (l : List (Fin 256)) (s : Fin 256 → U8),
      l.foldl (fun s i => Function.update s (table i).toFin (BitVec.ofFin i)) s (table i).toFin =
        if i ∈ l then BitVec.ofFin i else s (table i).toFin := by
    intro l
    induction l with
    | nil => simp
    | cons j l ih =>
      intro s
      rw [List.foldl_cons, ih]
      by_cases hij : i = j
      · rw [hij, Function.update_self]
        simp
      · rw [Function.update_of_ne fun heq => hij (h heq)]
        simp [hij]
  rw [stored, hfold, if_pos (List.mem_finRange i)]

/-! ## Bytes of a register -/

@[simp] theorem bytes_fromBytes (b : Bytes16) : bytes (fromBytes b) = b := by
  funext i
  rw [bytes, fromBytes, Lanes.lane_ofLanes _ (by omega)]
  congr 1
  exact Fin.ofNat_val_eq_self i

@[simp] theorem fromBytes_bytes (v : U128) : fromBytes (bytes v) = v := by
  refine Lanes.ext_lane (w := 8) (by decide) fun k hk => ?_
  have hk16 : k < 16 := by omega
  rw [fromBytes, Lanes.lane_ofLanes _ (by omega), bytes, Fin.val_ofNat, Nat.mod_eq_of_lt hk16]

/-! ## The column mix -/

/-- The four bytes of a column, weighted from a row on. -/
def mixed (s : Bytes16) (m : Fin 4 → U8) : Bytes16 := fun i =>
  let c := i.val / 4
  let r := i.val % 4
  product (m 0) (cell s c r) ^^^ product (m 1) (cell s c (r + 1)) ^^^
    product (m 2) (cell s c (r + 2)) ^^^ product (m 3) (cell s c (r + 3))

theorem mix_eq (v : U128) (m : Fin 4 → U8) : mix v m = fromBytes (mixed (bytes v) m) := by
  rw [mix]
  simp only [gfMul_eq]
  rfl

theorem mixColumns_eq (input : Bytes16) (inverse : Bool) :
    mixColumns input inverse =
      mixed input (if inverse then ![14, 11, 13, 9] else ![2, 3, 1, 1]) := by
  funext i
  have hcell : ∀ n, input (Fin.ofNat 16 (i.val / 4 * 4 + (n &&& 3))) = cell input (i.val / 4) n := by
    intro n
    rw [cell, Nat.and_two_pow_sub_one_eq_mod n 2, Nat.mul_comm]
  have hlist : List.finRange 4 = [0, 1, 2, 3] := rfl
  rw [mixColumns, mixed, hlist]
  simp only [List.foldl_cons, List.foldl_nil, hcell, multiply_eq, BitVec.zero_xor]
  rw [product_comm, product_comm (cell _ _ (_ + _)), product_comm (cell _ _ (_ + _)),
    product_comm (cell _ _ (_ + _))]
  rfl

theorem cell_mod (s : Bytes16) (c n k : Nat) : cell s c (n % 4 + k) = cell s c (n + k) := by
  rw [cell, cell, Nat.mod_add_mod]

theorem cell_mixed (s : Bytes16) (m : Fin 4 → U8) {c : Nat} (hc : c < 4) (n : Nat) :
    cell (mixed s m) c n =
      product (m 0) (cell s c n) ^^^ product (m 1) (cell s c (n + 1)) ^^^
        product (m 2) (cell s c (n + 2)) ^^^ product (m 3) (cell s c (n + 3)) := by
  have hi : (Fin.ofNat 16 (4 * c + n % 4)).val = 4 * c + n % 4 := Nat.mod_eq_of_lt (by omega)
  rw [cell, mixed, hi, Nat.mul_add_div (by decide), Nat.div_eq_of_lt (Nat.mod_lt n (by decide)),
    Nat.mul_add_mod, Nat.mod_mod, Nat.add_zero]
  rw [cell_mod, cell_mod, cell_mod]
  congr 4
  exact cell_mod s c n 0

/-- The weight of one byte of a column in a byte of the column mixed twice. -/
def weight (p q r s x : U8) : U8 :=
  product 14#8 (product p x) ^^^ product 11#8 (product q x) ^^^ product 13#8 (product r x) ^^^
    product 9#8 (product s x)

theorem weight_linear (p q r s : U8) : BinaryField.Linear (weight p q r s) :=
  ((((product_linear _).comp (product_linear p)).add
    ((product_linear _).comp (product_linear q))).add
    ((product_linear _).comp (product_linear r))).add ((product_linear _).comp (product_linear s))

theorem weight_self (x : U8) : weight 2 1 1 3 x = x :=
  congrFun ((weight_linear 2 1 1 3).ext BinaryField.Linear.id (by decide)) x

theorem weight_other (x : U8) :
    weight 3 2 1 1 x = 0#8 ∧ weight 1 3 2 1 x = 0#8 ∧ weight 1 1 3 2 x = 0#8 := by
  have hzero : BinaryField.Linear fun _ : U8 => 0#8 := fun _ _ => BitVec.xor_self.symm
  exact ⟨congrFun ((weight_linear _ _ _ _).ext hzero (by decide)) x,
    congrFun ((weight_linear _ _ _ _).ext hzero (by decide)) x,
    congrFun ((weight_linear _ _ _ _).ext hzero (by decide)) x⟩

/-- **The second mix undoes the first.** -/
theorem mixed_mixed (s : Bytes16) : mixed (mixed s ![2, 3, 1, 1]) ![14, 11, 13, 9] = s := by
  funext i
  have hc : i.val / 4 < 4 := by omega
  have hi : cell s (i.val / 4) (i.val % 4) = s i := by
    rw [cell, Nat.mod_mod, Nat.div_add_mod]
    congr 1
    exact Fin.ofNat_val_eq_self i
  have hwrap : ∀ n, cell s (i.val / 4) (n + 4) = cell s (i.val / 4) n := by
    intro n
    rw [cell, cell, Nat.add_mod_right]
  rw [mixed]
  simp only [cell_mixed _ _ hc]
  rw [← hi]
  generalize i.val % 4 = r
  have h4 := hwrap r
  have h5 := hwrap (r + 1)
  have h6 := hwrap (r + 2)
  simp only [Nat.add_assoc, Nat.reduceAdd] at h4 h5 h6 ⊢
  rw [h4, h5, h6]
  generalize cell s (i.val / 4) r = x0
  generalize cell s (i.val / 4) (r + 1) = x1
  generalize cell s (i.val / 4) (r + 2) = x2
  generalize cell s (i.val / 4) (r + 3) = x3
  have hsum : weight 2 1 1 3 x0 ^^^ weight 3 2 1 1 x1 ^^^ weight 1 3 2 1 x2 ^^^ weight 1 1 3 2 x3 =
      x0 := by
    rw [weight_self, (weight_other x1).1, (weight_other x2).2.1, (weight_other x3).2.2,
      BitVec.xor_zero, BitVec.xor_zero, BitVec.xor_zero]
  refine Eq.trans ?_ hsum
  simp only [weight, product_xor]
  have hm : (![14, 11, 13, 9] : Fin 4 → U8) 0 = 14#8 ∧ (![14, 11, 13, 9] : Fin 4 → U8) 1 = 11#8 ∧
      (![14, 11, 13, 9] : Fin 4 → U8) 2 = 13#8 ∧ (![14, 11, 13, 9] : Fin 4 → U8) 3 = 9#8 :=
    ⟨rfl, rfl, rfl, rfl⟩
  have hn : (![2, 3, 1, 1] : Fin 4 → U8) 0 = 2#8 ∧ (![2, 3, 1, 1] : Fin 4 → U8) 1 = 3#8 ∧
      (![2, 3, 1, 1] : Fin 4 → U8) 2 = 1#8 ∧ (![2, 3, 1, 1] : Fin 4 → U8) 3 = 1#8 :=
    ⟨rfl, rfl, rfl, rfl⟩
  rw [hm.1, hm.2.1, hm.2.2.1, hm.2.2.2, hn.1, hn.2.1, hn.2.2.1, hn.2.2.2]
  ac_rfl

/-! ## Agreement -/

theorem round_encrypt (input : Bytes16) :
    round input false = fun i => sbox (input (shiftRows i)).toFin := by
  have hindex : ∀ i : Fin 16,
      Fin.ofNat 16 (((i.val / 4 + i.val % 4) &&& 3) * 4 + i.val % 4) = shiftRows i := by decide
  funext i
  rw [sbox_eq, ← hindex]
  rfl

theorem round_decrypt (input : Bytes16) :
    round input true = fun i => invSbox (input (invShiftRows i)).toFin := by
  have hindex : ∀ i : Fin 16,
      Fin.ofNat 16 (((i.val / 4 + 4 - i.val % 4) &&& 3) * 4 + i.val % 4) = invShiftRows i := by decide
  funext i
  rw [invSbox, sbox_eq, ← hindex]
  rfl

/-- Decryption with a zero key undoes encryption. -/
theorem aesd_aese (d k : U128) : aesd (aese d k) 0#128 = d ^^^ k := by
  have hperm : ∀ i, shiftRows (invShiftRows i) = i := by decide
  have hsub : ∀ b : U8, invSbox (sbox b.toFin).toFin = b := by
    intro b
    rw [invSbox, sbox_eq]
    exact stored_apply substitution_injective b.toFin
  rw [aesd, BitVec.xor_zero, aese, bytes_fromBytes]
  simp only [hsub, hperm]
  exact fromBytes_bytes _

theorem aesimc_aesmc (d : U128) : aesimc (aesmc d) = d := by
  rw [aesimc, aesmc, mix_eq, mix_eq, bytes_fromBytes, mixed_mixed, fromBytes_bytes]

/-- **The compiled AES instructions compute what the interpreter computes, and invert.** -/
theorem aes_agree (d k : U128) :
    transform (bytes (d ^^^ k)) 0 = some (bytes (aese d k)) ∧
    transform (bytes (d ^^^ k)) 1 = some (bytes (aesd d k)) ∧
    transform (bytes d) 2 = some (bytes (aesmc d)) ∧
    transform (bytes d) 3 = some (bytes (aesimc d)) ∧
    aesd (aese d k) 0#128 = d ^^^ k ∧ aesimc (aesmc d) = d := by
  refine ⟨?_, ?_, ?_, ?_, aesd_aese d k, aesimc_aesmc d⟩
  · rw [transform, round_encrypt, aese, bytes_fromBytes]
  · rw [transform, round_decrypt, aesd, bytes_fromBytes]
  · rw [transform, mixColumns_eq, aesmc, mix_eq, bytes_fromBytes]
    rfl
  · rw [transform, mixColumns_eq, aesimc, mix_eq, bytes_fromBytes]
    rfl

end CryptoAes
end Rustarmic
