import Mathlib.Tactic.FinCases
import Rustarmic.Interp.CryptoWords
import Rustarmic.Lib.SecureHash

/-!
# SHA-256 in the backend

The portable routine the compiled code calls for SHA-256, that it and the instruction helpers
compute the same, and that a pair of hash instructions is four rounds of the hash function.

* `CryptoSha256.transform` — the hash update and the schedule updates on arrays of words.
* `hash_rounds` — a pair of hash instructions is four rounds of the standard.
* `sha256_agree` — all of it together.

The routine and the helper have the same state in different clothes: eight words in two arrays here,
two registers of 128 bits there.  `words` and `pack` go between them, and `ext_words` says that
nothing is lost.  What a helper does by shifting a register is an update of an array then, word by
word (`Interp.CryptoWords`), and the two rounds are the same function.

That still says nothing about SHA-256.  The standard has its own state, the variables `a` to `h`,
and its own round, and those are in `Lib.SecureHash` for both word sizes.  `abcd` and `efgh` are
what the instructions expect in their registers, and `hashRound_eq` is one round.  The constants
come to the instructions added to the words of the schedule already, which is how the guest's code
has to use them.
-/

set_option autoImplicit false

namespace Rustarmic
namespace CryptoSha256

open Interp (w setW sha256h sha256h2 sha256su0 sha256su1 w_eq_lane w_setW w_push_zero w_push_succ
  w_shifted w_high w_low choose_eq majority_eq)

open SecureHash (Sha2 sha256 ch)

/-! ## The routine -/

/-- Four words, in the order of memory. -/
abbrev Words := Fin 4 → U32

def sigma0 (value : U32) : U32 := value.rotateRight 7 ^^^ value.rotateRight 18 ^^^ (value >>> 3)

def sigma1 (value : U32) : U32 := value.rotateRight 17 ^^^ value.rotateRight 19 ^^^ (value >>> 10)

/-- A round of `hash`, on `x` and `y`. -/
def hashRound (s : Words × Words) (word : U32) : Words × Words :=
  let (x, y) := s
  let choose := (y 0 &&& y 1) ^^^ (~~~(y 0) &&& y 2)
  let majority := (x 0 &&& x 1) ^^^ (x 0 &&& x 2) ^^^ (x 1 &&& x 2)
  let t1 := y 3 + ((y 0).rotateRight 6 ^^^ (y 0).rotateRight 11 ^^^ (y 0).rotateRight 25) + choose + word
  let t2 := ((x 0).rotateRight 2 ^^^ (x 0).rotateRight 13 ^^^ (x 0).rotateRight 22) + majority
  (![t1 + t2, x 0, x 1, x 2], ![x 3 + t1, y 0, y 1, y 2])

def hash (x y words : Words) (part2 : Bool) : Words :=
  let (x, y) := [words 0, words 1, words 2, words 3].foldl hashRound (x, y)
  if part2 then y else x

/-- Step `i` of the second schedule update. -/
def scheduleStep (d next m result : Words) (i : Fin 4) : Words :=
  let previous := if i < 2 then m (i + 2) else result (i - 2)
  Function.update result i (d i + next i + sigma1 previous)

/-- The routine behind the compiled instructions; other modes do not occur. -/
def transform (d n m : Words) (mode : Nat) : Option Words :=
  match mode with
  | 0 => some (hash d n m false)
  | 1 => some (hash n d m true)
  | 2 => some fun i => d i + sigma0 (if i = 3 then n 0 else d (i + 1))
  | 3 =>
    let next : Words := ![n 1, n 2, n 3, m 0]
    some ([0, 1, 2, 3].foldl (scheduleStep d next m) fun _ => 0#32)
  | _ => none

/-! ## Words of a register -/

/-- The words of a register. -/
def words (v : U128) : Words := fun i => w v i

/-- A register is determined by its words. -/
theorem ext_words {v v' : U128} (h : words v = words v') : v = v' :=
  Interp.ext_w fun i hi => congrFun h ⟨i, hi⟩

/-! ## Rounds -/

/-- Both registers, by words. -/
def pair (s : U128 × U128) : Words × Words := (words s.1, words s.2)

theorem sha256Round_eq (wk : U128) (s : U128 × U128) (e : Nat) :
    pair (Interp.sha256Round wk s e) = hashRound (pair s) (w wk e) := by
  obtain ⟨x, y⟩ := s
  rw [Interp.sha256Round, hashRound]
  have h1 := fun (v : U128) (a : U32) => w_push_succ v a (j := 0) (by decide)
  have h2 := fun (v : U128) (a : U32) => w_push_succ v a (j := 1) (by decide)
  have h3 := fun (v : U128) (a : U32) => w_push_succ v a (j := 2) (by decide)
  simp only [Nat.zero_add, Nat.reduceAdd] at h1 h2 h3
  refine Prod.ext (funext fun i => ?_) (funext fun i => ?_) <;> fin_cases i
  all_goals simp [pair, words, w_push_zero, h1, h2, h3, w_setW, choose_eq, majority_eq,
    Interp.sigma0, Interp.sigma1]
  all_goals ac_rfl

theorem pair_foldl (wk : U128) (l : List Nat) (s : U128 × U128) :
    pair (l.foldl (Interp.sha256Round wk) s) = (l.map (w wk)).foldl hashRound (pair s) := by
  induction l generalizing s with
  | nil => rfl
  | cons e l ih => rw [List.foldl_cons, ih, sha256Round_eq, List.map_cons, List.foldl_cons]

theorem hash_eq (x y wk : U128) (part2 : Bool) :
    hash (words x) (words y) (words wk) part2 = words (Interp.sha256Hash x y wk (!part2)) := by
  have h := pair_foldl wk (List.range 4) (x, y)
  have hl : (List.range 4).map (w wk) = [words wk 0, words wk 1, words wk 2, words wk 3] := rfl
  rw [hl] at h
  change _ = List.foldl hashRound (words x, words y) _ at h
  rw [hash, ← h, Interp.sha256Hash]
  cases part2 <;> rfl

/-! ## The schedule -/

theorem words_su0 (d n : U128) :
    words (sha256su0 d n) = fun i => words d i + sigma0 (if i = 3 then words n 0 else words d (i + 1)) := by
  have hrange : List.range 4 = [0, 1, 2, 3] := rfl
  have ht : ∀ i < 4, w (((n &&& 0xFFFFFFFF#128) <<< 96) ||| (d >>> 32)) i =
      if i = 3 then w n 0 else w d (i + 1) := fun i hi => w_shifted d n hi
  rw [sha256su0, hrange]
  funext i
  fin_cases i
  all_goals
    simp [words, w_setW, ht, sigma0]
    ac_rfl

theorem sha256su1Round_eq (d t0 : U128) (s : U128 × U128) (e : Nat) :
    Interp.sha256su1Round d t0 s e =
      let t1 := if e = 2 then s.2 &&& 0xFFFFFFFFFFFFFFFF#128 else s.1
      (t1, setW s.2 e (w d e + w t0 e + sigma1 (w t1 (e % 2)))) := by
  dsimp only [Interp.sha256su1Round, sigma1]
  congr 2
  ac_rfl

theorem words_su1 (d n m : U128) :
    words (sha256su1 d n m) =
      [0, 1, 2, 3].foldl (scheduleStep (words d) ![words n 1, words n 2, words n 3, words m 0]
        (words m)) fun _ => 0#32 := by
  have hrange : List.range 4 = [0, 1, 2, 3] := rfl
  have ht : ∀ i < 4, w (((m &&& 0xFFFFFFFF#128) <<< 96) ||| (n >>> 32)) i =
      if i = 3 then w m 0 else w n (i + 1) := fun i hi => w_shifted n m hi
  rw [sha256su1, hrange]
  funext i
  fin_cases i
  all_goals
    simp [words, sha256su1Round_eq, scheduleStep, w_setW, ht, w_high, w_low, Function.update]

/-! ## The hash function -/

/-- The registers of the hash instructions, by words. -/
def abcd (s : Sha2.State 32) : Words := ![s.a, s.b, s.c, s.d]

def efgh (s : Sha2.State 32) : Words := ![s.e, s.f, s.g, s.h]

theorem hashRound_eq (s : Sha2.State 32) (k wt : U32) :
    hashRound (abcd s, efgh s) (k + wt) = (abcd (sha256.round s k wt), efgh (sha256.round s k wt)) := by
  have ht1 : s.h + sha256.bigSigma1 s.e + ch s.e s.f s.g + (k + wt) = sha256.t1 s k wt :=
    (BitVec.add_assoc _ _ _).symm
  have hround : hashRound (abcd s, efgh s) (k + wt) =
      let t1 := s.h + sha256.bigSigma1 s.e + ch s.e s.f s.g + (k + wt)
      (![t1 + sha256.t2 s, s.a, s.b, s.c], ![s.d + t1, s.e, s.f, s.g]) := rfl
  rw [hround, ht1]
  rfl

/-- The register with the given words. -/
def pack (f : Words) : U128 := Lanes.ofLanes 128 32 fun i => f (Fin.ofNat 4 i)

@[simp] theorem words_pack (f : Words) : words (pack f) = f := by
  funext i
  rw [words, w_eq_lane, pack, Lanes.lane_ofLanes _ (by omega)]
  congr 1
  exact Fin.ofNat_val_eq_self i

@[simp] theorem pack_words (v : U128) : pack (words v) = v := ext_words (words_pack _)

/-- A pair of hash instructions is four rounds. -/
theorem hash_rounds (s : Sha2.State 32) (k wt : Nat → U32) (part2 : Bool) :
    hash (abcd s) (efgh s) (fun t => k t + wt t) part2 =
      if part2 then efgh (sha256.rounds k wt s 4) else abcd (sha256.rounds k wt s 4) := by
  rw [hash]
  simp only [List.foldl_cons, List.foldl_nil, hashRound_eq]
  rfl

/-- **The portable SHA-256 routine computes what the interpreter computes, and both compute the
rounds of the hash function.** -/
theorem sha256_agree (d n m : U128) (s : Sha2.State 32) (k wt : Nat → U32) :
    transform (words d) (words n) (words m) 0 = some (words (sha256h d n m)) ∧
    transform (words d) (words n) (words m) 1 = some (words (sha256h2 d n m)) ∧
    transform (words d) (words n) (words m) 2 = some (words (sha256su0 d n)) ∧
    transform (words d) (words n) (words m) 3 = some (words (sha256su1 d n m)) ∧
    sha256h (pack (abcd s)) (pack (efgh s)) (pack fun t => k t + wt t) =
      pack (abcd (sha256.rounds k wt s 4)) ∧
    sha256h2 (pack (efgh s)) (pack (abcd s)) (pack fun t => k t + wt t) =
      pack (efgh (sha256.rounds k wt s 4)) := by
  refine ⟨?_, ?_, ?_, ?_, ?_, ?_⟩
  · rw [transform, hash_eq]
    rfl
  · rw [transform, hash_eq]
    rfl
  · rw [transform, words_su0]
  · rw [transform, words_su1]
  · refine ext_words ?_
    have h := hash_eq (pack (abcd s)) (pack (efgh s)) (pack fun t => k t + wt t) false
    rw [words_pack, words_pack, words_pack, hash_rounds] at h
    rw [words_pack]
    exact h.symm
  · refine ext_words ?_
    have h := hash_eq (pack (abcd s)) (pack (efgh s)) (pack fun t => k t + wt t) true
    rw [words_pack, words_pack, words_pack, hash_rounds] at h
    rw [words_pack]
    exact h.symm

end CryptoSha256
end Rustarmic
