import Mathlib.Data.Fin.VecNotation
import Mathlib.Tactic.FinCases
import Rustarmic.Interp.CryptoWords
import Rustarmic.Lib.SecureHash

/-!
# SHA-1 and SHA-512 in the instruction helpers

The helpers of the instructions compute rounds and schedules of the two hash functions.  A helper
gets registers in which the architecture packs the working variables and the words of the schedule,
so each result says how the operands are packed and what the packed variables are afterwards.

* `toState` — the working variables of SHA-1 in a register and a word; `toState_sha1Round` one
  round.
* `w_sha1su0`, `w_sha1su1` — the schedule updates by words.
* `sha_fips` — every pair of instructions against the standard.
-/

set_option autoImplicit false

namespace Rustarmic
namespace Interp

open SecureHash (ch maj sha512)

/-- The register with the given words. -/
def ofWords (f : Nat → U32) : U128 := Lanes.ofLanes 128 32 f

theorem w_ofWords (f : Nat → U32) {i : Nat} (hi : i < 4) : w (ofWords f) i = f i := by
  have hin : 32 * i + 32 ≤ 128 := by omega
  rw [w_eq_lane, ofWords, Lanes.lane_ofLanes _ hin]

/-! ## SHA-1 -/

/-- The working variables of SHA-1: four in a register, the fifth in a word. -/
def toState (s : U128 × U32) : SecureHash.Sha1.State := ⟨w s.1 0, w s.1 1, w s.1 2, w s.1 3, s.2⟩

/-- The register of the first four. -/
def abcd (s : SecureHash.Sha1.State) : U128 :=
  ofWords fun
    | 0 => s.a
    | 1 => s.b
    | 2 => s.c
    | _ => s.d

theorem abcd_toState (s : U128 × U32) : abcd (toState s) = s.1 := by
  refine ext_w fun i hi => ?_
  rw [abcd, w_ofWords _ hi]
  match i, hi with
  | 0, _ | 1, _ | 2, _ | 3, _ => rfl

/-- The logical functions by the kind of an instruction. -/
def logical : Fin 3 → U32 → U32 → U32 → U32 := ![ch, SecureHash.parity, maj]

theorem sha1Function_eq (kind : Fin 3) : sha1Function kind = logical kind := by
  funext b c d
  fin_cases kind
  · exact (choose_eq b c d).symm
  · rfl
  · exact (majority_eq b c d).symm

/-- A round of the helper is a round of the standard. -/
theorem toState_sha1Round (kind : Fin 3) (m : U128) (s : U128 × U32) (e : Nat) (k wt : U32)
    (hm : w m e = k + wt) :
    toState (sha1Round kind m s e) = SecureHash.Sha1.round (logical kind) (toState s) k wt := by
  obtain ⟨x, y⟩ := s
  have h1 := fun (v : U128) (a : U32) => w_push_succ v a (j := 0) (by decide)
  have h2 := fun (v : U128) (a : U32) => w_push_succ v a (j := 1) (by decide)
  have h3 := fun (v : U128) (a : U32) => w_push_succ v a (j := 2) (by decide)
  simp only [Nat.zero_add, Nat.reduceAdd] at h1 h2 h3
  simp only [sha1Round, toState, SecureHash.Sha1.round, sha1Function_eq, hm]
  ext1
  · simp only [w_push_zero]
    ac_rfl
  all_goals simp [h1, h2, h3, w_setW]

/-- A run of the helper is a run of the standard. -/
theorem toState_rounds (kind : Fin 3) (m : U128) (k wt : Nat → U32) (s : U128 × U32) {count : Nat}
    (hm : ∀ e < count, w m e = k e + wt e) :
    toState ((List.range count).foldl (sha1Round kind m) s) =
      SecureHash.Sha1.rounds (logical kind) k wt (toState s) count := by
  induction count with
  | zero => rfl
  | succ count ih =>
    have hlast := ih fun e he => hm e (Nat.lt_succ_of_lt he)
    rw [SecureHash.Sha1.rounds] at hlast
    rw [SecureHash.Sha1.rounds, List.range_succ, List.foldl_append, List.foldl_append, ← hlast]
    exact toState_sha1Round kind m _ count _ _ (hm count (Nat.lt_succ_self count))

theorem w_sha1su0 (d n m : U128) {i : Nat} (hi : i < 4) :
    w (sha1su0 d n m) i = (if i < 2 then w d (i + 2) else w n (i - 2)) ^^^ w d i ^^^ w m i := by
  have hmask : ∀ k < 64, (0xFFFFFFFFFFFFFFFF#128).getLsbD k = true := by decide
  refine BitVec.eq_of_getLsbD_eq fun k hk => ?_
  have hlt : 32 * i + k < 128 := by omega
  rw [getLsbD_w, sha1su0]
  simp only [BitVec.getLsbD_xor, BitVec.getLsbD_or, BitVec.getLsbD_shiftLeft, BitVec.getLsbD_and,
    BitVec.getLsbD_ushiftRight, getLsbD_w, decide_eq_true hk, decide_eq_true hlt, Bool.true_and]
  split
  case isTrue h =>
    have hless : 32 * i + k < 64 := by omega
    have hadd : 64 + (32 * i + k) = 32 * (i + 2) + k := by omega
    rw [decide_eq_true hless, hadd, getLsbD_w, decide_eq_true hk]
    simp
  case isFalse h =>
    have hge : ¬32 * i + k < 64 := by omega
    have hsub : 32 * i + k - 64 = 32 * (i - 2) + k := by omega
    have hd : d.getLsbD (64 + (32 * i + k)) = false := BitVec.getLsbD_of_ge _ _ (by omega)
    rw [decide_eq_false hge, hsub, hmask _ (by omega), hd, getLsbD_w, decide_eq_true hk]
    simp

/-- The words of a register moved down by one. -/
theorem w_down (d n : U128) (i : Nat) : w (d ^^^ (n >>> 32)) i = w d i ^^^ w n (i + 1) := by
  have hadd : ∀ k, 32 + (32 * i + k) = 32 * (i + 1) + k := fun k => by omega
  refine BitVec.eq_of_getLsbD_eq fun k hk => ?_
  simp only [getLsbD_w, BitVec.getLsbD_xor, BitVec.getLsbD_ushiftRight, hadd, decide_eq_true hk,
    Bool.true_and]

theorem w_four (n : U128) : w n 4 = 0#32 := by
  refine BitVec.eq_of_getLsbD_eq fun k _ => ?_
  have hge : n.getLsbD (32 * 4 + k) = false := BitVec.getLsbD_of_ge _ _ (by omega)
  rw [getLsbD_w, hge, Bool.and_false, BitVec.getLsbD_zero]

theorem w_sha1su1 (d n : U128) {i : Nat} (hi : i < 4) :
    w (sha1su1 d n) i =
      if i = 3 then (w d 3).rotateLeft 1 ^^^ (w d 0 ^^^ w n 1).rotateLeft 2
      else (w d i ^^^ w n (i + 1)).rotateLeft 1 := by
  have hrange : List.range 4 = [0, 1, 2, 3] := rfl
  rw [sha1su1, hrange]
  match i, hi with
  | 0, _ | 1, _ | 2, _ | 3, _ => simp [w_setW, w_down, w_four]

/-- The words of a schedule from word `t` on. -/
def quad (f : Nat → U32) (t : Nat) : U128 := ofWords fun i => f (t + i)

theorem w_quad (f : Nat → U32) (t : Nat) {i : Nat} (hi : i < 4) : w (quad f t) i = f (t + i) :=
  w_ofWords _ hi

theorem rotateLeft_xor_one (x y : U32) :
    (x ^^^ y.rotateLeft 1).rotateLeft 1 = x.rotateLeft 1 ^^^ y.rotateLeft 2 := by
  refine BitVec.eq_of_getLsbD_eq fun k hk => ?_
  rw [BitVec.getLsbD_xor, BitVec.getLsbD_rotateLeft, BitVec.getLsbD_rotateLeft,
    BitVec.getLsbD_rotateLeft, BitVec.getLsbD_xor, BitVec.getLsbD_xor, BitVec.getLsbD_rotateLeft,
    BitVec.getLsbD_rotateLeft]
  grind

/-- The schedule updates give the next four words of the schedule; the last of them uses the
first. -/
theorem sha1_schedule (m : Nat → U32) (t : Nat) :
    sha1su1 (sha1su0 (quad (SecureHash.Sha1.schedule m) t) (quad (SecureHash.Sha1.schedule m) (t + 4))
      (quad (SecureHash.Sha1.schedule m) (t + 8))) (quad (SecureHash.Sha1.schedule m) (t + 12)) =
        quad (SecureHash.Sha1.schedule m) (t + 16) := by
  have h0 := SecureHash.Sha1.schedule_add m t
  have h1 := SecureHash.Sha1.schedule_add m (t + 1)
  have h2 := SecureHash.Sha1.schedule_add m (t + 2)
  have h3 := SecureHash.Sha1.schedule_add m (t + 3)
  simp only [Nat.add_assoc, Nat.reduceAdd] at h0 h1 h2 h3
  generalize SecureHash.Sha1.schedule m = f at h0 h1 h2 h3 ⊢
  refine ext_w fun i hi => ?_
  rw [w_sha1su1 _ _ hi, w_quad _ _ hi]
  match i, hi with
  | 0, _ =>
    simp [w_quad, w_sha1su0, Nat.add_assoc, h0]
    ac_rfl
  | 1, _ =>
    simp [w_quad, w_sha1su0, Nat.add_assoc, h1]
    ac_rfl
  | 2, _ =>
    simp [w_quad, w_sha1su0, Nat.add_assoc, h2]
    ac_rfl
  | 3, _ =>
    have hlast : f (t + 16 + 3) =
        (f (t + 5) ^^^ f (t + 3) ^^^ f (t + 11) ^^^
          (f (t + 2) ^^^ f t ^^^ f (t + 8) ^^^ f (t + 13)).rotateLeft 1).rotateLeft 1 := by
      rw [Nat.add_assoc, h3, h0]
      congr 1
      ac_rfl
    rw [hlast, rotateLeft_xor_one]
    simp [w_quad, w_sha1su0, Nat.add_assoc]

/-! ## SHA-512 -/

@[simp] theorem lo_q (h l : U64) : lo (q h l) = l := by
  refine BitVec.eq_of_getLsbD_eq fun k hk => ?_
  simp [lo, q, hk]

@[simp] theorem hi_q (h l : U64) : hi (q h l) = h := by
  refine BitVec.eq_of_getLsbD_eq fun k hk => ?_
  have hlt : 64 + k < 128 := by omega
  have hk128 : k < 128 := by omega
  simp [hi, q, hk, hlt, hk128]

/-- The first instruction of a pair gives the sums `t1` of two rounds. -/
theorem sha512h_t1 (s : SecureHash.Sha2.State 64) (k wt : Nat → U64) :
    sha512h (q (s.h + (k 0 + wt 0)) (s.g + (k 1 + wt 1))) (q s.g s.f) (q s.e s.d) =
      q (sha512.t1 s (k 0) (wt 0))
        (sha512.t1 (sha512.round s (k 0) (wt 0)) (k 1) (wt 1)) := by
  have h0 : ch s.e s.f s.g + sha512.bigSigma1 s.e + (s.h + (k 0 + wt 0)) =
      sha512.t1 s (k 0) (wt 0) := by
    rw [SecureHash.Sha2.t1]
    ac_rfl
  have h1 : sha512.t1 s (k 0) (wt 0) + s.d =
      (sha512.round s (k 0) (wt 0)).e := BitVec.add_comm _ _
  have hch : sha512h (q (s.h + (k 0 + wt 0)) (s.g + (k 1 + wt 1))) (q s.g s.f) (q s.e s.d) =
      let th := ch s.e s.f s.g + sha512.bigSigma1 s.e + (s.h + (k 0 + wt 0))
      let tmp := th + s.d
      q th (ch tmp s.e s.f + sha512.bigSigma1 tmp + (s.g + (k 1 + wt 1))) := by
    simp only [sha512h, lo_q, hi_q]
    rfl
  rw [hch]
  simp only [h0, h1]
  congr 1
  rw [SecureHash.Sha2.t1]
  dsimp only [SecureHash.Sha2.round]
  ac_rfl

/-- The second gives the first two variables after them. -/
theorem sha512h2_t2 (s : SecureHash.Sha2.State 64) (k wt : Nat → U64) (x : U64) :
    sha512h2 (q (sha512.t1 s (k 0) (wt 0))
        (sha512.t1 (sha512.round s (k 0) (wt 0)) (k 1) (wt 1)))
      (q x s.c) (q s.b s.a) =
        q (sha512.rounds k wt s 2).b (sha512.rounds k wt s 2).a := by
  have h0 : maj s.c s.b s.a + sha512.bigSigma0 s.a +
      sha512.t1 s (k 0) (wt 0) = (sha512.rounds k wt s 2).b := by
    change _ = sha512.t1 s (k 0) (wt 0) + sha512.t2 s
    rw [SecureHash.Sha2.t2, maj, maj]
    ac_rfl
  have hmaj : ∀ t1 t1', sha512h2 (q t1 t1') (q x s.c) (q s.b s.a) =
      let th := maj s.c s.b s.a + sha512.bigSigma0 s.a + t1
      q th (maj th s.a s.b + sha512.bigSigma0 th + t1') := by
    intro t1 t1'
    simp only [sha512h2, lo_q, hi_q, maj, sha512, BitVec.and_comm s.b s.a]
  rw [hmaj]
  simp only [h0]
  congr 1
  change _ = sha512.t1 (sha512.round s (k 0) (wt 0)) (k 1) (wt 1) +
    sha512.t2 (sha512.round s (k 0) (wt 0))
  rw [SecureHash.Sha2.t2]
  exact (BitVec.add_comm _ _).trans (congrArg _ (BitVec.add_comm _ _))

/-- A pair of hash instructions is two rounds.  The first leaves the sums of both rounds that the
second and the addition to the third and fourth variables use. -/
theorem sha512_rounds (s : SecureHash.Sha2.State 64) (k wt : Nat → U64) (x : U64) :
    let s2 := sha512.rounds k wt s 2
    let t := sha512h (q (s.h + (k 0 + wt 0)) (s.g + (k 1 + wt 1))) (q s.g s.f) (q s.e s.d)
    sha512h2 t (q x s.c) (q s.b s.a) = q s2.b s2.a ∧
      q (s.d + hi t) (s.c + lo t) = q s2.f s2.e ∧
        q s.b s.a = q s2.d s2.c ∧ q s.f s.e = q s2.h s2.g := by
  intro s2 t
  have ht : t = _ := sha512h_t1 s k wt
  refine ⟨?_, ?_, rfl, rfl⟩
  · rw [ht]
    exact sha512h2_t2 s k wt x
  · rw [ht, hi_q, lo_q]
    rfl

/-- The schedule updates give the next two words of the schedule. -/
theorem sha512_schedule (m : Nat → U64) (t : Nat) (x : U64) :
    let f := sha512.schedule m
    sha512su1 (sha512su0 (q (f (t + 1)) (f t)) (q x (f (t + 2)))) (q (f (t + 15)) (f (t + 14)))
      (q (f (t + 10)) (f (t + 9))) = q (f (t + 17)) (f (t + 16)) := by
  have h0 := sha512.schedule_add m t
  have h1 := sha512.schedule_add m (t + 1)
  simp only [Nat.add_assoc, Nat.reduceAdd] at h0 h1
  intro f
  have hsigma0 (x : U64) : sha512.sigma0 x = x.rotateRight 1 ^^^ x.rotateRight 8 ^^^ (x >>> 7) := rfl
  have hsigma1 (x : U64) : sha512.sigma1 x = x.rotateRight 19 ^^^ x.rotateRight 61 ^^^ (x >>> 6) := rfl
  simp only [sha512su1, sha512su0, lo_q, hi_q]
  simp only [f, h0, h1, hsigma0, hsigma1]
  congr 1 <;> ac_rfl

/-- **The SHA-1 and SHA-512 helpers compute the standard.**  A SHA-1 instruction of each kind is
four rounds, with the fifth variable from `sha1h`; the schedule instructions continue the schedule
of every block from every word on, so every four operands as words zero to fifteen; and a pair of
SHA-512 instructions is two rounds. -/
theorem sha_fips :
    (∀ (kind : Fin 3) (d n : U128) (k wt : Nat → U32),
      let s := SecureHash.Sha1.rounds (logical kind) k wt ⟨w d 0, w d 1, w d 2, w d 3, w n 0⟩ 4
      sha1Hash kind d n (ofWords fun e => k e + wt e) = abcd s ∧ sha1h d = s.e.setWidth 128) ∧
    (∀ (m : Nat → U32) (t : Nat),
      let f := SecureHash.Sha1.schedule m
      sha1su1 (sha1su0 (quad f t) (quad f (t + 4)) (quad f (t + 8))) (quad f (t + 12)) =
        quad f (t + 16)) ∧
    (∀ (s : SecureHash.Sha2.State 64) (k wt : Nat → U64) (x : U64),
      let s2 := sha512.rounds k wt s 2
      let t := sha512h (q (s.h + (k 0 + wt 0)) (s.g + (k 1 + wt 1))) (q s.g s.f) (q s.e s.d)
      sha512h2 t (q x s.c) (q s.b s.a) = q s2.b s2.a ∧
        q (s.d + hi t) (s.c + lo t) = q s2.f s2.e ∧
          q s.b s.a = q s2.d s2.c ∧ q s.f s.e = q s2.h s2.g) ∧
    ∀ (m : Nat → U64) (t : Nat) (x : U64),
      let f := sha512.schedule m
      sha512su1 (sha512su0 (q (f (t + 1)) (f t)) (q x (f (t + 2)))) (q (f (t + 15)) (f (t + 14)))
        (q (f (t + 10)) (f (t + 9))) = q (f (t + 17)) (f (t + 16)) := by
  refine ⟨?_, sha1_schedule, sha512_rounds, sha512_schedule⟩
  intro kind d n k wt s
  refine ⟨?_, rfl⟩
  have hs : toState ((List.range 4).foldl _ _) = s :=
    toState_rounds kind (ofWords fun e => k e + wt e) k wt (d, w n 0) fun e he => w_ofWords _ he
  calc sha1Hash kind d n (ofWords fun e => k e + wt e)
      = abcd (toState _) := (abcd_toState _).symm
    _ = abcd s := congrArg abcd hs

end Interp
end Rustarmic
