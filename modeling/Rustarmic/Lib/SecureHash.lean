import Mathlib.Data.BitVec

/-!
# SHA-1 and SHA-2

The working variables, a round and the message schedule of the hash functions of FIPS 180-4, without
padding and initial values: what instructions for these functions compute a few steps of.

SHA-256 and SHA-512 are one function at two widths, and differ in how far they rotate and shift a
word; so the family is `Sha2 w`, and the two are `sha256` and `sha512`.  The constants of the rounds
are arguments: every result about an instruction holds for any of them, and the code adds them to
the schedule beforehand.

* `ch`, `parity`, `maj` — the logical functions, at any width.
* `Sha1.round`, `Sha2.round` — a round, with its constant and its word of the schedule.
* `Sha1.schedule`, `Sha2.schedule` — the words of the schedule of a block, and `schedule_add` the
  recurrence they satisfy.
-/

set_option autoImplicit false

namespace SecureHash

variable {w : Nat}

def ch (x y z : BitVec w) : BitVec w := (x &&& y) ^^^ (~~~x &&& z)

def parity (x y z : BitVec w) : BitVec w := x ^^^ y ^^^ z

def maj (x y z : BitVec w) : BitVec w := (x &&& y) ^^^ (x &&& z) ^^^ (y &&& z)

/-! ## SHA-1 -/

namespace Sha1

/-- The working variables. -/
@[ext] structure State where
  a : BitVec 32
  b : BitVec 32
  c : BitVec 32
  d : BitVec 32
  e : BitVec 32

/-- A round with the logical function `f`. -/
def round (f : BitVec 32 → BitVec 32 → BitVec 32 → BitVec 32) (s : State) (k wt : BitVec 32) : State :=
  ⟨s.a.rotateLeft 5 + f s.b s.c s.d + s.e + k + wt, s.a, s.b.rotateLeft 30, s.c, s.d⟩

/-- The first `count` rounds of a run that uses `f` throughout. -/
def rounds (f : BitVec 32 → BitVec 32 → BitVec 32 → BitVec 32) (k wt : Nat → BitVec 32) (s : State)
    (count : Nat) : State :=
  (List.range count).foldl (fun s t => round f s (k t) (wt t)) s

/-- The schedule of a block of sixteen words. -/
def schedule (m : Nat → BitVec 32) (t : Nat) : BitVec 32 :=
  if t < 16 then m t
  else
    (schedule m (t - 3) ^^^ schedule m (t - 8) ^^^ schedule m (t - 14) ^^^
      schedule m (t - 16)).rotateLeft 1

theorem schedule_add (m : Nat → BitVec 32) (t : Nat) :
    schedule m (t + 16) =
      (schedule m (t + 13) ^^^ schedule m (t + 8) ^^^ schedule m (t + 2) ^^^ schedule m t).rotateLeft 1 := by
  have hlt : ¬t + 16 < 16 := by omega
  rw [schedule, if_neg hlt]
  rfl

end Sha1

/-! ## SHA-2 -/

/-- What tells the members of the SHA-2 family apart: the functions that mix the bits of one word,
in a round and in the schedule. -/
structure Sha2 (w : Nat) where
  bigSigma0 : BitVec w → BitVec w
  bigSigma1 : BitVec w → BitVec w
  sigma0 : BitVec w → BitVec w
  sigma1 : BitVec w → BitVec w

namespace Sha2

/-- The working variables. -/
@[ext] structure State (w : Nat) where
  a : BitVec w
  b : BitVec w
  c : BitVec w
  d : BitVec w
  e : BitVec w
  f : BitVec w
  g : BitVec w
  h : BitVec w

variable (H : Sha2 w)

/-- The sum of a round that its constant and its word of the schedule go into. -/
def t1 (s : State w) (k wt : BitVec w) : BitVec w := s.h + H.bigSigma1 s.e + ch s.e s.f s.g + k + wt

def t2 (s : State w) : BitVec w := H.bigSigma0 s.a + maj s.a s.b s.c

/-- A round. -/
def round (s : State w) (k wt : BitVec w) : State w :=
  ⟨H.t1 s k wt + H.t2 s, s.a, s.b, s.c, s.d + H.t1 s k wt, s.e, s.f, s.g⟩

/-- The first `count` rounds of a run. -/
def rounds (k wt : Nat → BitVec w) (s : State w) (count : Nat) : State w :=
  (List.range count).foldl (fun s t => H.round s (k t) (wt t)) s

/-- The schedule of a block of sixteen words. -/
def schedule (m : Nat → BitVec w) (t : Nat) : BitVec w :=
  if t < 16 then m t
  else
    H.sigma1 (schedule m (t - 2)) + schedule m (t - 7) + H.sigma0 (schedule m (t - 15)) +
      schedule m (t - 16)

theorem schedule_add (m : Nat → BitVec w) (t : Nat) :
    H.schedule m (t + 16) =
      H.sigma1 (H.schedule m (t + 14)) + H.schedule m (t + 9) + H.sigma0 (H.schedule m (t + 1)) +
        H.schedule m t := by
  have hlt : ¬t + 16 < 16 := by omega
  rw [schedule, if_neg hlt]
  rfl

end Sha2

def sha256 : Sha2 32 where
  bigSigma0 x := x.rotateRight 2 ^^^ x.rotateRight 13 ^^^ x.rotateRight 22
  bigSigma1 x := x.rotateRight 6 ^^^ x.rotateRight 11 ^^^ x.rotateRight 25
  sigma0 x := x.rotateRight 7 ^^^ x.rotateRight 18 ^^^ (x >>> 3)
  sigma1 x := x.rotateRight 17 ^^^ x.rotateRight 19 ^^^ (x >>> 10)

def sha512 : Sha2 64 where
  bigSigma0 x := x.rotateRight 28 ^^^ x.rotateRight 34 ^^^ x.rotateRight 39
  bigSigma1 x := x.rotateRight 14 ^^^ x.rotateRight 18 ^^^ x.rotateRight 41
  sigma0 x := x.rotateRight 1 ^^^ x.rotateRight 8 ^^^ (x >>> 7)
  sigma1 x := x.rotateRight 19 ^^^ x.rotateRight 61 ^^^ (x >>> 6)

end SecureHash
