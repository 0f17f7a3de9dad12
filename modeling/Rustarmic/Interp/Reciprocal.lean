import Rustarmic.Interp.Fp
import Rustarmic.Lib.WhileLoop

/-!
# Reciprocal estimates of the instruction helpers

The quantized reciprocal and reciprocal square root estimates, on fractions aligned to 52 bits
whatever the format.  A loop takes the number of tests it may make, and a helper with a loop returns
`none` when they do not suffice.

* `recipEstimate`, `recipSqrtEstimate` — the estimates of a 9-bit input.
* `frecpe`, `frsqrte` — the operations.

The architecture defines these estimates bit for bit, since guests would see any difference.  A
fraction is cut to eight bits and its leading one is put before it; the estimate of these nine bits
is computed with integers, and its eight bits are the fraction of the result.  The exponent is
computed apart.

There are two loops: the search of the root counts up until a product is too large, and the
normalization of a subnormal fraction shifts until the leading bit is in place.  Neither has a bound
in the source, and none is put in here; that they end, and after how many tests, is proved in
`Backend.Reciprocal`, where the helpers are compared with the tables of the generated code.
-/

set_option autoImplicit false

namespace Rustarmic
namespace Interp

/-! ## Quantized estimates -/

def divCeil (a b : Nat) : Nat := (a + b - 1) / b

/-- RecipEstimate on a 9-bit input in [256, 511]. -/
def recipEstimate (a : Nat) : Nat :=
  let a := a * 2 + 1
  let b := (1 <<< 19) / a
  divCeil b 2

/-- RecipSqrtEstimate on a 9-bit input in [128, 511]. -/
def recipSqrtEstimate (fuel a : Nat) : Option Nat :=
  let a :=
    if a < 256 then a * 2 + 1
    else (((a >>> 1) <<< 1) + 1) * 2
  let b := WhileLoop.run (fun b => decide (a * (b + 1) * (b + 1) < 1 <<< 28)) (fun b => b + 1) fuel 512
  b.map fun b => divCeil b 2

/-! ## The operations -/

/-- The fraction, aligned to 52 bits, and the biased exponent. -/
def fields (f : Fmt) (x : U64) : U64 × Int :=
  match f with
  | .s => ((x &&& 0x7FFFFF#64) <<< 29, ((x >>> 23) &&& 0xFF#64).toNat)
  | _ => (x &&& 0xFFFFFFFFFFFFF#64, ((x >>> 52) &&& 0x7FF#64).toNat)

/-- The last part of FRECPE: the estimate of a number that neither overflows nor flushes. -/
def frecpeNormal (f : Fmt) (sign : Bool) (x : U64) : U64 :=
  let (fraction, exp) := fields f x
  let (fraction, exp) :=
    if exp = 0 then
      if (fraction >>> 51) &&& 1#64 = 0#64 then ((fraction <<< 2) &&& 0xFFFFFFFFFFFFF#64, -1)
      else ((fraction <<< 1) &&& 0xFFFFFFFFFFFFF#64, exp)
    else (fraction, exp)
  let scaled := (1#64 <<< 8) ||| ((fraction >>> 44) &&& 0xFF#64)
  let resultExp : Int := match f with | .s => 253 - exp | _ => 2045 - exp
  let estimate := BitVec.ofNat 64 (recipEstimate scaled.toNat)
  let fraction := (estimate &&& 0xFF#64) <<< 44
  let (fraction, resultExp) :=
    if resultExp = 0 then ((1#64 <<< 51) ||| (fraction >>> 1), resultExp)
    else if resultExp = -1 then ((1#64 <<< 50) ||| (fraction >>> 2), 0)
    else (fraction, resultExp)
  match f with
  | .s =>
    (u64OfBool sign <<< 31) ||| ((BitVec.ofInt 64 resultExp &&& 0xFF#64) <<< 23) |||
      ((fraction >>> 29) &&& 0x7FFFFF#64)
  | _ =>
    (u64OfBool sign <<< 63) ||| ((BitVec.ofInt 64 resultExp &&& 0x7FF#64) <<< 52) |||
      (fraction &&& 0xFFFFFFFFFFFFF#64)

/-- 2^-128 or 2^-1024: the reciprocals of smaller magnitudes overflow. -/
def tinyBelow (f : Fmt) : U64 :=
  match f with
  | .s => 0x00200000#64
  | _ => 0x0004000000000000#64

/-- 2^126 or 2^1022: the reciprocals from here on are subnormal. -/
def hugeFrom (f : Fmt) : U64 :=
  match f with
  | .s => 0x7E800000#64
  | _ => 0x7FD0000000000000#64

/-- An overflowing reciprocal is infinite, not the largest number. -/
def recipToInf (mode : Round) (sign : Bool) : Bool :=
  match mode with
  | .tieEven => true
  | .posInf => !sign
  | .negInf => sign
  | _ => false

/-- FRECPE. -/
def frecpe (f : Fmt) (x : U64) (st : St) : U64 × St :=
  let (u, st) := unpack f x st
  match u.cls with
  | .qnan => processNan f x st
  | .snan => processNan f x st
  | .inf => (f.zero u.sign, st)
  | .zero => (f.inf u.sign, st.raise dzc)
  | .normal =>
    let abs := f.abs x
    if abs < tinyBelow f then
      (if recipToInf st.rmode u.sign then f.inf u.sign else f.maxNormal u.sign, st.raise (ofc ||| ixc))
    else if st.fz ∧ hugeFrom f ≤ abs then (f.zero u.sign, st.raise ufc)
    else (frecpeNormal f u.sign x, st)

/-- The loop that normalizes a subnormal fraction. -/
def normalizeFraction (fuel : Nat) (fraction : U64) (exp : Int) : Option (U64 × Int) :=
  WhileLoop.run (fun s => (s.1 >>> 51) &&& 1#64 == 0#64)
    (fun s => ((s.1 <<< 1) &&& 0xFFFFFFFFFFFFF#64, s.2 - 1)) fuel (fraction, exp)

/-- The normalized fraction, without its leading bit, and the biased exponent. -/
def normalizedFields (fuel : Nat) (f : Fmt) (x : U64) : Option (U64 × Int) :=
  let (fraction, exp) := fields f x
  if exp = 0 then
    (normalizeFraction fuel fraction exp).map fun (fraction, exp) =>
      ((fraction <<< 1) &&& 0xFFFFFFFFFFFFF#64, exp)
  else some (fraction, exp)

/-- The last part of FRSQRTE: the estimate of a positive number. -/
def frsqrteNormal (fuel : Nat) (f : Fmt) (x : U64) : Option U64 := do
  let (fraction, exp) ← normalizedFields fuel f x
  let scaled :=
    if exp % 2 = 0 then (1#64 <<< 8) ||| ((fraction >>> 44) &&& 0xFF#64)
    else (1#64 <<< 7) ||| ((fraction >>> 45) &&& 0x7F#64)
  let resultExp : Int := match f with | .s => (380 - exp) / 2 | _ => (3068 - exp) / 2
  let estimate ← (recipSqrtEstimate fuel scaled.toNat).map (BitVec.ofNat 64)
  match f with
  | .s =>
    some (((BitVec.ofInt 64 resultExp &&& 0xFF#64) <<< 23) ||| ((estimate &&& 0xFF#64) <<< 15))
  | _ =>
    some (((BitVec.ofInt 64 resultExp &&& 0x7FF#64) <<< 52) ||| ((estimate &&& 0xFF#64) <<< 44))

/-- FRSQRTE. -/
def frsqrte (fuel : Nat) (f : Fmt) (x : U64) (st : St) : Option (U64 × St) :=
  let (u, st) := unpack f x st
  match u.cls with
  | .qnan => some (processNan f x st)
  | .snan => some (processNan f x st)
  | .zero => some (f.inf u.sign, st.raise dzc)
  | .inf => some (if u.sign then (f.defaultNan, st.raise ioc) else (f.zero false, st))
  | .normal =>
    if u.sign then some (f.defaultNan, st.raise ioc)
    else (frsqrteNormal fuel f x).map fun r => (r, st)

end Interp
end Rustarmic
