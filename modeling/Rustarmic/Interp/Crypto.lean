import Mathlib.Data.Fin.VecNotation
import Mathlib.Logic.Function.Basic
import Mathlib.Logic.Function.Iterate
import Rustarmic.Arch
import Rustarmic.Lib.BinaryField
import Rustarmic.Lib.Lanes

/-!
# Cryptographic instructions of the instruction helpers

AES and the hash functions on 128-bit registers.  Bytes and words are numbered from the low end.

* `aese`, `aesd`, `aesmc`, `aesimc` — a register as sixteen bytes, column by column.
* `sha256h`, `sha256h2`, `sha256su0`, `sha256su1` — a register as four words.
* `sha1Hash`, `sha1su0`, `sha1su1`, `sha1h` — four words, and the fifth in a second register.
* `sha512h`, `sha512h2`, `sha512su0`, `sha512su1` — a register as two words.

These are the functions of `interp/crypto.rs`, shift for shift.  The source keeps a hash state in
registers as the instructions do and updates it by moving the whole register, which is how the
definitions here read as well; that they are rounds of the standards is a theorem of other files,
and nothing in the definitions points to it.

The tables of AES are computed at compile time in the source, by loops over the field, and here by
functions with the same loops (`gfMulLoop`, `gfInvLoop`).  They recurse on a number that is shifted
down, so that no bound is needed.  The inverse table is filled by storing at the values of the first
one (`stored`), whatever these are; only that they are a permutation makes it an inverse.
-/

set_option autoImplicit false

namespace Rustarmic
namespace Interp

/-! ## Substitution -/

/-- The rounds of `gfMul`. -/
def gfMulLoop (a b r : U8) : U8 :=
  if b = 0#8 then r
  else
    let r := if b &&& 1#8 ≠ 0#8 then r ^^^ a else r
    let hi := a &&& 0x80#8
    let a := a <<< 1
    let a := if hi ≠ 0#8 then a ^^^ 0x1B#8 else a
    gfMulLoop a (b >>> 1) r
termination_by b.toNat
decreasing_by
  rw [BitVec.toNat_ushiftRight, Nat.shiftRight_eq_div_pow]
  have hpos : b.toNat ≠ 0 := by simpa [← BitVec.toNat_inj] using ‹¬b = 0#8›
  omega

def gfMul (a b : U8) : U8 := gfMulLoop a b 0#8

/-- The rounds of `gfInv`. -/
def gfInvLoop (r base : U8) (e : Nat) : U8 :=
  if e = 0 then r
  else gfInvLoop (if e &&& 1 ≠ 0 then gfMul r base else r) (gfMul base base) (e >>> 1)
termination_by e
decreasing_by
  rw [Nat.shiftRight_eq_div_pow]
  omega

/-- `a ^ 254`. -/
def gfInv (a : U8) : U8 := gfInvLoop 1#8 a 254

/-- Entry `i` of SBOX. -/
def sbox (i : Fin 256) : U8 :=
  let inv := if i = 0 then 0#8 else gfInv (BitVec.ofFin i)
  let turn := fun (s : U8 × U8) =>
    let x := s.1.rotateLeft 1
    (x, s.2 ^^^ x)
  (turn^[4] (inv, inv)).2 ^^^ 0x63#8

/-- The table with `i` stored at `table i`, in the order of `i`. -/
def stored (table : Fin 256 → U8) : Fin 256 → U8 :=
  (List.finRange 256).foldl (fun s i => Function.update s (table i).toFin (BitVec.ofFin i))
    fun _ => 0#8

/-- INV_SBOX. -/
def invSbox : Fin 256 → U8 := stored sbox

/-! ## AES -/

/-- Sixteen bytes, in the order of memory. -/
abbrev Bytes16 := Fin 16 → U8

def bytes (v : U128) : Bytes16 := fun i => Lanes.lane 8 v i

def fromBytes (b : Bytes16) : U128 := Lanes.ofLanes 128 8 fun i => b (Fin.ofNat 16 i)

def shiftRows : Fin 16 → Fin 16 := ![0, 5, 10, 15, 4, 9, 14, 3, 8, 13, 2, 7, 12, 1, 6, 11]

def invShiftRows : Fin 16 → Fin 16 := ![0, 13, 10, 7, 4, 1, 14, 11, 8, 5, 2, 15, 12, 9, 6, 3]

def aese (d n : U128) : U128 :=
  let s := bytes (d ^^^ n)
  fromBytes fun i => sbox (s (shiftRows i)).toFin

def aesd (d n : U128) : U128 :=
  let s := bytes (d ^^^ n)
  fromBytes fun i => invSbox (s (invShiftRows i)).toFin

/-- The byte of a column in a row, rows counted modulo 4. -/
def cell (s : Bytes16) (column row : Nat) : U8 := s (Fin.ofNat 16 (4 * column + row % 4))

def mix (v : U128) (m : Fin 4 → U8) : U128 :=
  let s := bytes v
  fromBytes fun i =>
    let c := i.val / 4
    let r := i.val % 4
    gfMul (m 0) (cell s c r) ^^^ gfMul (m 1) (cell s c (r + 1)) ^^^
      gfMul (m 2) (cell s c (r + 2)) ^^^ gfMul (m 3) (cell s c (r + 3))

def aesmc (n : U128) : U128 := mix n ![2, 3, 1, 1]

def aesimc (n : U128) : U128 := mix n ![14, 11, 13, 9]

/-! ## SHA-256 -/

/-- Word `i` of a register. -/
def w (v : U128) (i : Nat) : U32 := (v >>> (32 * i)).setWidth 32

def setW (v : U128) (i : Nat) (x : U32) : U128 :=
  let m := 0xFFFFFFFF#128 <<< (32 * i)
  (v &&& ~~~m) ||| (x.setWidth 128 <<< (32 * i))

def choose (x y z : U32) : U32 := ((y ^^^ z) &&& x) ^^^ z

def majority (x y z : U32) : U32 := (x &&& y) ||| ((x ||| y) &&& z)

def sigma0 (x : U32) : U32 := x.rotateRight 2 ^^^ x.rotateRight 13 ^^^ x.rotateRight 22

def sigma1 (x : U32) : U32 := x.rotateRight 6 ^^^ x.rotateRight 11 ^^^ x.rotateRight 25

/-- Round `e` of the hash update, on the registers `x` and `y`. -/
def sha256Round (wk : U128) (s : U128 × U128) (e : Nat) : U128 × U128 :=
  let (x, y) := s
  let chs := choose (w y 0) (w y 1) (w y 2)
  let maj := majority (w x 0) (w x 1) (w x 2)
  let t := w y 3 + sigma1 (w y 0) + chs + w wk e
  let x3 := t + w x 3
  let x := setW x 3 x3
  let y3 := t + sigma0 (w x 0) + maj
  let y := setW y 3 y3
  let xt := w x 3
  let yt := w y 3
  (x <<< 32 ||| yt.setWidth 128, y <<< 32 ||| xt.setWidth 128)

def sha256Hash (x y wk : U128) (part1 : Bool) : U128 :=
  let (x, y) := (List.range 4).foldl (sha256Round wk) (x, y)
  if part1 then x else y

def sha256h (d n m : U128) : U128 := sha256Hash d n m true

def sha256h2 (d n m : U128) : U128 := sha256Hash n d m false

def sha256su0 (d n : U128) : U128 :=
  let t := ((n &&& 0xFFFFFFFF#128) <<< 96) ||| (d >>> 32)
  (List.range 4).foldl (fun r e =>
    let elt := w t e
    let elt := elt.rotateRight 7 ^^^ elt.rotateRight 18 ^^^ (elt >>> 3)
    setW r e (elt + w d e)) 0#128

/-- Round `e` of the second schedule update, on its second source and the result. -/
def sha256su1Round (d t0 : U128) (s : U128 × U128) (e : Nat) : U128 × U128 :=
  let (t1, r) := s
  let t1 := if e = 2 then r &&& 0xFFFFFFFFFFFFFFFF#128 else t1
  let elt := w t1 (e % 2)
  let elt := elt.rotateRight 17 ^^^ elt.rotateRight 19 ^^^ (elt >>> 10)
  (t1, setW r e (elt + w d e + w t0 e))

def sha256su1 (d n m : U128) : U128 :=
  let t0 := ((m &&& 0xFFFFFFFF#128) <<< 96) ||| (n >>> 32)
  ((List.range 4).foldl (sha256su1Round d t0) (m >>> 64, 0#128)).2

/-! ## SHA-1 -/

def parity (x y z : U32) : U32 := x ^^^ y ^^^ z

/-- The function of a round, by the kind of the instruction: SHA1C, SHA1P or SHA1M. -/
def sha1Function (kind : Nat) (b c dd : U32) : U32 :=
  match kind with
  | 0 => choose b c dd
  | 1 => parity b c dd
  | _ => majority b c dd

/-- Round `e` of the hash update, on the register `x` and the word `y` above it. -/
def sha1Round (kind : Nat) (m : U128) (s : U128 × U32) (e : Nat) : U128 × U32 :=
  let (x, y) := s
  let t := sha1Function kind (w x 1) (w x 2) (w x 3)
  let y := y + (w x 0).rotateLeft 5 + t + w m e
  let b2 := (w x 1).rotateLeft 30
  let x := setW x 1 b2
  let top := w x 3
  (x <<< 32 ||| y.setWidth 128, top)

def sha1Hash (kind : Nat) (d n m : U128) : U128 :=
  ((List.range 4).foldl (sha1Round kind m) (d, w n 0)).1

def sha1su0 (d n m : U128) : U128 :=
  let r := ((n &&& 0xFFFFFFFFFFFFFFFF#128) <<< 64) ||| (d >>> 64)
  r ^^^ d ^^^ m

def sha1su1 (d n : U128) : U128 :=
  let t := d ^^^ (n >>> 32)
  let r := (List.range 4).foldl (fun r i => setW r i ((w t i).rotateLeft 1)) 0#128
  let top := w r 3 ^^^ (w t 0).rotateLeft 2
  setW r 3 top

def sha1h (n : U128) : U128 := ((w n 0).rotateLeft 30).setWidth 128

/-! ## SHA-512 -/

def lo (v : U128) : U64 := v.setWidth 64

def hi (v : U128) : U64 := (v >>> 64).setWidth 64

def q (h l : U64) : U128 := (h.setWidth 128 <<< 64) ||| l.setWidth 128

def sha512h (d n m : U128) : U128 :=
  let x := n
  let y := m
  let wv := d
  let s1 := fun (v : U64) => v.rotateRight 14 ^^^ v.rotateRight 18 ^^^ v.rotateRight 41
  let th := (hi y &&& lo x) ^^^ (~~~hi y &&& hi x)
  let th := th + s1 (hi y) + hi wv
  let tmp := th + lo y
  let tl := (tmp &&& hi y) ^^^ (~~~tmp &&& lo x)
  let tl := tl + s1 tmp + lo wv
  q th tl

def sha512h2 (d n m : U128) : U128 :=
  let x := n
  let y := m
  let wv := d
  let s0 := fun (v : U64) => v.rotateRight 28 ^^^ v.rotateRight 34 ^^^ v.rotateRight 39
  let th := (lo x &&& hi y) ^^^ (lo x &&& lo y) ^^^ (hi y &&& lo y)
  let th := th + s0 (lo y) + hi wv
  let tl := (th &&& lo y) ^^^ (th &&& hi y) ^^^ (hi y &&& lo y)
  let tl := tl + s0 th + lo wv
  q th tl

def sha512su0 (d n : U128) : U128 :=
  let s0 := fun (v : U64) => v.rotateRight 1 ^^^ v.rotateRight 8 ^^^ (v >>> 7)
  let l := lo d + s0 (hi d)
  let h := hi d + s0 (lo n)
  q h l

def sha512su1 (d n m : U128) : U128 :=
  let s1 := fun (v : U64) => v.rotateRight 19 ^^^ v.rotateRight 61 ^^^ (v >>> 6)
  let h := hi d + s1 (hi n) + hi m
  let l := lo d + s1 (lo n) + lo m
  q h l

end Interp
end Rustarmic
