import Rustarmic.Interp.Simd

/-!
# Vector instructions of the out-of-line helpers

The integer part of the "three same" group, and the narrowing part of the "two registers
miscellaneous" group.  An entry point returns `none` for an encoding it does not implement.  The
floating-point part of the first group and the rest of the second are arguments.

* `int3`, `intPair` — one element, or one pair of elements.
* `threeSame` — the whole vector, lane by lane.
* `twoRegMisc` — XTN, SQXTN, UQXTN and SQXTUN.

Each group is one function of the source, with the fields of the word taken out at the top and a
match on the opcode.  The model has the same shape, so that an arm can be found in both.  Parts
which no result is about are parameters instead of being left out: the theorems hold whatever they
do, and a word that goes there is visibly not covered.

Elements are 64-bit words, signed or not as the operation asks (`ext`), and an operation on one may
set QC.  So an element function takes the status and returns it, and the loops over elements thread
it.

`bits` and `bit` are how every helper and translator takes a field out of a word, and what is known
about their size is here, too.
-/

set_option autoImplicit false

namespace Rustarmic
namespace Interp

open Checked

/-- Bits `lsb` to `lsb + len - 1` of an instruction. -/
def bits (x : U32) (lsb len : Nat) : Nat := ((x >>> lsb) &&& ((1#32 <<< len) - 1#32)).toNat

def bit (x : U32) (i : Nat) : Nat := ((x >>> i) &&& 1#32).toNat

/-- A field as a part of the number. -/
theorem bits_eq (x : U32) (lsb : Nat) {len : Nat} (h : len < 32) :
    bits x lsb len = x.toNat / 2 ^ lsb % 2 ^ len := by
  rw [bits, Lanes.and_lowMask h, BitVec.toNat_setWidth, BitVec.toNat_setWidth, BitVec.toNat_ushiftRight,
    Nat.shiftRight_eq_div_pow, Nat.mod_eq_of_lt]
  have := Nat.mod_lt (x.toNat / 2 ^ lsb) (Nat.two_pow_pos len)
  have := Nat.pow_lt_pow_right (by decide : 1 < 2) h
  omega

theorem bit_eq (x : U32) (i : Nat) : bit x i = x.toNat / 2 ^ i % 2 := by
  rw [bit, BitVec.toNat_and, BitVec.toNat_ushiftRight, Nat.shiftRight_eq_div_pow]
  exact Nat.and_one_is_mod _

theorem bits_lt (x : U32) (lsb : Nat) {len : Nat} (h : len < 32) : bits x lsb len < 2 ^ len := by
  rw [bits_eq x lsb h]
  exact Nat.mod_lt _ (Nat.two_pow_pos len)

theorem bit_cases (x : U32) (i : Nat) : bit x i = 0 ∨ bit x i = 1 := by
  have hle : (x >>> i).toNat &&& (1#32).toNat ≤ 1 := Nat.and_le_right
  rw [bit, BitVec.toNat_and]
  omega

def ones (b : Bool) (esize : Nat) : U64 := if b then emask esize else 0#64

/-- Clear everything above `datasize` bits. -/
def clip (v : U128) (datasize : Nat) : U128 :=
  if 128 ≤ datasize then v else v &&& ((1#128 <<< datasize) - 1#128)

/-- Polynomial product of two bytes, low byte. -/
def pmul8 (a b : U64) : U64 :=
  (List.range 8).foldl
    (fun r i => if (b >>> i) &&& 1#64 = 1#64 then r ^^^ (a <<< i) else r) 0#64 &&& 0xFF#64

def sqdmulh (a b : U64) (esize : Nat) (round : Bool) (st : St) : Option (U64 × St) :=
  (i128 (2 * sx a esize)).bind fun p =>
  (i128 (p * sx b esize)).bind fun p =>
  (i128 (p + if round then (1 : Int) <<< (esize - 1) else 0)).bind fun p =>
  sat (p >>> esize) esize false st

/-- One element of an integer operation; `none` when it is not one. -/
def int3 (opcode : Nat) (u : Bool) (size : Nat) (a b d : U64) (st : St) : Option (U64 × St) :=
  let esize := 8 <<< size
  let xa := ext a esize u
  let xb := ext b esize u
  let m := emask esize
  match opcode with
  | 0b00000 => (i128 (xa + xb)).map fun (v : Int) => (low (v >>> (1 : Nat)) esize, st)
  | 0b00001 => (i128 (xa + xb)).bind fun v => sat v esize u st
  | 0b00010 =>
    (i128 (xa + xb)).bind fun v => (i128 (v + 1)).map fun (v : Int) => (low (v >>> (1 : Nat)) esize, st)
  | 0b00100 => (i128 (xa - xb)).map fun (v : Int) => (low (v >>> (1 : Nat)) esize, st)
  | 0b00101 => (i128 (xa - xb)).bind fun v => sat v esize u st
  | 0b00110 => some (ones (xb < xa) esize, st)
  | 0b00111 => some (ones (xb ≤ xa) esize, st)
  | 0b01000 => shlReg a b esize u false false st
  | 0b01001 => shlReg a b esize u false true st
  | 0b01010 => shlReg a b esize u true false st
  | 0b01011 => shlReg a b esize u true true st
  | 0b01100 => some ((if xb ≤ xa then a else b) &&& m, st)
  | 0b01101 => some ((if xa ≤ xb then a else b) &&& m, st)
  | 0b01110 => (i128 (xa - xb)).map fun v => (BitVec.ofNat 64 v.natAbs &&& m, st)
  | 0b01111 => (i128 (xa - xb)).map fun v => ((d + BitVec.ofNat 64 v.natAbs) &&& m, st)
  | 0b10000 => some ((if u then a - b else a + b) &&& m, st)
  | 0b10001 =>
    some (if u then ones (a &&& m == b &&& m) esize else ones (a &&& b &&& m != 0#64) esize, st)
  | 0b10010 => some ((if u then d - a * b else d + a * b) &&& m, st)
  | 0b10011 =>
    if u then if size ≠ 0 then none else some (pmul8 a b, st) else some ((a * b) &&& m, st)
  | 0b10110 => if size = 0 ∨ size = 3 then none else sqdmulh a b esize u st
  | _ => none

/-- Pairwise reduction of two elements. -/
def intPair (opcode : Nat) (u : Bool) (esize : Nat) (a b : U64) : Option U64 :=
  let xa := ext a esize u
  let xb := ext b esize u
  match opcode, u with
  | 0b10100, _ => some (if xb ≤ xa then a else b)
  | 0b10101, _ => some (if xa ≤ xb then a else b)
  | 0b10111, false => some ((a + b) &&& emask esize)
  | _, _ => none

/-- Set the elements of a vector one after the other. -/
def setElements (esize elements : Nat) (f : Nat → St → Option (U64 × St)) (st : St) :
    Option (U128 × St) :=
  (List.range elements).foldlM
    (fun acc i => (f i acc.2).map fun v => (set acc.1 i esize v.1, v.2)) (0#128, st)

/-- AdvSIMD three same, vector or scalar; `float` is its floating-point part. -/
def threeSame (float : U32 → U128 → U128 → U128 → Bool → St → Option (U128 × St)) (insn : U32)
    (n m d : U128) (scalar : Bool) (st : St) : Option (U128 × St) :=
  let q := bit insn 30 == 1 || scalar
  let u := bit insn 29 == 1
  let size := bits insn 22 2
  let opcode := bits insn 11 5
  let datasize := if q then 128 else 64
  if opcode = 0b00011 then
    if scalar then none
    else
      let r :=
        match u, size with
        | false, 0 => n &&& m
        | false, 1 => n &&& ~~~m
        | false, 2 => n ||| m
        | false, _ => n ||| ~~~m
        | true, 0 => n ^^^ m
        | true, 1 => (d &&& n) ||| (~~~d &&& m)
        | true, 2 => (d &&& ~~~m) ||| (n &&& m)
        | true, _ => (d &&& m) ||| (n &&& ~~~m)
      some (clip r datasize, st)
  else if 0b11000 ≤ opcode then float insn n m d scalar st
  else
    let esize := 8 <<< size
    if scalar then
      let ok :=
        match opcode with
        | 0b00001 | 0b00101 | 0b01001 | 0b01011 => true
        | 0b00110 | 0b00111 | 0b01000 | 0b01010 | 0b10000 | 0b10001 => size == 3
        | 0b10110 => size == 1 || size == 2
        | _ => false
      if !ok then none
      else
        (int3 opcode u size (get n 0 esize) (get m 0 esize) (get d 0 esize) st).map fun v =>
          (v.1.setWidth 128, v.2)
    else if size == 3 && !q then none
    else if opcode = 0b10100 ∨ opcode = 0b10101 ∨ opcode = 0b10111 then
      if size = 3 ∧ opcode ≠ 0b10111 then none
      else
        let elements := datasize / esize
        -- Pairs of the concatenation of the two operands.
        let pair i (st : St) :=
          let (src, j) := if i < elements / 2 then (n, 2 * i) else (m, 2 * (i - elements / 2))
          (intPair opcode u esize (get src j esize) (get src (j + 1) esize)).map (·, st)
        setElements esize elements pair st
    else if size = 3 ∧ opcode ∈ [0b00000, 0b00010, 0b00100, 0b01100, 0b01101, 0b01110, 0b01111,
        0b10010, 0b10011] then none
    else
      -- Asked with zero operands first, whether the operation exists.
      (int3 opcode u size 0#64 0#64 0#64 ⟨0#32, 0#32⟩).bind fun _ =>
      setElements esize (datasize / esize) (fun i st =>
        int3 opcode u size (get n i esize) (get m i esize) (get d i esize) st) st

/-- Where a narrowing operation puts its 64-bit result: in the upper half for the forms with Q set,
which keep the lower half of the destination. -/
def narrowInto (q scalar : Bool) (r : U64) (d : U128) : U128 :=
  if scalar then r.setWidth 128
  else if q then (d &&& 0xFFFFFFFFFFFFFFFF#128) ||| (r.setWidth 128 <<< 64)
  else r.setWidth 128

/-- One narrowed element. -/
def narrowElement (u : Bool) (opcode esize : Nat) (x : U64) (st : St) : Option (U64 × St) :=
  match u, opcode with
  | false, 0b10010 => some (x &&& emask esize, st)
  | true, 0b10010 => sat (sx x (2 * esize)) esize true st
  | false, _ => sat (sx x (2 * esize)) esize false st
  | true, _ => sat (zx x (2 * esize)) esize true st

/-- Narrowed elements, one above the other. -/
def orElements (esize elements : Nat) (f : Nat → St → Option (U64 × St)) (st : St) :
    Option (U64 × St) :=
  (List.range elements).foldlM
    (fun acc i => (f i acc.2).map fun (v : U64 × St) => (acc.1 ||| (v.1 <<< (i * esize)), v.2))
    (0#64, st)

/-- AdvSIMD two registers miscellaneous, the narrowing operations; `other` is the rest. -/
def twoRegMisc (other : U32 → U128 → U128 → Bool → St → Option (U128 × St)) (insn : U32)
    (n d : U128) (scalar : Bool) (st : St) : Option (U128 × St) :=
  let q := bit insn 30 == 1
  let u := bit insn 29 == 1
  let size := bits insn 22 2
  let opcode := bits insn 12 5
  let esize := 8 <<< size
  if opcode = 0b10010 ∨ opcode = 0b10100 then
    let ok := (opcode == 0b10100 || u) && size != 3
    if scalar && !ok then none
    else if size = 3 then none
    else if opcode == 0b10010 && !u && scalar then none
    else
      let elems := if scalar then 1 else 64 / esize
      (orElements esize elems (fun i st =>
        narrowElement u opcode esize (get n i (2 * esize)) st) st).map fun acc =>
        (narrowInto q scalar acc.1 d, acc.2)
  else other insn n d scalar st

end Interp
end Rustarmic
