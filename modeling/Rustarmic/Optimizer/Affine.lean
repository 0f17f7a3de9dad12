import Mathlib.Logic.Function.Basic
import Rustarmic.Backend.Regalloc
import Rustarmic.Optimizer.Fold

/-!
# Affine maps of bytes

Vector shifts, masks and complements on bytes are affine maps over the two-element field: an 8 by 8
bit matrix and an addend.  Two of them in a row are one, which GFNI computes with one instruction.

* `recognize` reads a node as such a map, `compose` chains two, `vectorConstant` evaluates one on a
  constant vector.
* `affineCost` counts the instructions of a map, and `worthwhile` compares them with what the nodes
  it replaces cost, with and without GFNI.

A node is recognized if one operand is the same constant in all bytes, which is what `uniformByte`
finds in the tables of constants.  Shifts by such a vector, *and*, *or* and exclusive *or* with it,
complements and multiplications by a power of two are maps of the other operand.  A map is then
composed with that of its operand.

Whether the result is worth its place is a question of instructions.  The counts are those of the
source, with its limits: uses are counted in a byte that saturates, and a chain of shifts and masks
may be cheaper than a matrix when the processor has no instruction for one.  No theorem about values
depends on them; they decide which nodes are replaced, and every replacement is right.
-/

set_option autoImplicit false

namespace Rustarmic

namespace Optimizer

/-- The constant vector a node is known to compute, low half first. -/
abbrev Vectors := Nat → Option (U64 × U64)

/-- How often a node is used, as a saturating byte. -/
abbrev Uses := Nat → Nat

namespace Uses

/-- `saturating_add(1)` on a byte. -/
def count (uses : Uses) (v : Nat) : Uses := Function.update uses v (min (uses v + 1) 255)

/-- `saturating_sub(1)`. -/
def discount (uses : Uses) (v : Nat) : Uses := Function.update uses v (uses v - 1)

end Uses

/-! ## Bytes of a word -/

/-- Byte `k` of a word, from the low end. -/
def byteAt (x : U64) (k : Nat) : U8 := (x >>> (8 * k)).setWidth 8

/-- Change every byte of a word. -/
def mapBytes (f : U8 → U8) (x : U64) : U64 :=
  (List.range 8).foldl (fun v k => v ||| (f (byteAt x k)).setWidth 64 <<< (8 * k)) 0

/-- The word all of whose bytes are `b`. -/
def repeatByte (b : U8) : U64 := mapBytes (fun _ => b) 0

def trailingZeros (b : U8) : Nat := ((List.range 8).find? fun k => b.getLsbD k).getD 8

def isPowerOfTwo (b : U8) : Bool := (List.range 8).any fun k => b == 1#8 <<< k

/-! ## The maps -/

/-- `matrix * byte + addend` on the low eight bytes of `source`, and on the high eight when `q`. -/
structure ByteMap where
  source : ValueRef
  matrix : U64
  addend : U8
  q : Bool
  deriving DecidableEq, Repr

/-- Row `bit` of a matrix is byte `7 - bit` of the word. -/
def matrix (rows : Nat → U8) : U64 :=
  (List.range 8).foldl (fun value bit => value ||| (rows bit).setWidth 64 <<< ((7 - bit) * 8)) 0

def rowOf (m : U64) (bit : Nat) : U8 := byteAt m (7 - bit)

def diagonal (mask : U8) : U64 := matrix fun bit => mask &&& (1#8 <<< bit)

/-- Whether an odd number of bits is set. -/
def parity (b : U8) : Bool := (List.range 8).foldl (fun p k => p ^^ b.getLsbD k) false

def linear (m : U64) (value : U8) : U8 :=
  (List.range 8).foldl
    (fun result bit => result ||| if parity (rowOf m bit &&& value) then 1#8 <<< bit else 0) 0

/-- The byte a constant vector repeats, in its low half and for `q` also in its high half. -/
def uniformByte (value : ValueRef) (q : Bool) (vectors : Vectors) : Option U8 :=
  (vectors value).bind fun halves =>
    let byte := byteAt halves.1 0
    if halves.1 = repeatByte byte ∧ (¬ q ∨ halves.2 = repeatByte byte) then some byte else none

/-- The row that moves bit `bit - shift` up to `bit`. -/
def leftRow (shift bit : Nat) : U8 := if shift ≤ bit then 1#8 <<< (bit - shift) else 0

/-- The row that moves bit `bit + shift` down to `bit`. -/
def rightRow (shift bit : Nat) : U8 := if bit + shift < 8 then 1#8 <<< (bit + shift) else 0

/-- The same with copies of the sign bit coming in. -/
def signedRow (shift bit : Nat) : U8 := 1#8 <<< min (bit + shift) 7

/-- The rows of a shift by a signed count. -/
def shiftRow (signed : Bool) (count : Int) (bit : Nat) : U8 :=
  if 0 ≤ count then if count < 8 then leftRow count.toNat bit else 0
  else if signed then signedRow count.natAbs bit
  else rightRow count.natAbs bit

/-- The operand that is a uniform constant and the other one, the second operand first. -/
def uniformOperand (a : Armlet) (q : Bool) (vectors : Vectors) : Option (U8 × ValueRef) :=
  match uniformByte (a.args.get 1) q vectors with
  | some b => some (b, a.args.get 0)
  | none => (uniformByte (a.args.get 0) q vectors).map fun b => (b, a.args.get 1)

/-- The source, the matrix and the addend of a node, before the source's type is checked. -/
def recognizeMap (a : Armlet) (b : Block) (consts : Consts) (vectors : Vectors) :
    Option (ValueRef × U64 × U8) :=
  let q := a.imm &&& 1 != 0
  let source := a.args.get 0
  let shift := (a.imm >>> 1).toNat
  match a.op with
  | .vecBitAffine =>
    if a.imm &&& ~~~0xFF01#64 = 0 ∧ (b.code[a.args.get 1]?).map Armlet.op = some .constU64 then
      (consts (a.args.get 1)).map fun m => (source, m, byteAt a.imm 1)
    else none
  | .vecNot => if a.imm ≤ (1 : U64) then some (source, diagonal 0xFF, 0xFF) else none
  | .vecShlImm8 => if shift < 8 then some (source, matrix (leftRow shift), 0) else none
  | .vecUshrImm8 => if shift ≤ 8 then some (source, matrix (rightRow shift), 0) else none
  | .vecSshrImm8 => if shift ≤ 8 then some (source, matrix (signedRow shift), 0) else none
  | .vecAdd8 =>
    if a.imm ≤ (1 : U64) ∧ a.args.get 0 = a.args.get 1 then some (source, matrix (leftRow 1), 0)
    else none
  | .vecMul8 =>
    if a.imm ≤ (1 : U64) then
      (uniformOperand a q vectors).bind fun (multiplier, source) =>
        if isPowerOfTwo multiplier then some (source, matrix (leftRow (trailingZeros multiplier)), 0)
        else none
    else none
  | .vecUshl8 | .vecSshl8 =>
    if a.imm ≤ (1 : U64) then
      (uniformByte (a.args.get 1) q vectors).map fun count =>
        (source, matrix (shiftRow (a.op == .vecSshl8) count.toInt), 0)
    else none
  | .vecAnd =>
    if a.imm ≤ (1 : U64) then
      (uniformOperand a q vectors).map fun (mask, source) => (source, diagonal mask, 0)
    else none
  | .vecOrr =>
    if a.imm ≤ (1 : U64) then
      (uniformOperand a q vectors).map fun (mask, source) => (source, diagonal (~~~mask), mask)
    else none
  | .vecEor =>
    if a.imm ≤ (1 : U64) then
      (uniformOperand a q vectors).map fun (mask, source) => (source, diagonal 0xFF, mask)
    else none
  | .vecBic =>
    if a.imm ≤ (1 : U64) then
      (uniformByte (a.args.get 1) q vectors).map fun mask => (source, diagonal (~~~mask), 0)
    else none
  | .vecOrn =>
    if a.imm ≤ (1 : U64) then
      (uniformByte (a.args.get 1) q vectors).map fun mask => (source, diagonal mask, ~~~mask)
    else none
  | _ => none

def recognize (a : Armlet) (b : Block) (consts : Consts) (vectors : Vectors) : Option ByteMap :=
  if a.ty ≠ .u128 then none
  else (recognizeMap a b consts vectors).bind fun (source, m, addend) =>
    if source.isNone ∨ (b.code[source]?).map Armlet.ty ≠ some .u128 then none
    else some { source, matrix := m, addend, q := a.imm &&& 1 != 0 }

/-- First `inner`, then `outer`. -/
def compose (outer inner : ByteMap) : Option ByteMap :=
  if ¬ inner.q ∧ outer.q ∧ outer.addend ≠ 0 then none
  else
    let row (output : Nat) : U8 := (List.range 8).foldl
      (fun row input =>
        if (rowOf outer.matrix output).getLsbD input then row ^^^ rowOf inner.matrix input else row) 0
    some { source := inner.source, matrix := matrix row,
           addend := linear outer.matrix inner.addend ^^^ outer.addend, q := outer.q && inner.q }

/-- The constant in an argument slot whose node has the given kind of type. -/
def typedConst (ok : Ty → Bool) (b : Block) (consts : Consts) (v : ValueRef) : Option U64 :=
  if (b.code[v]?).any (fun node => ok node.ty) then consts v else none

def vectorConstant (a : Armlet) (b : Block) (consts : Consts) (vectors : Vectors)
    (recognized : Option ByteMap) : Option (U64 × U64) :=
  if a.ty ≠ .u128 then none
  else if a.op = .identity then vectors (a.args.get 0)
  else if a.op = .vecBuildQ then
    (typedConst (· == .u64) b consts (a.args.get 0)).bind fun lo =>
      (typedConst (· == .u64) b consts (a.args.get 1)).map fun hi => (lo, hi)
  else if a.op = .vecDupGpr8 ∧ a.imm ≤ (1 : U64) then
    (typedConst (fun t => t == .u32 || t == .u64) b consts (a.args.get 0)).map fun c =>
      let repeated := repeatByte (byteAt c 0)
      (repeated, if a.imm &&& 1 ≠ 0 then repeated else 0)
  else recognized.bind fun map => (vectors map.source).map fun halves =>
    let convert := mapBytes fun byte => linear map.matrix byte ^^^ map.addend
    (convert halves.1, if map.q then convert halves.2 else 0)

/-! ## What a map costs -/

def reverseMatrix : U64 := 0x8040201008040201#64
def identityMatrix : U64 := 0x0102040810204080#64

/-- The matrix of a right shift. -/
def rightShiftMatrix (shift : Nat) (signed : Bool) : U64 :=
  matrix fun output => if signed then signedRow shift output else rightRow shift output

/-- The common distance and the mask of a matrix each of whose rows keeps one bit or none. -/
def shiftedDiagonal (m : U64) : Option (Int × U8) :=
  let visit (acc : Option (Option Int × U8)) (output : Nat) : Option (Option Int × U8) :=
    acc.bind fun (delta, mask) =>
      let row := rowOf m output
      if row = 0 then some (delta, mask)
      else if ¬ isPowerOfTwo row then none
      else
        let rowDelta : Int := trailingZeros row - output
        if delta.any (· != rowDelta) then none
        else some (some rowDelta, mask ||| 1#8 <<< output)
  ((List.range 8).foldl visit (some (none, 0))).bind fun (delta, mask) =>
    delta.map fun delta => (delta, mask)

def signedRightShift (m : U64) : Option Nat :=
  (List.range' 1 8).find? fun shift => m == rightShiftMatrix shift true

/-- The instructions of a map. -/
def affineCost (m : U64) (addend : U8) (q gfni : Bool) : Nat :=
  let tail := if addend = 0 then 0 else 4
  let core : Nat :=
    if gfni then 4
    else if m = identityMatrix then tail
    else if m = 0 then if addend = 0 then 1 else 3
    else if m = reverseMatrix then 27 + tail
    else if (signedRightShift m).isSome then 7 + tail
    else match shiftedDiagonal m with
      | some (delta, mask) =>
        (if delta ≠ 0 then 1 else 0) + (if mask = 0xFF then 0 else 4) + tail
      | none => (List.range 8).foldl
        (fun cost output =>
          let row := rowOf m output
          cost + if row = 0 then 0 else if isPowerOfTwo row then 8 else 19) (2 + tail)
  core + if q then 0 else 1

/-- Moving a value in and out of the fixed register of the affine code, unless that register is
one the allocator hands out. -/
def fixedTransport : Nat := if spillXmms.contains 0 then 0 else 2

/-- The instructions of a node the map could replace. -/
def coreCost (node : Armlet) (b : Block) (gfni : Bool) : Option Nat :=
  let q := node.imm &&& 1 != 0
  let clear := if q then 0 else 1
  match node.op with
  | .vecBitAffine => (b.code[node.args.get 1]?).bind fun literal =>
    if literal.op ≠ .constU64 then none
    else some (affineCost literal.imm (byteAt node.imm 1) q gfni + fixedTransport)
  | .vecNot => some (2 + clear)
  | .vecAnd | .vecOrr | .vecEor | .vecBic | .vecOrn | .vecAdd8 => some (1 + clear)
  | .vecMul8 => some (10 + clear)
  | .vecShlImm8 | .vecUshrImm8 => some (if gfni then 4 + clear + fixedTransport else 5 + clear)
  | .vecSshrImm8 =>
    some (if gfni then 4 + clear + fixedTransport else (if q then 6 else 3) + clear)
  | .vecUshl8 => some ((if q then 16 else 8) * 9 + 1)
  | .vecSshl8 => some ((if q then 16 else 8) * 10 + 1)
  | .getV => if node.ty = .u128 then some 1 else none
  | _ => none

/-- What becomes dead with the last use of a constant. -/
def deadConstant (b : Block) (uses : Uses) (vectors : Vectors) : Nat → ValueRef → Nat
  | 0, _ => 0
  | n + 1, value =>
    if value.isNone ∨ uses value ≠ 1 then 0
    else
      let node := b.get value
      match node.op with
      | .constU32 | .constU64 => 2
      | .vecBuildQ =>
        if (vectors value).isSome then
          4 + deadConstant b uses vectors n (node.args.get 0)
            + deadConstant b uses vectors n (node.args.get 1)
        else 0
      | .vecDupGpr8 =>
        if (vectors value).isSome then
          4 + (if node.imm &&& 1 = 0 then 1 else 0)
            + deadConstant b uses vectors n (node.args.get 0)
        else 0
      | _ => 0

/-- The same over the operands other than `source`, each counted once. -/
def deadOperands (node : Armlet) (source : ValueRef) (b : Block) (uses : Uses)
    (vectors : Vectors) : Nat :=
  ((node.args.toList.dedup.filter (· ≠ source)).map
    (deadConstant b uses vectors b.code.size)).sum

/-- The cost of what a map would replace: the node, what dies with it, and for a composition the
inner node when this is its only use. -/
def replacedCost (node : Armlet) (b : Block) (uses : Uses) (vectors : Vectors)
    (original : ByteMap) (inner : Option ByteMap) (gfni : Bool) : Option Nat :=
  (coreCost node b gfni).bind fun core =>
    let old := core + deadOperands node original.source b uses vectors
    match inner with
    | none => some old
    | some inner =>
      if uses original.source = 1 then
        let predecessor := b.get original.source
        (coreCost predecessor b gfni).map fun removed =>
          old + removed + deadOperands predecessor inner.source b uses vectors
      else some old

def worthwhile (node : Armlet) (b : Block) (uses : Uses) (vectors : Vectors)
    (original replacement : ByteMap) (inner : Option ByteMap) : Bool :=
  [false, true].all fun gfni =>
    (replacedCost node b uses vectors original inner gfni).any fun old =>
      affineCost replacement.matrix replacement.addend replacement.q gfni + 4 ≤ old

/-! ## Seeding the use counts -/

/-- Count a use of a value, and of what it is an identity of. -/
def countReference (b : Block) : Nat → Uses → ValueRef → Uses
  | 0, uses, _ => uses
  | n + 1, uses, value =>
    if value.isNone ∨ b.code.size ≤ value then uses
    else
      let uses := uses.count value
      let next := (b.get value).args.get 0
      if (b.get value).op ≠ .identity ∨ next.isNone ∨ value ≤ next then uses
      else countReference b n uses next

/-- The value a terminal reads, if any. -/
def terminalValue : Terminal → ValueRef
  | .conditionalBranch condNzcv _ _ _ => condNzcv
  | .compareBranchZero value _ _ _ _ => value
  | .testBranchBit value _ _ _ _ => value
  | .indirectBranch target _ _ => target
  | _ => ValueRef.none

def seedUses (b : Block) : Uses :=
  let refs := b.iterLive.flatMap (fun v => (b.get v).args.toList) ++ [terminalValue b.terminal]
  refs.foldl (fun uses value => countReference b (value + 1) uses value) fun _ => 0

end Optimizer

end Rustarmic
