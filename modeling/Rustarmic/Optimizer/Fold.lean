import Rustarmic.Ir.Block

/-!
# Rewriting one node

What the optimizer can say of a single node from the constants it knows.

* `tryFold`: all operands are constant, so the node is.
* `tryStrengthReduce`: one operand is neutral or absorbing, or both are the same.
* `tryCombineConst`: two nested operations with a constant each become one.
* `tryMulFold`: a sum of multiples of one value becomes a multiple.
* `simplifyTerminal`: a conditional terminal on a constant becomes a direct branch.

The constants are a function from nodes; past the end of the source's vector, and at the dummy
node, there is none.
-/

set_option autoImplicit false

namespace Rustarmic

namespace Optimizer

/-- The constant a node is known to compute, if any. -/
abbrev Consts := Nat → Option U64

/-- The constant in an argument slot. -/
def constOf (consts : Consts) (v : ValueRef) : Option U64 :=
  if v.isNone then none else consts v

def allOnes64 : U64 := BitVec.allOnes 64
def allOnes32 : U64 := 0xFFFFFFFF#64

/-- The values an operation of `bits` bits ranges over, as a mask. -/
def maskOf (bits : Nat) : U64 := if 64 ≤ bits then allOnes64 else (1#64 <<< bits) - 1

/-! ## Constant folding -/

/-- A 32-bit operation on the lower halves, zero-extended. -/
def on32 (f : U32 → U32 → U32) (x y : U64) : U64 :=
  (f (x.setWidth 32) (y.setWidth 32)).setWidth 64

/-- A shift amount as the operation of `2 ^ k` bits takes it, the mask being `2 ^ k - 1`. -/
def shiftBy (y : U64) (mask : U32) : Nat := (y.setWidth 32 &&& mask).toNat

/-- The value of an operation whose operands are constant; `y` is absent for a unary one. -/
def foldOp (op : Op) (x : U64) (y : Option U64) : Option U64 :=
  match op with
  | .add32 => y.map fun y => on32 (· + ·) x y
  | .add64 => y.map fun y => x + y
  | .sub32 => y.map fun y => on32 (· - ·) x y
  | .sub64 => y.map fun y => x - y
  | .and32 => y.map fun y => on32 (· &&& ·) x y
  | .and64 => y.map fun y => x &&& y
  | .or32 => y.map fun y => on32 (· ||| ·) x y
  | .or64 => y.map fun y => x ||| y
  | .eor32 => y.map fun y => on32 (· ^^^ ·) x y
  | .eor64 => y.map fun y => x ^^^ y
  | .lsl32 => y.map fun y => on32 (fun u _ => u <<< shiftBy y 31) x y
  | .lsl64 => y.map fun y => x <<< shiftBy y 63
  | .lsr32 => y.map fun y => on32 (fun u _ => u >>> shiftBy y 31) x y
  | .lsr64 => y.map fun y => x >>> shiftBy y 63
  | .asr32 => y.map fun y => on32 (fun u _ => u.sshiftRight (shiftBy y 31)) x y
  | .asr64 => y.map fun y => x.sshiftRight (shiftBy y 63)
  | .ror32 => y.map fun y => on32 (fun u _ => u.rotateRight (shiftBy y 31)) x y
  | .ror64 => y.map fun y => x.rotateRight (shiftBy y 63)
  | .mul32 => y.map fun y => on32 (· * ·) x y
  | .mul64 => y.map fun y => x * y
  | .not32 => some (~~~x &&& allOnes32)
  | .not64 => some (~~~x)
  | .neg32 => some (on32 (fun u _ => ~~~u + 1) x x)
  | .neg64 => some (~~~x + 1)
  | .identity => some x
  | _ => none

def tryFold (op : Op) (a : Armlet) (consts : Consts) : Option U64 :=
  (constOf consts (a.args.get 0)).bind fun x => foldOp op x (constOf consts (a.args.get 1))

/-! ## Strength reduction -/

inductive Simplify where
  | toConst (v : U64)
  | toIdentity (v : ValueRef)
  deriving DecidableEq, Repr

/-- What is common to the conjunctions of 32 and of 64 bits, `ones` being the neutral operand. -/
def reduceAnd (ones : U64) (arg0 arg1 : ValueRef) (c0 c1 : Option U64) : Option Simplify :=
  if c0 = some 0 ∨ c1 = some 0 then some (.toConst 0)
  else if c0 = some ones then some (.toIdentity arg1)
  else if c1 = some ones then some (.toIdentity arg0)
  else if arg0 = arg1 ∧ arg0.isSome then some (.toIdentity arg0)
  else none

/-- The same for the disjunctions, `ones` being the absorbing operand. -/
def reduceOr (ones : U64) (arg0 arg1 : ValueRef) (c0 c1 : Option U64) : Option Simplify :=
  if c0 = some 0 then some (.toIdentity arg1)
  else if c1 = some 0 then some (.toIdentity arg0)
  else if c0 = some ones ∨ c1 = some ones then some (.toConst ones)
  else if arg0 = arg1 ∧ arg0.isSome then some (.toIdentity arg0)
  else none

def tryStrengthReduce (op : Op) (a : Armlet) (consts : Consts) : Option Simplify :=
  let arg0 := a.args.get 0
  let arg1 := a.args.get 1
  let c0 := constOf consts arg0
  let c1 := constOf consts arg1
  match op with
  | .add32 | .add64 =>
    if c0 = some 0 then some (.toIdentity arg1)
    else if c1 = some 0 then some (.toIdentity arg0)
    else none
  | .sub32 | .sub64 =>
    if c1 = some 0 then some (.toIdentity arg0)
    else if arg0 = arg1 ∧ arg0.isSome then some (.toConst 0)
    else none
  | .and32 => reduceAnd allOnes32 arg0 arg1 c0 c1
  | .and64 => reduceAnd allOnes64 arg0 arg1 c0 c1
  | .or32 => reduceOr allOnes32 arg0 arg1 c0 c1
  | .or64 => reduceOr allOnes64 arg0 arg1 c0 c1
  | .eor32 | .eor64 =>
    if c0 = some 0 then some (.toIdentity arg1)
    else if c1 = some 0 then some (.toIdentity arg0)
    else if arg0 = arg1 ∧ arg0.isSome then some (.toConst 0)
    else none
  | .mul32 | .mul64 =>
    if c0 = some 0 ∨ c1 = some 0 then some (.toConst 0)
    else if c0 = some 1 then some (.toIdentity arg1)
    else if c1 = some 1 then some (.toIdentity arg0)
    else none
  | .lsl32 | .lsl64 | .lsr32 | .lsr64 | .asr32 | .asr64 | .ror32 | .ror64 =>
    if c1 = some 0 then some (.toIdentity arg0) else none
  | _ => none

/-! ## Combining constants -/

/-- The constant and the operation that `outer (inner x i) o` comes to on `x`, for operations of
`bits` bits. -/
def combineOps (outer inner : Op) (i o : U64) (bits : Nat) : Option (U64 × Op) :=
  let mask := maskOf bits
  let top := BitVec.ofNat 64 (bits - 1)
  let shifts : Option (U64 × Op) := if (top : U64) < i + o then none else some (i + o, outer)
  match outer, inner with
  | .add32, .add32 => some ((i + o) &&& mask, .add32)
  | .add64, .add64 => some (i + o, .add64)
  | .sub32, .sub32 => some ((0 - (i + o)) &&& mask, .add32)
  | .sub64, .sub64 => some (0 - (i + o), .add64)
  | .and32, .and32 => some (i &&& o &&& mask, .and32)
  | .and64, .and64 => some (i &&& o, .and64)
  | .or32, .or32 => some ((i ||| o) &&& mask, .or32)
  | .or64, .or64 => some (i ||| o, .or64)
  | .eor32, .eor32 => some ((i ^^^ o) &&& mask, .eor32)
  | .eor64, .eor64 => some (i ^^^ o, .eor64)
  | .mul32, .mul32 => some ((i * o) &&& mask, .mul32)
  | .mul64, .mul64 => some (i * o, .mul64)
  | .add32, .sub32 => some ((o - i) &&& mask, .add32)
  | .add64, .sub64 => some (o - i, .add64)
  | .sub32, .add32 => some ((i - o) &&& mask, .add32)
  | .sub64, .add64 => some (i - o, .add64)
  | .lsl32, .lsl32 | .lsl64, .lsl64 | .lsr32, .lsr32 | .lsr64, .lsr64
  | .asr32, .asr32 | .asr64, .asr64 => shifts
  | .ror32, .ror32 | .ror64, .ror64 => some ((i + o) &&& top, outer)
  | _, _ => none

/-- The base, the constant and the operation an operation with a constant on an operation with a
constant comes to. -/
def tryCombineConst (a : Armlet) (b : Block) (consts : Consts) : Option (ValueRef × U64 × Op) :=
  (consts (a.args.get 1)).bind fun outerConst =>
    if (a.args.get 0).isNone then none
    else (b.code[a.args.get 0]?).bind fun inner =>
      (consts (inner.args.get 1)).bind fun innerConst =>
        if (inner.args.get 0).isNone then none
        else (combineOps a.op inner.op innerConst outerConst a.op.sizeBits).map fun r =>
          (inner.args.get 0, r)

/-! ## Multiples of one value -/

/-- The value `coeff * base`. -/
structure Term where
  base : ValueRef
  coeff : U64
  hasMul : Bool
  deriving DecidableEq, Repr

/-- A value taken as it is. -/
def Term.leaf (v : ValueRef) : Term := { base := v, coeff := 1, hasMul := false }

/-- Follow multiplications and left shifts by a constant, and identities.  Arguments run in no
circle, so as many steps as there are nodes are enough. -/
def extractTerm (b : Block) (consts : Consts) (bits : Nat) : Nat → ValueRef → Term
  | 0, v => .leaf v
  | n + 1, v =>
    if b.code.size ≤ v ∨ v.isNone then .leaf v
    else
      let a := b.get v
      let scaled (c : U64) (arg : ValueRef) : Term :=
        let inner := extractTerm b consts bits n arg
        { base := inner.base, coeff := inner.coeff * c, hasMul := true }
      match a.op with
      | .mul32 | .mul64 =>
        if a.op.sizeBits = bits then
          match constOf consts (a.args.get 0), constOf consts (a.args.get 1) with
          | some c, _ => scaled c (a.args.get 1)
          | none, some c => scaled c (a.args.get 0)
          | none, none => .leaf v
        else .leaf v
      | .lsl32 | .lsl64 =>
        if a.op.sizeBits = bits then
          match constOf consts (a.args.get 1) with
          | some k =>
            let inner := extractTerm b consts bits n (a.args.get 0)
            { inner with coeff := inner.coeff <<< shiftBy k (BitVec.ofNat 32 (bits - 1)) }
          | none => .leaf v
        else .leaf v
      | .identity => extractTerm b consts bits n (a.args.get 0)
      | _ => .leaf v

/-- The base and the coefficient of a sum or difference of multiples of one value. -/
def tryMulFold (add : Armlet) (b : Block) (consts : Consts) : Option (ValueRef × U64) :=
  let bits := add.op.sizeBits
  let lhs := extractTerm b consts bits b.code.size (add.args.get 0)
  let rhs := extractTerm b consts bits b.code.size (add.args.get 1)
  if lhs.base ≠ rhs.base ∨ lhs.base.isNone then none
  else if ¬ (lhs.hasMul || rhs.hasMul) then none
  else
    let isSub := add.op == .sub32 || add.op == .sub64
    let sum := if isSub then lhs.coeff - rhs.coeff else lhs.coeff + rhs.coeff
    let combined := sum &&& maskOf bits
    if combined = 0 ∨ combined = 1 then none else some (lhs.base, combined)

/-! ## The terminal -/

/-- The direct branch a conditional terminal comes to when what it tests is constant. -/
def constTerminal (consts : Consts) : Terminal → Option Terminal
  | .compareBranchZero value inverse is64 takenPc notTakenPc =>
    (constOf consts value).map fun v =>
      let v := if is64 then v else v &&& allOnes32
      .directBranch (if (v == 0) ^^ inverse then takenPc else notTakenPc) false
  | .testBranchBit value bit inverse takenPc notTakenPc =>
    (constOf consts value).map fun v =>
      let bitSet := v.getLsbD bit.toNat
      .directBranch (if (if inverse then bitSet else !bitSet) then takenPc else notTakenPc) false
  | .conditionalBranch condNzcv condCode takenPc notTakenPc =>
    let cond := Cond.fromBits condCode
    if cond = .al ∨ cond = .nv then some (.directBranch takenPc false)
    else (constOf consts condNzcv).map fun nz =>
      .directBranch (if (Nzcv.mk (nz.setWidth 8)).check cond then takenPc else notTakenPc) false
  | _ => none

/-- The operations of a conditional branch. -/
def isCondBranch (op : Op) : Bool :=
  op == .cbZ || op == .cbNz || op == .tbZ || op == .tbNz || op == .branchCond

/-- A terminal that became direct takes the place of the branch node the list ends with. -/
def simplifyTerminal (b : Block) (consts : Consts) : Block :=
  match constTerminal consts b.terminal with
  | none => b
  | some t =>
    let b := { b with terminal := t }
    match b.tailVr with
    | none => b
    | some tail => if isCondBranch (b.get tail).op then b.unlink tail else b

end Optimizer

end Rustarmic
