import Rustarmic.Optimizer.Affine

/-!
# The optimizer

One walk over the live list rewrites its nodes, and a second one, from the tail, drops what became
dead.

The forward walk keeps, for each guest register, the value it holds (`reachX`), the last write that
no one has read (`lastSetx`) and the first read since the last write (`firstGetx`), and the like
for SP, the flags and the vector registers.  `step` is one iteration: it takes a copy of the node,
forwards its arguments, lets `visitOp`, `visitMulFold` and `visitAffine` rewrite the copy and change
the block around it, and writes the copy back.

Scratch vectors and register tables are functions here.
-/

set_option autoImplicit false

namespace Rustarmic

namespace Optimizer

/-- What the forward walk carries: the block, `Scratch`, and the register tables. -/
structure WalkState where
  block : Block
  uses : Uses
  consts : Consts
  vectors : Vectors
  affines : Nat → Option ByteMap
  reachX : Nat → ValueRef
  reachSp : ValueRef
  reachNzcv : ValueRef
  reachV : Nat → ValueRef
  /-- The last write of each register that nothing has read or observed. -/
  lastSetx : Nat → ValueRef
  /-- The first `GetX` of each register since its last write, so repeated reads share one load. -/
  firstGetx : Nat → ValueRef
  lastSetSp : ValueRef
  lastSetNzcv : ValueRef

namespace WalkState

def init (b : Block) : WalkState :=
  { block := b, uses := seedUses b, consts := fun _ => none, vectors := fun _ => none,
    affines := fun _ => none, reachX := fun _ => ValueRef.none, reachSp := ValueRef.none,
    reachNzcv := ValueRef.none, reachV := fun _ => ValueRef.none,
    lastSetx := fun _ => ValueRef.none, firstGetx := fun _ => ValueRef.none,
    lastSetSp := ValueRef.none, lastSetNzcv := ValueRef.none }

/-- Forget every write that could still turn out to be dead. -/
def observe (s : WalkState) : WalkState :=
  { s with lastSetx := fun _ => ValueRef.none, lastSetSp := ValueRef.none,
           lastSetNzcv := ValueRef.none }

def setConst (s : WalkState) (v : ValueRef) (c : Option U64) : WalkState :=
  { s with consts := Function.update s.consts v c }

end WalkState

/-! ## Forwarding arguments -/

/-- Look through identities, as long as they lead to an earlier node. -/
def forward (b : Block) : Nat → ValueRef → ValueRef
  | 0, v => v
  | n + 1, v =>
    let next := (b.get v).args.get 0
    if v.isNone ∨ (b.get v).op ≠ .identity ∨ next.isNone ∨ v ≤ next then v
    else forward b n next

/-- `forward` with as many steps as it can take. -/
def forwardSlot (b : Block) (v : ValueRef) : ValueRef := forward b v v

def forwardArgs (b : Block) (a : Armlet) : Armlet :=
  { a with args := #v[forwardSlot b (a.args.get 0), forwardSlot b (a.args.get 1),
      forwardSlot b (a.args.get 2), forwardSlot b (a.args.get 3)] }

/-! ## The arms of the walk -/

/-- Take a dead write out of the list, if there is one. -/
def dropStore (b : Block) (store : ValueRef) : Block :=
  if store.isSome then b.unlink store else b

/-- The write that a node makes dead. -/
def deadStore (s : WalkState) (a : Armlet) : ValueRef :=
  match a.op with
  | .setX | .setW => if a.imm.toNat < numGprs then s.lastSetx a.imm.toNat else ValueRef.none
  | .setSp => s.lastSetSp
  | .setNzcv | .addsFlags32 | .addsFlags64 | .subsFlags32 | .subsFlags64 | .logicFlags32
  | .logicFlags64 | .adcs32 | .adcs64 | .sbcs32 | .sbcs64 | .fcmp32 | .fcmp64 => s.lastSetNzcv
  | _ => ValueRef.none

/-- A node that turned out constant takes the constant of its type. -/
def becomeConst (a : Armlet) (v : U64) : Armlet :=
  match a.ty with
  | .u32 => a.becomeConstU32 (v.setWidth 32)
  | .u64 => a.becomeConstU64 v
  | _ => a

def visitGetX (s : WalkState) (vr : ValueRef) (a : Armlet) : WalkState × Armlet :=
  let reg := a.imm.toNat
  if reg < numGprs then
    if (s.reachX reg).isSome then (s, a.becomeIdentity (s.reachX reg))
    else if (s.firstGetx reg).isSome then (s, a.becomeIdentity (s.firstGetx reg))
    else ({ s with lastSetx := Function.update s.lastSetx reg ValueRef.none,
                   firstGetx := Function.update s.firstGetx reg vr }, a)
  else (s, a)

def visitGetW (s : WalkState) (a : Armlet) : WalkState × Armlet :=
  let reg := a.imm.toNat
  if reg < numGprs then
    if (s.reachX reg).isSome then (s, { a.becomeIdentity (s.reachX reg) with ty := .u32 })
    else ({ s with lastSetx := Function.update s.lastSetx reg ValueRef.none }, a)
  else (s, a)

/-- A write of `reach` to a general register; a W write leaves nothing to forward, since its source
may have an upper half. -/
def visitSetGpr (s : WalkState) (vr : ValueRef) (a : Armlet) (reach : ValueRef) : WalkState :=
  let reg := a.imm.toNat
  if reg < numGprs then
    { s with block := dropStore s.block (deadStore s a),
             reachX := Function.update s.reachX reg reach,
             lastSetx := Function.update s.lastSetx reg vr,
             firstGetx := Function.update s.firstGetx reg ValueRef.none }
  else s

/-- A 128-bit write can be forwarded to a later read of the register. -/
def visitSetV (s : WalkState) (a : Armlet) : WalkState :=
  let reg := a.imm.toNat
  let def' := if (s.block.get (a.args.get 0)).ty = .u128 then a.args.get 0 else ValueRef.none
  let s := if reg < 32 then { s with reachV := Function.update s.reachV reg def' } else s
  s.observe

def visitPure (s : WalkState) (vr : ValueRef) (a : Armlet) : WalkState × Armlet :=
  match tryFold a.op a s.consts with
  | some folded => (s, becomeConst a folded)
  | none => match tryStrengthReduce a.op a s.consts with
    | some (.toConst v) => (s, becomeConst a v)
    | some (.toIdentity v) => (s, a.becomeIdentity v)
    | none => match tryCombineConst a s.block s.consts with
      | some (base, newConst, newOp) =>
        let node := if newOp.sizeBits = 32 then Armlet.new .constU32 .u32
          else Armlet.new .constU64 .u64
        let r := s.block.insertBefore vr (node.withImm newConst)
        ({ s with block := r.1, consts := Function.update s.consts r.2 (some newConst) },
          { a with op := newOp, args := #v[base, r.2, ValueRef.none, ValueRef.none] })
      | none => (s, a)

/-- The large case distinction of the walk. -/
def visitOp (s : WalkState) (vr : ValueRef) (a : Armlet) : WalkState × Armlet :=
  match a.op with
  | .getX => visitGetX s vr a
  | .getW => visitGetW s a
  | .getSp =>
    if s.reachSp.isSome then (s, a.becomeIdentity s.reachSp)
    else ({ s with lastSetSp := ValueRef.none }, a)
  | .getNzcv =>
    if s.reachNzcv.isSome then (s, a.becomeIdentity s.reachNzcv)
    else ({ s with lastSetNzcv := ValueRef.none }, a)
  | .setV => (visitSetV s a, a)
  | .setX => (visitSetGpr s vr a (a.args.get 0), a)
  | .setW => (visitSetGpr s vr a ValueRef.none, a)
  | .setSp => ({ s with block := dropStore s.block (deadStore s a), reachSp := a.args.get 0,
                        lastSetSp := vr }, a)
  | .setNzcv => ({ s with block := dropStore s.block (deadStore s a), reachNzcv := a.args.get 0,
                          lastSetNzcv := vr }, a)
  | .addsFlags32 | .addsFlags64 | .subsFlags32 | .subsFlags64 | .logicFlags32 | .logicFlags64
  | .adcs32 | .adcs64 | .sbcs32 | .sbcs64 | .fcmp32 | .fcmp64 =>
    ({ s with block := dropStore s.block (deadStore s a), reachNzcv := ValueRef.none,
              lastSetNzcv := ValueRef.none }, a)
  | .constU32 => (s.setConst vr (some (a.imm &&& allOnes32)), a)
  | .constU64 => (s.setConst vr (some a.imm), a)
  | op =>
    if op.isPure then visitPure s vr a
    else if op.hasSideEffects then (s.observe, a)
    else (s, a)

/-- The additions and subtractions `tryMulFold` looks at. -/
def isSum (op : Op) : Bool := op == .add32 || op == .add64 || op == .sub32 || op == .sub64

/-- A sum of multiples becomes an identity of one multiplication, put in front of it. -/
def visitMulFold (s : WalkState) (vr : ValueRef) (a : Armlet) : WalkState × Armlet :=
  if isSum a.op then
    match tryMulFold a s.block s.consts with
    | some (base, coeff) =>
      let ops := if a.op.sizeBits = 32 then (Op.constU32, Op.mul32) else (Op.constU64, Op.mul64)
      let r := s.block.insertBefore vr ((Armlet.new ops.1 a.ty).withImm coeff)
      let r' := r.1.insertBefore vr ((Armlet.new ops.2 a.ty).withArgs [base, r.2])
      ({ s with block := r'.1, consts := Function.update s.consts r.2 (some coeff) },
        a.becomeIdentity r'.2)
    | none => (s, a)
  else (s, a)

/-- Note the constant of a node that is one by now. -/
def recordConst (s : WalkState) (vr : ValueRef) (a : Armlet) : WalkState :=
  match a.op with
  | .constU32 => s.setConst vr (some (a.imm &&& allOnes32))
  | .constU64 => s.setConst vr (some a.imm)
  | .identity =>
    if (a.args.get 0).isSome then s.setConst vr (s.consts (a.args.get 0)) else s
  | _ => s

/-- The value a vector register is known to hold, for a 128-bit read of it. -/
def forwardedV (s : WalkState) (a : Armlet) : Option ValueRef :=
  if a.op = .getV ∧ a.ty = .u128 ∧ a.imm.toNat < 32 ∧ (s.reachV a.imm.toNat).isSome then
    some (s.reachV a.imm.toNat)
  else none

/-- The affine map that is worth putting in place of a node: the composition with the map of its
source, or for a shift by a vector its own. -/
def replacementMap (s : WalkState) (a : Armlet) (map : ByteMap) : Option ByteMap :=
  let composition := (s.affines map.source).bind fun inner =>
    (compose map inner).filter fun composed =>
      worthwhile a s.block s.uses s.vectors map composed (some inner)
  match composition with
  | some composed => some composed
  | none =>
    if (a.op = .vecUshl8 ∨ a.op = .vecSshl8) ∧ worthwhile a s.block s.uses s.vectors map map none
    then some map else none

/-- Put an affine operation in place of the node, with its matrix in front. -/
def affineNode (s : WalkState) (vr : ValueRef) (a : Armlet) (map : ByteMap) :
    WalkState × Armlet :=
  let node := { (Armlet.new .constU64 .u64).withImm map.matrix with pc := a.pc }
  let r := s.block.insertBefore vr node
  ({ s with block := r.1, consts := Function.update s.consts r.2 (some map.matrix),
            uses := Uses.count (Function.update s.uses r.2 1) map.source,
            affines := Function.update s.affines vr (some map) },
    { a with op := .vecBitAffine, prev := (r.1.get vr).prev,
             args := #v[map.source, r.2, ValueRef.none, ValueRef.none],
             imm := map.addend.setWidth 64 <<< 8 ||| if map.q then 1 else 0 })

def visitAffine (s : WalkState) (vr : ValueRef) (a : Armlet) : WalkState × Armlet :=
  let recognized := recognize a s.block s.consts s.vectors
  let forwarded := forwardedV s a
  let vector := match forwarded with
    | some source => s.vectors source
    | none => vectorConstant a s.block s.consts s.vectors recognized
  let s := { s with vectors := Function.update s.vectors vr vector }
  let keep (m : Option ByteMap) : WalkState × Armlet :=
    ({ s with affines := Function.update s.affines vr m }, a)
  match recognized with
  | some map => match replacementMap s a map with
    | some composed =>
      if s.block.code.size < Block.maxNodes then affineNode s vr a composed else keep (some map)
    | none => keep (some map)
  | none =>
    if a.op = .identity ∧ a.ty = .u128 then keep (s.affines (a.args.get 0))
    else match forwarded with
      | some source => keep (s.affines source)
      | none => (s, a)

/-! ## The walk -/

/-- The copy of the node the arms work on, its arguments forwarded. -/
def loadNode (s : WalkState) (vr : ValueRef) : Armlet := forwardArgs s.block (s.block.get vr)

/-- Every side effect but a vector write ends what is known of the vector registers. -/
def resetV (s : WalkState) (op : Op) : WalkState :=
  if op.hasSideEffects && op != .setV then { s with reachV := fun _ => ValueRef.none } else s

/-- What the arms make of the node, before it is written back. -/
def visit (s : WalkState) (vr : ValueRef) : WalkState × Armlet :=
  let a := loadNode s vr
  let r := visitOp (resetV s a.op) vr a
  let r := visitMulFold r.1 vr r.2
  visitAffine (recordConst r.1 vr r.2) vr r.2

/-- One iteration of the forward walk. -/
def step (s : WalkState) (vr : ValueRef) : WalkState :=
  let r := visit s vr
  { r.1 with block := r.1.block.set vr r.2 }

/-- The forward walk; the successor of a node is read before the node is visited. -/
def forwardWalk : Nat → WalkState → ValueRef → WalkState
  | 0, s, _ => s
  | n + 1, s, vr =>
    if vr = linkNone then s else forwardWalk n (step s vr) (s.block.get vr).next

/-- How often each value is used by a live node or the terminal. -/
def countUses (b : Block) : Uses :=
  let refs := b.iterLive.flatMap (fun v => (b.get v).args.toList) ++ [terminalValue b.terminal]
  (refs.filter ValueRef.isSome).foldl Uses.count fun _ => 0

/-- The walk from the tail that drops unused nodes. -/
def dropDead : Nat → Block → Uses → ValueRef → Block
  | 0, b, _, _ => b
  | n + 1, b, uses, vr =>
    if vr = linkNone then b
    else
      let prev := (b.get vr).prev
      if (b.get vr).op.hasSideEffects ∨ uses vr ≠ 0 then dropDead n b uses prev
      else
        let uses := ((b.get vr).args.toList.filter ValueRef.isSome).foldl Uses.discount uses
        dropDead n (b.unlink vr) uses prev

def optimize (b : Block) : Block :=
  if b.code.size = 0 then b
  else
    let s := forwardWalk b.code.size (.init b) b.head
    let b := simplifyTerminal s.block s.consts
    dropDead b.code.size b (countUses b) b.tail

end Optimizer

end Rustarmic
