import Rustarmic.Arch
import Rustarmic.Ir.Opcode

/-!
# Armlets and blocks

A block is a vector of IR nodes (*armlets*) threaded by a doubly linked list.  The vector only
grows; the list decides which nodes are live and in which order they run.  Index `0` holds a dummy
node, so that `0` can mean "no value" in an argument slot (`ValueRef.none`) and "no neighbour" in a
link (`linkNone`).

`Block.push` appends a node, `Block.insertBefore` adds one in front of another, `Block.unlink`
takes one out and clears it, and `Block.mark` / `Block.rollback` drop everything appended since a
mark.
-/

set_option autoImplicit false

namespace Rustarmic

/-- The index of the node that computes a value. -/
abbrev ValueRef := Nat

namespace ValueRef

/-- An empty argument slot. -/
abbrev none : ValueRef := 0

abbrev isNone (v : ValueRef) : Bool := v == 0

abbrev isSome (v : ValueRef) : Bool := v != 0

end ValueRef

/-- The type of the value a node computes. -/
inductive Ty where
  | void | u1 | u8 | u16 | u32 | u64 | u128 | nzcv
  deriving DecidableEq, Repr

namespace Ty

def bits : Ty → Nat
  | void => 0
  | u1 => 1
  | u8 => 8
  | u16 => 16
  | u32 => 32
  | u64 => 64
  | u128 => 128
  | nzcv => 4

end Ty

/-- The absent link. -/
abbrev linkNone : Nat := 0

/-- One IR node.  `flags` is the `ArmletFlags` byte, `pc` the guest instruction it came from. -/
structure Armlet where
  op : Op
  ty : Ty
  flags : U8
  prev : Nat
  next : Nat
  args : Vector ValueRef 4
  imm : U64
  pc : U64
  deriving DecidableEq, Repr

namespace Armlet

def flagNzcvLive : U8 := 1#8 <<< 0
def flagWSized : U8 := 1#8 <<< 1
def flagGuestBound : U8 := 1#8 <<< 2
def flagFolded : U8 := 1#8 <<< 3

def noArgs : Vector ValueRef 4 := Vector.replicate 4 ValueRef.none

/-- A node of the given operation and type with everything else empty. -/
def new (op : Op) (ty : Ty) : Armlet :=
  { op, ty, flags := 0, prev := linkNone, next := linkNone, args := noArgs, imm := 0, pc := 0 }

instance : Inhabited Armlet := ⟨new .void .void⟩

/-- Fill the first argument slots from a list. -/
def withArgs (a : Armlet) (l : List ValueRef) : Armlet :=
  { a with args := #v[l.getD 0 a.args[0], l.getD 1 a.args[1], l.getD 2 a.args[2],
      l.getD 3 a.args[3]] }

def withImm (a : Armlet) (imm : U64) : Armlet := { a with imm }

def withFlags (a : Armlet) (flags : U8) : Armlet := { a with flags }

def isEliminated (a : Armlet) : Bool := a.op == .void

/-- Turn the node into a copy of `src`, keeping its type, its links and its guest PC. -/
def becomeIdentity (a : Armlet) (src : ValueRef) : Armlet :=
  { (new .identity a.ty).withArgs [src] with prev := a.prev, next := a.next, pc := a.pc }

/-- Turn the node into a 32-bit constant, keeping its links and its guest PC. -/
def becomeConstU32 (a : Armlet) (v : U32) : Armlet :=
  { (new .constU32 .u32).withImm (v.setWidth 64) with
    flags := flagFolded, prev := a.prev, next := a.next, pc := a.pc }

/-- Turn the node into a 64-bit constant, keeping its links and its guest PC. -/
def becomeConstU64 (a : Armlet) (v : U64) : Armlet :=
  { (new .constU64 .u64).withImm v with
    flags := flagFolded, prev := a.prev, next := a.next, pc := a.pc }

end Armlet

/-- The exception a block ends with. -/
inductive ExceptionKind where
  | svc | brk | hvc | unknownInst
  deriving DecidableEq, Repr

/-- How a block ends. -/
inductive Terminal where
  | invalid
  | linkBlock (nextPc : U64)
  | directBranch (targetPc : U64) (link : Bool)
  | conditionalBranch (condNzcv : ValueRef) (condCode : U8) (takenPc notTakenPc : U64)
  | compareBranchZero (value : ValueRef) (inverse is64 : Bool) (takenPc notTakenPc : U64)
  | testBranchBit (value : ValueRef) (bit : U8) (inverse : Bool) (takenPc notTakenPc : U64)
  | indirectBranch (target : ValueRef) (link isRet : Bool)
  | exception (kind : ExceptionKind) (imm : U32)
  deriving DecidableEq, Repr

/-- A translated block.  The four settings the JIT copies in from its configuration before it
emits code (`use_fastmem`, the two fastmem widths, `link_indirect`) are left to the functions that
read them. -/
structure Block where
  terminal : Terminal
  code : Array Armlet
  startPc : U64
  endPc : U64
  head : Nat
  tail : Nat
  cycles : U32
  /-- Guest ranges `[start, end)` the block was translated from. -/
  ranges : List (U64 × U64)
  deriving DecidableEq, Repr

namespace Block

def maxNodes : Nat := 65536

/-- An empty block: the dummy node and no live list. -/
def new (startPc : U64) : Block :=
  { terminal := .invalid, code := #[Armlet.new .void .void], startPc, endPc := startPc,
    head := linkNone, tail := linkNone, cycles := 0, ranges := [] }

/-- `reset` leaves the block as `new` makes it. -/
def reset (_b : Block) (startPc : U64) : Block := new startPc

/-- The node at `v`. -/
def get (b : Block) (v : ValueRef) : Armlet := b.code.getD v default

/-- The block with the node at `v` replaced. -/
def set (b : Block) (v : ValueRef) (a : Armlet) : Block :=
  { b with code := b.code.setIfInBounds v a }

/-- Snapshot of the append position, for `rollback`. -/
def mark (b : Block) : Nat × Nat := (b.code.size, b.tail)

/-- Change the `next` link of node `v`, or the head when there is no such node. -/
def linkNext (b : Block) (v n : Nat) : Block :=
  if v ≠ linkNone then b.set v { b.get v with next := n } else { b with head := n }

/-- Change the `prev` link of node `v`, or the tail when there is no such node. -/
def linkPrev (b : Block) (v p : Nat) : Block :=
  if v ≠ linkNone then b.set v { b.get v with prev := p } else { b with tail := p }

/-- Drop every node appended after the mark was taken. -/
def rollback (b : Block) (m : Nat × Nat) : Block :=
  let b := { b with code := b.code.take m.1, tail := m.2 }
  if m.2 = linkNone then { b with head := linkNone }
  else b.set m.2 { b.get m.2 with next := linkNone }

/-- Append a node to the vector and to the live list. -/
def push (b : Block) (a : Armlet) : Block × ValueRef :=
  let idx := b.code.size
  let b' := { b with code := b.code.push { a with prev := b.tail, next := linkNone } }
  ({ b'.linkNext b.tail idx with tail := idx }, idx)

/-- Append nodes one after another. -/
def pushAll (b : Block) (l : List Armlet) : Block := l.foldl (fun b a => (b.push a).1) b

/-- Append a node to the vector and put it in front of `before` in the live list. -/
def insertBefore (b : Block) (before : ValueRef) (a : Armlet) : Block × ValueRef :=
  let idx := b.code.size
  let prev := (b.get before).prev
  let b' := { b with code := b.code.push { a with prev, next := before } }
  let b' := b'.linkNext prev idx
  (b'.set before { b'.get before with prev := idx }, idx)

/-- Take a node out of the live list and clear it. -/
def unlink (b : Block) (v : ValueRef) : Block :=
  let prev := (b.get v).prev
  let next := (b.get v).next
  let b' := (b.linkNext prev next).linkPrev next prev
  b'.set v { b'.get v with prev := linkNone, next := linkNone, op := .void, args := Armlet.noArgs }

/-- The first live node, if any. -/
def headVr (b : Block) : Option ValueRef := if b.head ≠ linkNone then some b.head else none

/-- The last live node, if any. -/
def tailVr (b : Block) : Option ValueRef := if b.tail ≠ linkNone then some b.tail else none

def nextOf (b : Block) (v : ValueRef) : Option ValueRef :=
  if (b.get v).next ≠ linkNone then some (b.get v).next else none

/-- `iter_live` from `v` on, for at most as many nodes as there are. -/
def walkFrom (b : Block) : Nat → ValueRef → List ValueRef
  | 0, _ => []
  | n + 1, v => if v = linkNone then [] else v :: walkFrom b n (b.get v).next

/-- The live nodes, from the head along the `next` links. -/
def iterLive (b : Block) : List ValueRef := b.walkFrom b.code.size b.head

def prevOf (b : Block) (v : ValueRef) : Option ValueRef :=
  if (b.get v).prev ≠ linkNone then some (b.get v).prev else none

end Block

end Rustarmic
