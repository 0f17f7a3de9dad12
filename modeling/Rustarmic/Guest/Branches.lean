import Rustarmic.Guest.Bitfield
import Rustarmic.Guest.DataProcessing
import Rustarmic.Guest.Run

/-!
# Moves and branches as the architecture defines them

The pseudocode of the manual for the moves of immediates, for ADR and ADRP, and for the instructions
that end a block.  These definitions are what the translators are compared with, so they are written
from the manual and know nothing of nodes, terminals or immediates that have been shifted in
advance.

* `moveWide`, `address` — registers from immediates and from the PC.
* `Branch.exec` — branches and exceptions: what they write, and where they lead.

A branch has two effects, a link register that is written and a place where it leads, and `exec`
returns both.  Their order matters in one instruction: `BLR X30` branches to the old contents of
X30, since the manual reads the target before it writes the link.  The place is a `Control`, which
is another PC or an exception, so the conditional branches do not differ from the others in what
comes back: a condition that does not hold leads to the next instruction.
-/

set_option autoImplicit false

namespace Rustarmic

namespace Guest

open Lanes

variable {N : Nat}

inductive MoveWideOp where
  | n | z | k
  deriving DecidableEq, Repr

/-- MOVN, MOVZ and MOVK: sixteen bits from `16 * hw` on are the immediate, the others zero or what
the register holds; MOVN inverts the result. -/
def moveWide (N : Nat) (op : MoveWideOp) (hw : Nat) (imm16 : BitVec 16) (d : Nat) (m : Machine) : Machine :=
  let before : BitVec N := if op = .k then X N m d else 0
  let result : BitVec N := ofLanes N 16 (Function.update (lane 16 before) hw imm16)
  setX m d (if op = .n then ~~~result else result)

/-- ADR, and ADRP, which counts in pages from the page of the PC. -/
def address (page : Bool) (imm : BitVec 21) (d : Nat) (pc : U64) (m : Machine) : Machine :=
  if page then m.writeX d ((pc &&& ~~~0xFFF#64) + (imm ++ 0#12).signExtend 64)
  else m.writeX d (pc + imm.signExtend 64)

/-- `SignExtend(imm:'00', 64)`. -/
def branchOffset {len : Nat} (imm : BitVec len) : U64 := (imm ++ 0#2).signExtend 64

/-- A branch or an exception. -/
inductive Branch where
  | immediate (link : Bool) (offset : U64)
  | register (link : Bool) (n : Nat)
  | conditional (cond : Nat) (offset : U64)
  | compare (N : Nat) (isZero : Bool) (t : Nat) (offset : U64)
  | test (bit : Nat) (value : Bool) (t : Nat) (offset : U64)
  | exception (kind : ExceptionKind) (imm : U32)
  deriving DecidableEq, Repr

/-- Branch if a condition holds, or go on. -/
def branchIf (taken : Bool) (pc offset : U64) : Control := .goto (if taken then pc + offset else pc + 4)

/-- What a branch at an address does.  The target of a register branch is read before the link is
written. -/
def Branch.exec (pc : U64) (m : Machine) : Branch → Machine × Control
  | immediate link offset => (if link then m.writeX 30 (pc + 4) else m, .goto (pc + offset))
  | register link n => (if link then m.writeX 30 (pc + 4) else m, .goto (m.readX n))
  | conditional cond offset => (m, branchIf (conditionHolds cond m.nzcv) pc offset)
  | compare N isZero t offset => (m, branchIf ((X N m t == 0) == isZero) pc offset)
  | test bit value t offset => (m, branchIf ((m.readX t).getLsbD bit == value) pc offset)
  | exception kind imm => (m, .exception kind imm (if kind = .brk then pc else pc + 4))

end Guest

end Rustarmic
