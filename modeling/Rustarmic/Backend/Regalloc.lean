import Mathlib.Data.List.Sort
import Mathlib.Logic.Function.Basic
import Rustarmic.Backend.Clobbers
import Rustarmic.Ir.Block
import Rustarmic.Lib.LinearScan

/-!
# Register allocation

Every value of a block gets one location for its whole life: a register, a vector register used as
a spill slot, a stack slot, or nothing but its constant.

* `computeLiveRangesWith` numbers the live nodes in list order and gives each value the range of
  positions from its definition to its last use.
* `linearScan` visits the values in the order of their definitions.  A value is handed the location
  of its first operand when it is an identity or a two-address operation and the operand dies at
  it (`inherit`); otherwise it takes a free register that nothing inside its range clobbers, else a
  free vector register of that kind, else a fresh slot (`place`).
* `Allocation.Sound` says what is wanted of the result.

Vectors indexed by a node are functions here.  The clobber tables are lists over the live nodes.
-/

set_option autoImplicit false

namespace Rustarmic

open LinearScan

/-! ## Live ranges -/

inductive Loc where
  | reg (r : Nat)
  | xmm (x : Nat)
  /-- Distance of the slot below the frame base. -/
  | spill (off : Nat)
  | imm (v : U64)
  | none
  deriving DecidableEq, Repr

structure LiveRange where
  start : U16
  count : U16
  deriving DecidableEq, Repr

namespace LiveRange

def dead : LiveRange := ⟨0, 0⟩

def point (idx : Nat) : LiveRange := ⟨BitVec.ofNat 16 idx, 1⟩

def isDead (r : LiveRange) : Bool := r.count == 0

def first (r : LiveRange) : Nat := r.start.toNat

/-- The last position of the range, `end` in the source. -/
def last (r : LiveRange) : Nat := r.start.toNat + (r.count.toNat - 1)

def extendTo (r : LiveRange) (newEnd : Nat) : LiveRange :=
  let span := newEnd - r.start.toNat + 1
  if r.count.toNat < span then { r with count := BitVec.ofNat 16 (min span 0xFFFF) } else r

end LiveRange

/-- The ranges of all nodes. -/
abbrev Ranges := Nat → LiveRange

/-- Number the live nodes from position `t` on; every one gets the range of its own position. -/
def numberFrom : Nat → List ValueRef → (Nat → Nat) × Ranges → (Nat → Nat) × Ranges
  | _, [], acc => acc
  | t, v :: live, (pos, ranges) =>
    numberFrom (t + 1) live
      (Function.update pos v t, Function.update ranges v (LiveRange.point t))

/-- Keep the value `v` live up to `newEnd`. -/
def extendUse (n : Nat) (newEnd : Nat) (ranges : Ranges) (v : ValueRef) : Ranges :=
  if v.isSome && v < n && !(ranges v).isDead && (ranges v).last < newEnd then
    Function.update ranges v ((ranges v).extendTo newEnd)
  else ranges

/-- The values the terminal reads. -/
def Terminal.uses : Terminal → List ValueRef
  | .conditionalBranch condNzcv _ _ _ => [condNzcv]
  | .compareBranchZero value _ _ _ _ => [value]
  | .testBranchBit value _ _ _ _ => [value]
  | .indirectBranch target _ _ => [target]
  | _ => []

def computeLiveRangesWith (b : Block) (terminalUses : List ValueRef) : Ranges :=
  let n := b.code.size
  let live := b.iterLive
  let (pos, ranges) := numberFrom 0 live (fun _ => 0, fun _ => LiveRange.dead)
  let lastLive := match b.tailVr with
    | some v => pos v
    | none => 0
  let ranges := (b.terminal.uses ++ terminalUses).foldl (extendUse n lastLive) ranges
  live.foldl (fun ranges v => (b.get v).args.toList.foldl (extendUse n (pos v)) ranges) ranges

/-! ## Linear scan -/

/-- `rbx`, `r12`, `r13`, `r14`. -/
def allocatableGprs : List Nat := [3, 12, 13, 14]

def spillXmms : List Nat := [6, 7, 8, 9, 10, 11, 12, 13, 14, 15]

/-- `1u16 << r`. -/
def regBit (r : Nat) : U16 := 1#16 <<< r

def spillMask : XmmMask := spillXmms.foldl (fun a r => a ||| regBit r) 0

def opPrefersTwoAddress : Op → Bool
  | .add32 | .add64 | .sub32 | .sub64 | .and32 | .and64 | .or32 | .or64 | .eor32 | .eor64
  | .mul32 | .mul64 => true
  | _ => false

/-- Where spill slots start: below the registers the thunk saves. -/
def savedSize : Nat := 40

structure Scan where
  locs : Nat → Loc
  spillCursor : Nat
  free : List Nat
  xmmFree : XmmMask
  active : List (Active Nat Nat)
  xmmActive : List (Active Nat Nat)

def allocSpillSlot (cursor : Nat) : Nat := (cursor + 7) / 8 * 8 + 8

def allocSpillSlot16 (cursor : Nat) : Nat := (cursor + 15) / 16 * 16 + 16

/-- What the operations strictly inside a range clobber. -/
def interiorMask (masks : List U16) (r : LiveRange) : U16 :=
  if r.isDead then 0
  else (List.range' (r.first + 1) (r.last - (r.first + 1))).foldl
    (fun mask i => mask ||| masks.getD i 0) 0

/-- `trailing_zeros` of a mask that is not zero. -/
def lowestBit (mask : U16) : Option Nat := (List.range 16).find? fun i => mask.getLsbD i

/-- Remove the last element with `p`. -/
def removeLast (p : Nat → Bool) (l : List Nat) : Option (Nat × List Nat) :=
  match l.reverse.find? p with
  | none => none
  | some r => some (r, (l.reverse.eraseP p).reverse)

/-- The parts of the scan that do not change: the block, its ranges and its clobber tables. -/
structure ScanInput where
  block : Block
  ranges : Ranges
  gprMasks : List GprMask
  xmmMasks : List XmmMask

namespace Scan

def setLoc (s : Scan) (i : Nat) (loc : Loc) : Scan :=
  { s with locs := Function.update s.locs i loc }

/-- Free what ends before `start`. -/
def expire (s : Scan) (start : Nat) : Scan :=
  { s with
    free := s.free ++ (s.active.filter fun a => a.1 < start).map (·.2.1)
    active := s.active.filter fun a => start ≤ a.1
    xmmFree := (s.xmmActive.filter fun a => a.1 < start).foldl (fun m a => m ||| regBit a.2.1)
      s.xmmFree
    xmmActive := s.xmmActive.filter fun a => start ≤ a.1 }

/-- Give a value the vector register `x`. -/
def takeXmm (s : Scan) (i last x : Nat) : Scan :=
  { s.setLoc i (.xmm x) with
    xmmFree := s.xmmFree &&& ~~~regBit x
    xmmActive := s.xmmActive ++ [(last, x, i)] }

def takeSlot (s : Scan) (i off : Nat) : Scan := { s.setLoc i (.spill off) with spillCursor := off }

/-- A vector register among `safe`, or a slot. -/
def takeSpill (s : Scan) (i last : Nat) (safe : XmmMask) (slot : Nat → Nat) : Scan :=
  match lowestBit (s.xmmFree &&& safe) with
  | some x => s.takeXmm i last x
  | none => s.takeSlot i (slot s.spillCursor)

/-- Hand over the entry of `src` in an active list. -/
def handOver (active : List (Active Nat Nat)) (last r src i : Nat) : List (Active Nat Nat) :=
  replaceFirst (fun a => a.2.1 = r && a.2.2 = src) (last, r, i) active

/-- The operand whose location the value `i` may be handed: it dies at `i`. -/
def dyingSource (inp : ScanInput) (i : Nat) : Option Nat :=
  let a := inp.block.get i
  if a.op = .identity || opPrefersTwoAddress a.op then
    let src := a.args.get 0
    if src.isSome && src < inp.block.code.size && !(inp.ranges src).isDead
        && (inp.ranges src).last = (inp.ranges i).first then some src
    else none
  else none

/-- Hand the value `i` the location of its dying operand: a register to any of these operations,
everything else to an identity only. -/
def inherit (inp : ScanInput) (s : Scan) (i : Nat) : Option Scan :=
  match dyingSource inp i with
  | none => none
  | some src =>
    match s.locs src with
    | .reg r =>
      some { s.setLoc i (.reg r) with
        active := handOver s.active (inp.ranges i).last r src i }
    | .xmm x =>
      if (inp.block.get i).op = .identity then
        some { s.setLoc i (.xmm x) with
          xmmActive := handOver s.xmmActive (inp.ranges i).last x src i }
      else none
    | loc => if (inp.block.get i).op = .identity then some (s.setLoc i loc) else none

/-- A free register that nothing inside the range clobbers, else a vector register, else a slot.
Whether other values are in registers makes no difference: both branches of the source spill the
new value. -/
def place (inp : ScanInput) (s : Scan) (i : Nat) : Scan :=
  let range := inp.ranges i
  let forbidden := interiorMask inp.gprMasks range
  match removeLast (fun r => !forbidden.getLsbD r) s.free with
  | some (r, free) =>
    { s.setLoc i (.reg r) with free, active := s.active ++ [(range.last, r, i)] }
  | none => s.takeSpill i range.last (~~~interiorMask inp.xmmMasks range) allocSpillSlot

/-- Give the value `i` its location. -/
def assign (inp : ScanInput) (s : Scan) (i : Nat) : Scan :=
  let a := inp.block.get i
  let range := inp.ranges i
  match a.op with
  | .constU32 => s.setLoc i (.imm (a.imm &&& 0xFFFFFFFF))
  | .constU64 => s.setLoc i (.imm a.imm)
  | _ =>
    if a.ty = .u128 then
      s.takeSpill i range.last (~~~interiorMask inp.xmmMasks range) allocSpillSlot16
    else (s.inherit inp i).getD (s.place inp i)

def step (inp : ScanInput) (s : Scan) (i : Nat) : Scan :=
  (s.expire (inp.ranges i).first).assign inp i

end Scan

structure Allocation where
  locs : Nat → Loc
  spillBytes : Nat
  usedXmms : XmmMask

/-- The clobber sets of a node. -/
def nodeClobbers (features : HostFeatures) (a : Armlet) : GprMask × XmmMask :=
  if a.isEliminated then (0, 0)
  else ((clobbersForOp features a.op).gpr, (clobbersForOp features a.op).xmm)

def scanInput (features : HostFeatures) (b : Block) (ranges : Ranges) : ScanInput where
  block := b
  ranges := ranges
  gprMasks := b.iterLive.map fun v => (nodeClobbers features (b.get v)).1
  xmmMasks := b.iterLive.map fun v => (nodeClobbers features (b.get v)).2

/-- The values in the order of their definitions. -/
def intervals (b : Block) (ranges : Ranges) : List Nat :=
  ((List.range b.code.size).filter fun i => !(ranges i).isDead && (b.get i).ty != .void)
    |>.insertionSort fun i j => (ranges i).start ≤ (ranges j).start

/-- The state the scan starts from. -/
def scanStart (pool : List Nat) : Scan :=
  ⟨fun _ => .none, savedSize, pool.reverse, spillMask, [], []⟩

def linearScan (features : HostFeatures) (b : Block) (ranges : Ranges) (pool : List Nat) :
    Allocation :=
  let s := (intervals b ranges).foldl (Scan.step (scanInput features b ranges)) (scanStart pool)
  ⟨s.locs, s.spillCursor - savedSize, spillMask &&& ~~~s.xmmFree⟩

end Rustarmic
