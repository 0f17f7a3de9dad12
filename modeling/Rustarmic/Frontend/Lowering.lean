import Rustarmic.Frontend.Translator
import Rustarmic.Ir.Append

/-!
# Translating one instruction

`Lowering` is what `translateInstruction` calls: the decoder, the per-family translators and the
plan of the out-of-line helpers.  A family translator pushes nodes whose arguments are nodes of the
same instruction, and a translator that ends the block sets the terminal; both are in the type of
its result, an `Emission`.

* `Lowering.translateInstruction` is the function of the source, with its rollback: an instruction
  without an inline lowering that the helpers implement becomes one helper call.
* `Lowering.emission` is what is left of it in the end, wherever the block stands
  (`translateInstruction_eq`).

A translator in the source is a function on the emitter, and could do anything to the block.  What
they all do is to push nodes at its end and, at most, set the terminal.  An `Emission` is exactly
that much, as data: the nodes with the values of the instruction counted from one, and how it
ended.  What is proved of the loop with any `Lowering` holds of the translators that are modelled,
since those are shown to have an emission, and it does not depend on how many there are.

Nodes of a translator that gives up are in its emission, too.  They are pushed and taken back again,
and taking back has to restore the links of the node before them; that is the rollback of the
source, and `Linked.rollback_pushAll_eq` says that it leaves nothing behind.
-/

set_option autoImplicit false

namespace Rustarmic

/-! ## What an instruction emits -/

namespace Terminal

/-- Change the value a terminal reads. -/
def mapValue (f : ValueRef → ValueRef) : Terminal → Terminal
  | conditionalBranch condNzcv condCode takenPc notTakenPc =>
    conditionalBranch (f condNzcv) condCode takenPc notTakenPc
  | compareBranchZero value inverse is64 takenPc notTakenPc =>
    compareBranchZero (f value) inverse is64 takenPc notTakenPc
  | testBranchBit value bit inverse takenPc notTakenPc =>
    testBranchBit (f value) bit inverse takenPc notTakenPc
  | indirectBranch target link isRet => indirectBranch (f target) link isRet
  | t => t

theorem mapValue_mapValue (f g : ValueRef → ValueRef) (t : Terminal) :
    (t.mapValue f).mapValue g = t.mapValue (g ∘ f) := by
  cases t <;> rfl

end Terminal

/-- How a translator ends: with an error, going on, or with a terminal. -/
inductive Outcome where
  | error (e : Error)
  | continues
  | terminator (t : Terminal)
  deriving DecidableEq, Repr

def Outcome.result : Outcome → Except Error InstStatus
  | error e => .error e
  | continues => .ok .continues
  | terminator _ => .ok .terminator

/-- The nodes an instruction pushes, before it fails if it does, and how it ends.  The value `k` is
the `k`-th node of the instruction. -/
structure Emission where
  nodes : List Armlet
  outcome : Outcome
  deriving DecidableEq, Repr

namespace Emission

/-- The `k`-th value of an instruction whose first node is `base`. -/
def valueAt (base k : ValueRef) : ValueRef := if k = ValueRef.none then ValueRef.none else base + k - 1

/-- The nodes as the emitter pushes them: at the end of the block, with the PC of the
instruction. -/
def placed (e : Emission) (base : ValueRef) (pc : U64) : List Armlet :=
  e.nodes.map fun a => { a.mapArgs (valueAt base) with pc }

/-- The block after the instruction. -/
def apply (e : Emission) (b : Block) (pc : U64) : Block :=
  let b' := b.pushAll (e.placed b.code.size pc)
  match e.outcome with
  | .terminator t => { b' with terminal := t.mapValue (valueAt b.code.size) }
  | _ => b'

end Emission

/-! ## The helper call -/

/-- A helper operand. -/
inductive Src where
  | v (r : U8)
  | x (r : U8)
  | w (r : U8)
  deriving DecidableEq, Repr

/-- Where the helper result goes. -/
inductive Dst where
  | v (r : U8)
  | x (r : U8)
  | w (r : U8)
  deriving DecidableEq, Repr

/-- Operand slots: 0 = n, 1 = m, 2 = d (old value), 3 = a. -/
structure Plan where
  srcs : Vector (Option Src) 4
  dst : Dst
  deriving DecidableEq, Repr

namespace Plan

/-- Read an operand; register 31 reads as zero. -/
def readNode : Src → Armlet
  | .v r => (Armlet.new .getV .u128).withImm (r.setWidth 64)
  | .x r => if r.toNat = zrEncoding then (Armlet.new .constU64 .u64).withImm 0
    else (Armlet.new .getX .u64).withImm (r.setWidth 64)
  | .w r => if r.toNat = zrEncoding then (Armlet.new .constU32 .u32).withImm 0
    else (Armlet.new .getW .u32).withImm (r.setWidth 64)

/-- The reads, one node for each slot up to the last present one: slots are positional, and a
skipped one holds a constant the helper does not read. -/
def readNodes (plan : Plan) : List Armlet :=
  (plan.srcs.toList.zipIdx).foldl
    (fun nodes p => match p.1 with
      | none => nodes
      | some src => nodes ++
        List.replicate (p.2 - nodes.length) ((Armlet.new .constU32 .u32).withImm 0) ++ [readNode src])
    []

def resultTy : Dst → Ty
  | .v _ => .u128
  | .x _ => .u64
  | .w _ => .u32

/-- Write the result back; nothing is written to register 31. -/
def writeNodes (dst : Dst) (value : ValueRef) : List Armlet :=
  match dst with
  | .v r => [((Armlet.new .setV .void).withArgs [value]).withImm (r.setWidth 64)]
  | .x r => if r.toNat = zrEncoding then []
    else [((Armlet.new .setX .void).withArgs [value]).withImm (r.setWidth 64)]
  | .w r => if r.toNat = zrEncoding then []
    else [(((Armlet.new .setW .void).withArgs [value]).withImm (r.setWidth 64)).withFlags
      Armlet.flagWSized]

/-- The index of `interp::exec` among the helpers. -/
def interpHelper : U32 := 0

/-- `helper::translate`: read the operands, call the helper, write its result. -/
def emission (plan : Plan) (inst : U32) : Emission :=
  let reads := plan.readNodes
  let call := ((Armlet.new .callHelper (resultTy plan.dst)).withArgs
    (List.range' 1 reads.length)).withImm (inst.setWidth 64 <<< 32 ||| interpHelper.setWidth 64)
  { nodes := reads ++ [call] ++ writeNodes plan.dst (reads.length + 1), outcome := .continues }

end Plan

/-! ## The instruction -/

/-- What the translation of an instruction calls. -/
structure Lowering where
  /-- Whether the decoder knows the word. -/
  decodes : U32 → Bool
  /-- The translator of the instruction's family, at a PC. -/
  lower : U64 → U32 → Emission
  plan : U32 → Option Plan

namespace Lowering

/-- `translate_instruction`, at the end of a block. -/
def translateInstruction (L : Lowering) (b : Block) (pc : U64) (inst : U32) :
    Block × Except Error InstStatus :=
  if ¬ L.decodes inst then (b, .error (.decode pc inst))
  else
    let mark := b.mark
    let e := L.lower pc inst
    let b := e.apply b pc
    match e.outcome.result with
    | .error (.unsupported upc opcode) =>
      match L.plan inst with
      | some plan =>
        let b := b.rollback mark
        ((plan.emission inst).apply b pc, (plan.emission inst).outcome.result)
      | none =>
        -- The generated families use opcode 0 for their catch-all arm.
        (b, .error (.unsupported upc (if opcode = 0 then inst else opcode)))
    | r => (b, r)

/-- What is left of an instruction in the end. -/
def emission (L : Lowering) (pc : U64) (inst : U32) : Emission :=
  if ¬ L.decodes inst then { nodes := [], outcome := .error (.decode pc inst) }
  else
    let e := L.lower pc inst
    match e.outcome with
    | .error (.unsupported upc opcode) =>
      match L.plan inst with
      | some plan => plan.emission inst
      | none =>
        { e with outcome := .error (.unsupported upc (if opcode = 0 then inst else opcode)) }
    | _ => e

end Lowering

/-! ## The two agree -/

namespace Block

variable {b : Block} {l : List ValueRef}

theorem rollback_frame (b : Block) (m : Nat × Nat) :
    b.rollback m = b.withNodes (b.rollback m).nodes := by
  unfold rollback
  dsimp only
  split <;> rfl

/-- Rolling back restores the whole block. -/
theorem Linked.rollback_pushAll_eq (h : b.Linked l) (hpos : 0 < b.code.size) (as : List Armlet) :
    (b.pushAll as).rollback b.mark = b := by
  rw [rollback_frame, h.rollback_pushAll hpos, pushAll_frame, withNodes_withNodes, withNodes_nodes]

end Block

namespace Emission

variable {e : Emission} {b : Block} {pc : U64} {l : List ValueRef}

/-- An instruction pushes its nodes and sets at most the terminal. -/
theorem apply_eq (e : Emission) (b : Block) (pc : U64) :
    e.apply b pc = { b.pushAll (e.placed b.code.size pc) with
      terminal := match e.outcome with
        | .terminator t => t.mapValue (valueAt b.code.size)
        | _ => b.terminal } := by
  have hterm : (b.pushAll (e.placed b.code.size pc)).terminal = b.terminal := by
    rw [Block.pushAll_frame]
    rfl
  unfold apply
  dsimp only
  cases e.outcome with
  | terminator t => rfl
  | error err => rw [← hterm]
  | continues => rw [← hterm]

theorem apply_nodes (e : Emission) (b : Block) (pc : U64) :
    (e.apply b pc).nodes = (b.pushAll (e.placed b.code.size pc)).nodes := by
  rw [apply_eq]
  rfl

theorem apply_of_error {err : Error} (h : e.outcome = .error err) :
    e.apply b pc = b.pushAll (e.placed b.code.size pc) := by
  unfold apply
  rw [h]

@[simp] theorem apply_ranges : (e.apply b pc).ranges = b.ranges := by
  rw [apply_eq, Block.pushAll_frame]
  rfl

@[simp] theorem apply_cycles : (e.apply b pc).cycles = b.cycles := by
  rw [apply_eq, Block.pushAll_frame]
  rfl

@[simp] theorem apply_startPc : (e.apply b pc).startPc = b.startPc := by
  rw [apply_eq, Block.pushAll_frame]
  rfl

end Emission

namespace Lowering

variable {b : Block} {l : List ValueRef}

/-- **What is left of an instruction does not depend on where it stands.** -/
theorem translateInstruction_eq (L : Lowering) (h : b.Linked l) (hpos : 0 < b.code.size) (pc : U64)
    (inst : U32) : L.translateInstruction b pc inst =
      ((L.emission pc inst).apply b pc, (L.emission pc inst).outcome.result) := by
  unfold translateInstruction emission
  by_cases hd : L.decodes inst
  · simp only [hd, not_true_eq_false, if_false]
    generalize L.lower pc inst = e
    cases ho : e.outcome with
    | continues => simp only [Outcome.result, ho]
    | terminator t => simp only [Outcome.result, ho]
    | error err =>
      cases err with
      | unsupported upc opcode =>
        cases hp : L.plan inst with
        | none =>
          simp only [Outcome.result]
          rw [Emission.apply_of_error ho]
          rfl
        | some plan =>
          simp only [Outcome.result]
          rw [Emission.apply_of_error ho, h.rollback_pushAll_eq hpos]
      | _ => simp only [Outcome.result, ho]
  · simp only [hd]
    rfl

theorem translateInstruction_frame (L : Lowering) (b : Block) (pc : U64) (inst : U32) :
    (L.translateInstruction b pc inst).1.ranges = b.ranges ∧
      (L.translateInstruction b pc inst).1.cycles = b.cycles := by
  have hroll : ∀ (b : Block) (m : Nat × Nat), (b.rollback m).ranges = b.ranges ∧
      (b.rollback m).cycles = b.cycles := by
    intro b m
    rw [Block.rollback_frame]
    exact ⟨rfl, rfl⟩
  unfold translateInstruction
  split
  · exact ⟨rfl, rfl⟩
  · dsimp only
    split
    · split
      · simp [hroll]
      · simp
    · simp

/-- The translator of single instructions the loop calls. -/
def translator (L : Lowering) : InstTranslator where
  translateInstruction := L.translateInstruction
  ranges_eq b pc inst := (L.translateInstruction_frame b pc inst).1
  cycles_eq b pc inst := (L.translateInstruction_frame b pc inst).2

end Lowering

/-! ## Direct branches -/

/-- `IrEmitter::branch`: a linking branch writes the return address to X30 first. -/
def branchEmission (pc targetPc : U64) (link : Bool) : Emission where
  nodes := (if link then
      [(Armlet.new .constU64 .u64).withImm (pc + 4),
        ((Armlet.new .setX .void).withArgs [1]).withImm 30]
    else []) ++ [(Armlet.new (if link then .branchLink else .branch) .void).withImm targetPc]
  outcome := .terminator (.directBranch targetPc link)

/-- The guest PC a `B` or `BL` word at a PC branches to. -/
def branchTarget (pc : U64) (inst : U32) : U64 :=
  pc + ((inst.extractLsb' 0 26).signExtend 64 <<< 2)

/-- The hints, `B` and `BL`: enough of the instruction set for programs that only jump around. -/
def Lowering.branches : Lowering where
  decodes inst := inst.extractLsb' 26 5 == 0b00101 || inst &&& 0xFFFFF01F#32 == 0xD503201F
  lower pc inst :=
    if inst.extractLsb' 26 5 = 0b00101 then
      branchEmission pc (branchTarget pc inst) (inst.getLsbD 31)
    else { nodes := [Armlet.new .hint .void], outcome := .continues }
  plan _ := none

end Rustarmic
