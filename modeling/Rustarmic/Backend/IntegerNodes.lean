import Rustarmic.Backend.BitCode
import Rustarmic.Backend.Terminals
import Rustarmic.Ir.EvalInteger
import Mathlib.Data.Option.Basic

/-!
# The nodes of an integer program

What a node of an integer program does: the nodes of `Armlet.dataStep`, those that count and reverse
bits, and the nodes without code.

* `Armlet.nodeStep` — what a node does.
* `flagSteps_nodeStep` — a branch may take its flags from the host behind these nodes.

The counts and reversals are not given a meaning here.  A node of that kind *is* the machine code
that `isel.rs` emits for it on the processor at hand (`oneSourceStep`), with whatever the registers
hold besides its operand, so that the steps depend on a `BitHost`; that the result does not, is
`nodeStep_oneSource`.

## What the steps leave alone

The backend fuses a comparison with the branch behind it: it takes the flags from the host's
register instead of the context.  That is right only if nothing in between changes the flags, and
the decision is made by operation (`opPreservesNzcv`).  So every step has to be looked at from the
other side: `Harmless` says that a node changes its own value at most, and the flags only if its
operation is listed as one that does.  It is proved for each kind of node, and `flagSteps_nodeStep`
collects the result in the form in which `Backend.Terminals` assumes it.
-/

set_option autoImplicit false

namespace Rustarmic

/-- What the code of bits meets: the processor, and what the registers hold besides. -/
structure BitHost where
  host : BitCode.Host
  scratch : BitCode.Cpu

namespace Armlet

variable (H : BitHost) (a : Armlet) (f : Frame) (n : ValueRef)

/-- The operand is loaded to `rax`, and as much of `rax` as the code works on is stored. -/
def oneSourceStep : Option Frame :=
  (BitCode.emitOneSource H.host a.op a.ty).map fun p =>
    let c := BitCode.run H.host p.2 (H.scratch.setImm .rax (a.arg f 0).lo64)
    f.define n ⟨a.ty, (c.get p.1 .rax).setWidth 128⟩

/-- The operations without code. -/
def isIdle (op : Op) : Bool :=
  op.isTerminator || match op with
    | .void | .hint | .memoryBarrier => true
    | _ => false

def idleStep : Option Frame := if isIdle a.op then some f else none

/-- What node `n` does. -/
def nodeStep (n : ValueRef) (a : Armlet) (f : Frame) : Option Frame :=
  a.dataStep n f <|> oneSourceStep H a f n <|> a.idleStep f

variable {H a f n}

theorem nodeStep_of_dataStep {f' : Frame} (h : a.dataStep n f = some f') : nodeStep H n a f = some f' := by
  rw [nodeStep, h]
  rfl

theorem ignoresLinks_nodeStep : IgnoresLinks (nodeStep H) := fun _ _ _ => rfl

/-- **The code of bits is what the node is for.** -/
theorem nodeStep_oneSource {size : RegSize} {code : List BitCode.Instr}
    (h : BitCode.emitOneSource H.host a.op a.ty = some (size, code)) :
    nodeStep H n a f = some (f.define n
      ⟨a.ty, (BitCode.oneSource a.op size ((a.arg f 0).lo64.setWidth size.bits)).setWidth 128⟩) := by
  have hnone : a.dataStep n f = none := by
    cases a with
    | mk op ty flags prev next args imm pc =>
      unfold BitCode.emitOneSource at h
      split at h
      case h_10 => cases h
      all_goals
        rename_i hop
        obtain rfl := hop
        rfl
  rw [nodeStep, hnone]
  show (oneSourceStep H a f n <|> a.idleStep f) = _
  rw [oneSourceStep, h, Option.map_some]
  dsimp only
  rw [BitCode.run_emitOneSource H.host h, BitCode.get_setImm, if_pos rfl]
  rfl

theorem nodeStep_idle (h : isIdle a.op = true) : nodeStep H n a f = some f := by
  cases a with
  | mk op ty flags prev next args imm pc =>
    unfold isIdle Op.isTerminator at h
    split at h
    case h_14 =>
      rw [Bool.false_or] at h
      split at h
      case h_4 => cases h
      all_goals
        rename_i hop
        obtain rfl := hop
        rfl
    all_goals
      rename_i hop
      obtain rfl := hop
      rfl

/-! ## What the steps leave alone -/

/-- A node changes its own value at most, and the flags only if that is what it is for. -/
structure Harmless (n : ValueRef) (op : Op) (f f' : Frame) : Prop where
  value : ∀ r, r ≠ n → f'.value r = f.value r
  nzcv : opPreservesNzcv op = true → f'.machine.nzcv = f.machine.nzcv

variable {op : Op} {f' : Frame}

theorem harmless_define (v : Value) : Harmless n op f (f.define n v) where
  value r hr := by rw [Frame.value_define, if_neg hr]
  nzcv _ := rfl

theorem harmless_machine {m : Machine} (h : m.nzcv = f.machine.nzcv) :
    Harmless n op f { f with machine := m } where
  value _ _ := rfl
  nzcv _ := h

theorem harmless_load {m : Machine} (v : Value) (h : m.nzcv = f.machine.nzcv) :
    Harmless n op f (Frame.define { f with machine := m } n v) where
  value r hr := by rw [Frame.value_define, if_neg hr]
  nzcv _ := h

theorem harmless_flags {m : Machine} (v : Value) (h : opPreservesNzcv op = false) :
    Harmless n op f (Frame.define { f with machine := m } n v) where
  value r hr := by rw [Frame.value_define, if_neg hr]
  nzcv hp := by rw [h] at hp; cases hp

theorem harmless_setFlags {m : Machine} (h : opPreservesNzcv op = false) :
    Harmless n op f { f with machine := m } where
  value _ _ := rfl
  nzcv hp := by rw [h] at hp; cases hp

theorem nzcv_writeX (m : Machine) (reg : Nat) (x : U64) : (m.writeX reg x).nzcv = m.nzcv := by
  rw [Machine.writeX]
  split <;> rfl

theorem harmless_registerStep (h : a.registerStep f n = some f') : Harmless n a.op f f' := by
  unfold registerStep at h
  dsimp only at h
  split at h
  case h_5 | h_6 =>
    cases h
    exact harmless_machine (nzcv_writeX ..)
  case h_10 hop =>
    cases h
    exact harmless_setFlags (by rw [hop]; decide)
  case h_11 =>
    split at h <;> cases h <;> exact harmless_define _
  case h_12 =>
    split at h <;> cases h <;> exact harmless_machine rfl
  all_goals cases h <;> first | exact harmless_define _ | exact harmless_machine rfl

theorem harmless_flagStep (h : a.flagStep f n = some f') : Harmless n a.op f f' := by
  unfold flagStep at h
  dsimp only at h
  split at h
  case h_7 => cases h
  case h_5 hop | h_6 hop =>
    cases h
    exact harmless_setFlags (by rw [hop]; decide)
  all_goals
    rename_i hop
    cases h
    exact harmless_flags _ (by rw [hop]; decide)

theorem harmless_memoryStep (h : a.memoryStep f n = some f') : Harmless n a.op f f' := by
  obtain ⟨p, -, rfl⟩ := Option.map_eq_some_iff.mp h
  split
  · exact harmless_machine rfl
  · exact harmless_load _ rfl

theorem harmless_scalarStep (h : a.scalarStep f n = some f') : Harmless n a.op f f' := by
  obtain ⟨r, -, rfl⟩ := Option.map_eq_some_iff.mp h
  exact harmless_define _

theorem harmless_integerStep (h : a.integerStep f n = some f') : Harmless n a.op f f' := by
  unfold integerStep at h
  split at h
  case h_7 hop | h_8 hop | h_9 hop | h_10 hop =>
    cases h
    exact harmless_flags _ (by rw [hop]; decide)
  all_goals cases h <;> exact harmless_define _

theorem harmless_oneSourceStep (h : oneSourceStep H a f n = some f') : Harmless n a.op f f' := by
  obtain ⟨p, -, rfl⟩ := Option.map_eq_some_iff.mp h
  exact harmless_define _

theorem harmless_idleStep (h : a.idleStep f = some f') : Harmless n a.op f f' := by
  obtain ⟨-, ⟨⟩⟩ := Option.ite_none_right_eq_some.mp h
  exact harmless_machine rfl

theorem harmless_step (h : a.step n f = some f') : Harmless n a.op f f' := by
  simp only [step, Option.orElse_eq_some] at h
  rcases h with h | ⟨-, h | ⟨-, h | ⟨-, h⟩⟩⟩
  · exact harmless_registerStep h
  · exact harmless_flagStep h
  · exact harmless_memoryStep h
  · exact harmless_scalarStep h

theorem harmless_nodeStep (h : nodeStep H n a f = some f') : Harmless n a.op f f' := by
  simp only [nodeStep, dataStep, Option.orElse_eq_some] at h
  rcases h with (h | ⟨-, h⟩) | ⟨-, h | ⟨-, h⟩⟩
  · exact harmless_step h
  · exact harmless_integerStep h
  · exact harmless_oneSourceStep h
  · exact harmless_idleStep h

/-- A comparison writes the flags it is for. -/
theorem nzcv_of_producer (h : nodeStep H n a f = some f') (hop : isFlagProducer a.op = true) :
    f'.machine.nzcv = producedFlags a f := by
  cases a with
  | mk op ty flags prev next args imm pc =>
    rcases isFlagProducer_iff.mp hop with rfl | rfl | rfl | rfl | rfl | rfl <;> cases h <;> rfl

/-- **Behind these nodes a branch may take its flags from the host.** -/
theorem flagSteps_nodeStep : FlagSteps (nodeStep H) where
  value _ _ _ _ h := (harmless_nodeStep h).value
  produces _ _ _ _ h hop := nzcv_of_producer h hop
  preserves _ _ _ _ h := (harmless_nodeStep h).nzcv

/-- A processor without extensions. -/
def plainHost : BitHost := ⟨⟨false, false, 0, 0⟩, ⟨fun _ => 0, false, fun _ => 0⟩⟩

/-- `cmp x0, x1; b.lt 0x2000`. -/
def compareAndBranch : Block :=
  { (Block.new 0x1000).pushAll [(Armlet.new .getX .u64).withImm 0, (Armlet.new .getX .u64).withImm 1,
      (Armlet.new .subsFlags64 .void).withArgs [1, 2], Armlet.new .getNzcv .nzcv] with
    terminal := .conditionalBranch 4 11 0x2000 0x1008 }

/-- Every register is negative but the second, which is zero. -/
def lessFrame : Frame :=
  ⟨⟨fun i => if i = 1 then 0 else BitVec.allOnes 64, 0, 0, fun _ => 0, fun _ => 0, []⟩, fun _ => ⟨.void, 0⟩⟩

theorem fused_agrees_lt : ∃ f', compareAndBranch.run (nodeStep plainHost) lessFrame = some f' ∧
    fusedTaken compareAndBranch f' = some true ∧
    compareAndBranch.terminal.control (compareAndBranch.exitEnv f') compareAndBranch.endPc =
      compareAndBranch.terminal.control f'.exitEnv compareAndBranch.endPc := by
  have hpushed : ((Block.new 0x1000).pushAll _).Linked [1, 2, 3, 4] :=
    (Block.Linked.new 0x1000).pushAll (by decide) [(Armlet.new .getX .u64).withImm 0,
      (Armlet.new .getX .u64).withImm 1, (Armlet.new .subsFlags64 .void).withArgs [1, 2],
      Armlet.new .getNzcv .nzcv]
  have hlinked : compareAndBranch.Linked [1, 2, 3, 4] := hpushed.of_nodes rfl
  have hstep : FlagSteps (nodeStep plainHost) := flagSteps_nodeStep
  exact ⟨_, rfl, rfl, fused_agrees hstep hlinked (by decide) rfl⟩

end Armlet

end Rustarmic
