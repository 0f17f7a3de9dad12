import Rustarmic.Guest.Run
import Rustarmic.Ir.Execution
import Rustarmic.Jit.ExitValue

/-!
# The end of a block

Where a block leads is decided by the code of its terminal.  A conditional branch looks the flags up
in a table of conditions, or, behind a comparison whose flags nothing has changed since, compares
again and branches on the flags of the host.

* `Terminal.control` — where a block leads.
* `fusableFlagProducer`, `fusedTaken` — the comparison that is made again, and its decision.
* `FlagSteps` — what the decision asks of the nodes.
* `fused_agrees` — both decisions are the same.

Comparing again is cheaper than storing the flags of the guest and looking at them, and it is right
under two conditions.  The flags must still be those of that comparison, so that the source goes
through the nodes and forgets the comparison at each one that may write them.  And its operands must
still have the values they had, which is true of every value in a block: a node writes its own and
no other.  `Latest` is the invariant that says both, and it is kept node by node.

The branches of the host are not those of the guest.  After a subtraction the carry of the host is a
borrow; after a logical operation it is zero, and there are conditions the host has no branch for.
`fusedJccKind` is the table of the source, and `taken_eq` goes through it once.
-/

set_option autoImplicit false

namespace Rustarmic

/-- Where a terminal leads.  An exception returns behind the block, a breakpoint to itself. -/
def Terminal.control (env : ExitEnv) (endPc : U64) : Terminal → Control
  | .exception kind imm => .exception kind imm (kind.pcAfter endPc)
  | t => .goto ((t.target env endPc).getD endPc)

/-- What a terminal reads that looks the flags up. -/
def Frame.exitEnv (f : Frame) : ExitEnv where
  value v := (f.value v).lo64
  nzcv := f.machine.nzcv
  fused := none

/-! ## Comparisons that are made again -/

/-- The operations whose flags a branch may take from the host. -/
def isFlagProducer : Op → Bool
  | .addsFlags32 | .addsFlags64 | .subsFlags32 | .subsFlags64 | .logicFlags32 | .logicFlags64 => true
  | _ => false

def isLogicFlags : Op → Bool
  | .logicFlags32 | .logicFlags64 => true
  | _ => false

def isSubsFlags : Op → Bool
  | .subsFlags32 | .subsFlags64 => true
  | _ => false

/-- The operations that do not write the flags of the guest. -/
def opPreservesNzcv (op : Op) : Bool :=
  op.isPure || op.isTerminator || match op with
    | .void | .identity | .getX | .getW | .getSp | .getNzcv | .getPc | .getV | .setX | .setW | .setSp | .setV
    | .load8 | .load16 | .load32 | .load64 | .load128 | .loadS8 | .loadS16 | .loadS32
    | .store8 | .store16 | .store32 | .store64 | .store128
    | .loadEx8 | .loadEx16 | .loadEx32 | .loadEx64 | .loadEx128
    | .storeEx8 | .storeEx16 | .storeEx32 | .storeEx64 | .storeEx128
    | .atomicRmw8 | .atomicRmw16 | .atomicRmw32 | .atomicRmw64
    | .atomicCas8 | .atomicCas16 | .atomicCas32 | .atomicCas64 | .atomicCas128 => true
    | _ => false

inductive Jcc where
  | e | ne | ae | b | s | ns | o | no | a | be | ge | l | g | le
  deriving DecidableEq, Repr

/-- The branch of the host for a condition.  A logical operation leaves no carry, so that `b` is
never taken behind it, and `ae` always. -/
def fusedJccKind (op : Op) (cond : Cond) : Option Jcc :=
  if isLogicFlags op then
    match cond with
    | .eq => some .e
    | .ne => some .ne
    | .cs | .hi => some .b
    | .cc | .ls => some .ae
    | .mi => some .s
    | .pl => some .ns
    | .vs => some .o
    | .vc => some .no
    | .ge => some .ge
    | .lt => some .l
    | .gt => some .g
    | .le => some .le
    | .al | .nv => none
  else
    let isSub := isSubsFlags op
    match cond with
    | .eq => some .e
    | .ne => some .ne
    | .cs => some (if isSub then .ae else .b)
    | .cc => some (if isSub then .b else .ae)
    | .mi => some .s
    | .pl => some .ns
    | .vs => some .o
    | .vc => some .no
    | .hi => if isSub then some .a else none
    | .ls => if isSub then some .be else none
    | .ge => some .ge
    | .lt => some .l
    | .gt => some .g
    | .le => some .le
    | .al | .nv => none

/-- The last comparison, unless something wrote the flags behind it. -/
def latestProducer (producer : Option Armlet) (a : Armlet) : Option Armlet :=
  if isFlagProducer a.op then some a else if opPreservesNzcv a.op then producer else none

/-- The comparison that the branch makes again. -/
def fusableFlagProducer (b : Block) : Option Armlet :=
  match b.terminal with
  | .conditionalBranch _ condCode _ _ =>
    (b.iterLive.foldl (fun p v => latestProducer p (b.get v)) none).bind fun p =>
      if (p.args.get 0).isNone || (!isLogicFlags p.op && (p.args.get 1).isNone) then none
      else (fusedJccKind p.op (Cond.fromBits condCode)).map fun _ => p
  | _ => none

/-- The flags of the host. -/
structure HostFlags where
  sf : Bool
  zf : Bool
  cf : Bool
  of : Bool
  deriving DecidableEq, Repr

/-- `add`, `cmp` and `test`. -/
def hostFlags {w : Nat} (op : Op) (x y : BitVec w) : HostFlags :=
  if isLogicFlags op then ⟨x.msb, x == 0#w, false, false⟩
  else if isSubsFlags op then ⟨(x - y).msb, x - y == 0#w, BitVec.usubOverflow x y, BitVec.ssubOverflow x y⟩
  else ⟨(x + y).msb, x + y == 0#w, BitVec.uaddOverflow x y, BitVec.saddOverflow x y⟩

/-- The flags behind the comparison, with its operands as they are at the end of the block. -/
def emitFusedFlags (p : Armlet) (f : Frame) : HostFlags :=
  match p.op with
  | .addsFlags64 | .subsFlags64 | .logicFlags64 => hostFlags p.op (p.arg f 0).lo64 (p.arg f 1).lo64
  | _ => hostFlags p.op (p.arg f 0).lo32 (p.arg f 1).lo32

def Jcc.taken (flags : HostFlags) : Jcc → Bool
  | e => flags.zf
  | ne => !flags.zf
  | ae => !flags.cf
  | b => flags.cf
  | s => flags.sf
  | ns => !flags.sf
  | o => flags.of
  | no => !flags.of
  | a => !flags.cf && !flags.zf
  | be => flags.cf || flags.zf
  | ge => flags.sf == flags.of
  | l => flags.sf != flags.of
  | g => !flags.zf && flags.sf == flags.of
  | le => flags.zf || flags.sf != flags.of

/-- The decision of the branch, when its comparison is made again. -/
def fusedTaken (b : Block) (f : Frame) : Option Bool :=
  match b.terminal with
  | .conditionalBranch _ condCode _ _ => (fusableFlagProducer b).bind fun p =>
    (fusedJccKind p.op (Cond.fromBits condCode)).map (Jcc.taken (emitFusedFlags p f))
  | _ => none

/-- What the terminal of a block reads. -/
def Block.exitEnv (b : Block) (f : Frame) : ExitEnv := { f.exitEnv with fused := fusedTaken b f }

/-- `bt` on the row of the table. -/
def tableTaken (cond : Cond) (nzcv : U8) : Bool := (condTruth cond).getLsbD (nzcv.toNat % 32)

/-! ## The conditions -/

/-- The flags that the guest has where the host has these. -/
def HostFlags.guest (flags : HostFlags) (op : Op) : U8 :=
  packNzcv flags.sf flags.zf (if isSubsFlags op then !flags.cf else flags.cf) flags.of

theorem isSubsFlags_of_logic {op : Op} (h : isLogicFlags op = true) : isSubsFlags op = false := by
  cases op <;> first | rfl | cases h

/-- **The branch of the host is the condition.** -/
theorem taken_eq {op : Op} {cond : Cond} {k : Jcc} (h : fusedJccKind op cond = some k) {flags : HostFlags}
    (hlogic : isLogicFlags op = true → flags.cf = false ∧ flags.of = false) :
    k.taken flags = tableTaken cond (flags.guest op) := by
  obtain ⟨s, z, c, o⟩ := flags
  unfold fusedJccKind at h
  unfold HostFlags.guest
  cases hl : isLogicFlags op with
  | true =>
    obtain ⟨rfl, rfl⟩ : c = false ∧ o = false := hlogic hl
    rw [hl, if_pos rfl] at h
    rw [isSubsFlags_of_logic hl]
    clear hlogic hl
    revert s z
    cases cond <;> cases h <;> decide
  | false =>
    rw [hl, if_neg Bool.false_ne_true] at h
    clear hlogic hl
    generalize isSubsFlags op = sub at h ⊢
    revert s z c o
    cases sub <;> cases cond <;> cases h <;> decide

/-- The flags that a comparison writes. -/
def producedFlags (a : Armlet) (f : Frame) : U8 :=
  match a.op with
  | .addsFlags32 => addFlags (a.arg f 0).lo32 (a.arg f 1).lo32
  | .addsFlags64 => addFlags (a.arg f 0).lo64 (a.arg f 1).lo64
  | .subsFlags32 => subFlags (a.arg f 0).lo32 (a.arg f 1).lo32
  | .subsFlags64 => subFlags (a.arg f 0).lo64 (a.arg f 1).lo64
  | .logicFlags32 => logicFlags (a.arg f 0).lo32
  | _ => logicFlags (a.arg f 0).lo64

theorem isFlagProducer_iff {op : Op} : isFlagProducer op = true ↔ op = .addsFlags32 ∨ op = .addsFlags64 ∨
    op = .subsFlags32 ∨ op = .subsFlags64 ∨ op = .logicFlags32 ∨ op = .logicFlags64 := by
  unfold isFlagProducer
  split <;> simp_all

theorem guest_emitFusedFlags {p : Armlet} (h : isFlagProducer p.op = true) (f : Frame) :
    (emitFusedFlags p f).guest p.op = producedFlags p f := by
  obtain ⟨op, ty, flags, prev, next, args, imm, pc⟩ := p
  rcases isFlagProducer_iff.mp h with rfl | rfl | rfl | rfl | rfl | rfl <;> rfl

theorem flags_of_logic {p : Armlet} (h : isLogicFlags p.op = true) (f : Frame) :
    (emitFusedFlags p f).cf = false ∧ (emitFusedFlags p f).of = false := by
  unfold emitFusedFlags
  split <;> rw [hostFlags, if_pos h] <;> exact ⟨rfl, rfl⟩

/-! ## The nodes -/

/-- What the decision asks of the nodes: a node defines its own value only, a comparison writes the
flags it is for, and what is taken to leave the flags alone does. -/
structure FlagSteps (step : NodeStep Frame) : Prop where
  value : ∀ v a f f', step v a f = some f' → ∀ r, r ≠ v → f'.value r = f.value r
  produces : ∀ v a f f', step v a f = some f' → isFlagProducer a.op = true → f'.machine.nzcv = producedFlags a f
  preserves : ∀ v a f f', step v a f = some f' → opPreservesNzcv a.op = true →
    f'.machine.nzcv = f.machine.nzcv

theorem producedFlags_congr {a : Armlet} {f f' : Frame} (h : ∀ k, a.arg f' k = a.arg f k) :
    producedFlags a f' = producedFlags a f := by
  unfold producedFlags
  rw [h 0, h 1]

section fused

variable {step : NodeStep Frame} {b : Block} {l l₁ l₂ : List ValueRef} {v : ValueRef} {p : Armlet}
  {f f' : Frame}

/-- The comparison that the flags come from. -/
def latestIn (b : Block) (done : List ValueRef) : Option Armlet :=
  done.foldl (fun p v => latestProducer p (b.get v)) none

theorem latestIn_snoc : latestIn b (l ++ [v]) = latestProducer (latestIn b l) (b.get v) := by
  rw [latestIn, List.foldl_append]
  rfl

/-- The flags are those of the latest comparison, and its operands are still what they were. -/
structure Latest (b : Block) (done : List ValueRef) (p : Armlet) (f : Frame) : Prop where
  producer : isFlagProducer p.op = true
  flags : f.machine.nzcv = producedFlags p f
  args : ∀ k, (p.args.get k).isSome → p.args.get k ∈ done

/-- A node is none of the operands of the nodes before it. -/
theorem arg_ne (hl : b.Linked (l₁ ++ v :: l₂)) {k : Fin 4} (h : (p.args.get k).isSome → p.args.get k ∈ l₁) :
    p.args.get k ≠ v := by
  rintro rfl
  have hsome : (p.args.get k).isSome := by simpa using hl.ne_none (List.mem_append_right l₁ List.mem_cons_self)
  exact (List.nodup_append.mp hl.nodup).2.2 _ (h hsome) _ List.mem_cons_self rfl

theorem Latest.snoc (hstep : FlagSteps step) (hl : b.Linked (l₁ ++ v :: l₂)) (hssa : b.Ssa (l₁ ++ v :: l₂))
    (h : ∀ p, latestIn b l₁ = some p → Latest b l₁ p f) (hv : step v (b.get v) f = some f') :
    latestIn b (l₁ ++ [v]) = some p → Latest b (l₁ ++ [v]) p f' := by
  intro hp
  rw [latestIn_snoc, latestProducer] at hp
  split at hp
  · next hproduce =>
    obtain rfl := Option.some.inj hp
    have hargs (k : Fin 4) : ((b.get v).args.get k).isSome → (b.get v).args.get k ∈ l₁ :=
      hssa.arg_mem k
    refine ⟨hproduce, ?_, fun k hk => List.mem_append_left _ (hargs k hk)⟩
    rw [hstep.produces v _ f f' hv hproduce]
    exact (producedFlags_congr fun k => hstep.value v _ f f' hv _ (arg_ne hl (hargs k))).symm
  · split at hp
    · next hpreserve =>
      have hold := h p hp
      refine ⟨hold.producer, ?_, fun k hk => List.mem_append_left _ (hold.args k hk)⟩
      rw [hstep.preserves v _ f f' hv hpreserve, hold.flags]
      exact (producedFlags_congr fun k => hstep.value v _ f f' hv _ (arg_ne hl (hold.args k))).symm
    · cases hp

/-- Behind a block the flags are those of its latest comparison. -/
theorem latest_run (hstep : FlagSteps step) (hl : b.Linked l) (hssa : b.Ssa l) (hrun : b.run step f = some f') :
    ∀ p, latestIn b l = some p → Latest b l p f' := by
  refine hl.run_invariant (P := fun done f => ∀ p, latestIn b done = some p → Latest b done p f)
    (fun l₁ v l₂ f f' heq hold hv => ?_) (fun p hp => ?_) hrun
  · subst heq
    exact fun p => Latest.snoc hstep hl hssa hold hv
  · cases hp

/-- **The comparison made again decides like the flags.**  Wherever a block leads, with a branch
that takes its flags from the host, it leads there by the flags of the guest. -/
theorem fused_agrees (hstep : FlagSteps step) (hl : b.Linked l) (hssa : b.Ssa l)
    (hrun : b.run step f = some f') :
    b.terminal.control (b.exitEnv f') b.endPc = b.terminal.control f'.exitEnv b.endPc := by
  cases hterminal : b.terminal with
  | conditionalBranch condNzcv condCode takenPc notTakenPc =>
    have htaken : (fusedTaken b f').getD (tableTaken (Cond.fromBits condCode) f'.machine.nzcv) =
        tableTaken (Cond.fromBits condCode) f'.machine.nzcv := by
      rw [fusedTaken, hterminal]
      dsimp only
      cases hfuse : fusableFlagProducer b with
      | none => rfl
      | some p =>
        rw [fusableFlagProducer, hterminal, hl.walk.iterLive_eq] at hfuse
        obtain ⟨q, hq, hfuse⟩ := Option.bind_eq_some_iff.mp hfuse
        have hlatest := latest_run hstep hl hssa hrun q hq
        split at hfuse
        · cases hfuse
        obtain ⟨k, hk, rfl⟩ := Option.map_eq_some_iff.mp hfuse
        rw [Option.bind_some, hk, Option.map_some, Option.getD_some,
          taken_eq hk fun hlogic => flags_of_logic hlogic f', guest_emitFusedFlags hlatest.producer,
          hlatest.flags]
    exact congrArg (fun taken => Control.goto (if taken = true then takenPc else notTakenPc)) htaken
  | _ => rfl

end fused

end Rustarmic
