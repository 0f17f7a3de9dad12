import Rustarmic.Frontend.Slices
import Rustarmic.Jit.BlockCache
import Rustarmic.Jit.FaultBarrier
import Rustarmic.Jit.RunPath
import Rustarmic.Optimizer.LinkedRun

/-!
# Compiling a block

`JitOps` lists what the dispatcher loop asks of the rest of the JIT.  Here the rest is put together
from its parts: `compile` translates the block at a PC with the instruction cap it was given,
optimizes it, emits code for it and publishes the code; a block that is too large for the spill
frame is translated again with half the instructions; a full code cache is reset and the code
published once more.

A `Jit` is a configuration.  The front end is any `Lowering`, the guest code any fetch function, and
the emitter is left open, because nothing that the dispatcher relies on depends on the machine code:
`emit` says which blocks have code, `nodes` and `leave` what the code of a block does once the block
has been admitted, with memory accesses, callbacks and an exit of any kind.  What is not left open
is what the entry protocol needs.  A block is published under the PC it starts at and counts no more
instructions than the cap allows, since translation and optimizer keep both, and its body never
touches the budget, since none of its nodes does.

* `compile` is the function of the source, for a cache that carries its own invariant
  (`BlockCache`).
* `publishAt_block`, `compileWithin_block` and `compile_block` say what is at the address it
  returns.
* `guestJit` is the instance of `JitOps`, with its fields proved.

A jump through an empty dispatch slot ends at the miss stub, a bare `ret`, which returns what `RAX`
happens to hold: no code sets it, so that number is a parameter, `stubRax`.
-/

set_option autoImplicit false

namespace Rustarmic

/-- The code without its chain sites, for a JIT that does not link blocks. -/
def EmittedBlock.unchained (e : EmittedBlock) : EmittedBlock :=
  CodeCache.plainBlock e.code e.thunkKind

/-- A configuration of the JIT and the parts it is built from. -/
structure Jit (ω : Type) where
  translate : TranslateOptions
  linkBlocks : Bool
  resumeAfterFault : Bool
  lowering : Lowering
  /-- `Memory::fetch_inst`. -/
  fetchInst : U64 → GuestState ω → Option U32 × GuestState ω
  /-- `emit_block`: the code of a block, if it has any. -/
  emit : Block → Except Error EmittedBlock
  /-- What the code of a block does between its entry and its exit. -/
  nodes : Block → List Node
  leave : Block → GuestContext BlockCache ω → Option U64 × BlockExit
  sort : UnstableSort
  cb : Callbacks ω
  mode : FastmemMode
  /-- The third-party decoder's name for an opcode. -/
  decodedClass : U32 → String

namespace Jit

variable {ω : Type} (J : Jit ω)

/-! ## The function -/

/-- Publish the code of a block; a full cache is reset first. -/
def publishAt (pc : U64) (b : Block) (e : EmittedBlock) (cap : Option U32) (hpc : b.startPc = pc)
    (hcap : ∀ k ∈ cap, b.cycles.toNat ≤ max k.toNat 1) (c : BlockCache) :
    BlockCache × Except Error Nat :=
  let e := if J.linkBlocks then e else e.unchained
  match c.installBlock J.sort pc b e cap hpc hcap with
  | (c, .error .codeCacheFull) =>
    match c.reset with
    | (c, .error err) => (c, .error err)
    | (c, .ok ()) => c.installBlock J.sort pc b e cap hpc hcap
  | r => r

/-- The translation of at most `maxInsts` instructions at `pc`. -/
def translateAt (pc : U64) (maxInsts : U32) (g : GuestState ω) :
    Translation (GuestState ω) × Except Error Unit :=
  translateBlockInto J.lowering.translator (.new 0) pc J.fetchInst g { J.translate with maxInsts }

theorem translateAt_startPc {pc : U64} {maxInsts : U32} {g : GuestState ω}
    {t : Translation (GuestState ω)} (h : J.translateAt pc maxInsts g = (t, .ok ())) :
    (Optimizer.optimize t.block).startPc = pc :=
  (Optimizer.optimize_startPc _).trans (Translation.translateBlockInto_startPc h)

theorem translateAt_cycles_le {pc : U64} {maxInsts : U32} {g : GuestState ω}
    {t : Translation (GuestState ω)} {r : Except Error Unit}
    (h : J.translateAt pc maxInsts g = (t, r)) :
    (Optimizer.optimize t.block).cycles.toNat ≤ max maxInsts.toNat 1 := by
  have hle := translateBlockInto_cycles_le J.lowering.translator (.new 0) pc J.fetchInst g
    { J.translate with maxInsts }
  rw [translateAt] at h
  rw [h] at hle
  rw [Optimizer.optimize_cycles]
  exact hle

/-- Half as many instructions still respect the cap. -/
theorem half_le {cap : Option U32} {maxInsts : U32}
    (h : ∀ k ∈ cap, maxInsts.toNat ≤ max k.toNat 1) :
    ∀ k ∈ cap, (maxInsts / 2).toNat ≤ max k.toNat 1 := by
  intro k hk
  have hle := h k hk
  have hhalf : (maxInsts / 2).toNat = maxInsts.toNat / 2 := rfl
  omega

/-- Translate, compile and publish the block at `pc`, with at most `maxInsts` instructions and fewer
where the block would not fit into the spill frame. -/
def compileWithin (pc : U64) (cap : Option U32) (maxInsts : U32)
    (hmax : ∀ k ∈ cap, maxInsts.toNat ≤ max k.toNat 1) (c : BlockCache) (g : GuestState ω) :
    (BlockCache × GuestState ω) × Except Error Nat :=
  match h : J.translateAt pc maxInsts g with
  | (t, .error e) => ((c, t.memory), .error e)
  | (t, .ok ()) =>
    let b := Optimizer.optimize t.block
    match J.emit b with
    | .ok e =>
      -- The cap asked for is the key, however short the block turned out.
      let r := J.publishAt pc b e cap (J.translateAt_startPc h)
        (fun k hk => (J.translateAt_cycles_le h).trans (max_le (hmax k hk) (le_max_right _ _))) c
      ((r.1, t.memory), r.2)
    | .error (.blockTooLarge p) =>
      if _h : 1 < maxInsts then
        compileWithin pc cap (maxInsts / 2) (half_le hmax) c t.memory
      else ((c, t.memory), .error (.blockTooLarge p))
    | .error e => ((c, t.memory), .error e)
termination_by maxInsts.toNat
decreasing_by
  have hhalf : (maxInsts / 2).toNat = maxInsts.toNat / 2 := rfl
  have h1 : 1 < maxInsts.toNat := BitVec.lt_def.mp _h
  omega

/-- `max_insts.min(cap).max(1)` under a cap. -/
def capInsts (maxInsts : U32) : Option U32 → U32
  | none => maxInsts
  | some cap =>
    let m := if maxInsts ≤ cap then maxInsts else cap
    if m = 0 then 1 else m

theorem capInsts_le (maxInsts : U32) (cap : Option U32) :
    ∀ k ∈ cap, (capInsts maxInsts cap).toNat ≤ max k.toNat 1 := by
  rintro k ⟨⟩
  simp only [capInsts, BitVec.le_def]
  split_ifs
  · exact le_max_right _ _
  · exact le_max_of_le_left ‹_›
  · exact le_max_right _ _
  · exact le_max_left _ _

/-- `Jit::compile`. -/
def compile (pc : U64) (cap : Option U32) (c : BlockCache) (g : GuestState ω) :
    (BlockCache × GuestState ω) × Except Error Nat :=
  J.compileWithin pc cap (capInsts J.translate.maxInsts cap) (capInsts_le _ cap) c g

/-! ## What is at the address -/

/-- **Publishing.** -/
theorem publishAt_block {pc : U64} {b : Block} {e : EmittedBlock} {cap : Option U32}
    {hpc : b.startPc = pc} {hcap : ∀ k ∈ cap, b.cycles.toNat ≤ max k.toNat 1} {c c' : BlockCache}
    {host : Nat} (h : J.publishAt pc b e cap hpc hcap c = (c', .ok host)) :
    c'.blocks host = some b := by
  rw [publishAt] at h
  split at h
  · split at h
    · cases h
    · exact BlockCache.installBlock_block _ h
  · exact BlockCache.installBlock_block _ h

/-- **A block that was compiled** is at the address, starts at the PC and has no more instructions
than were asked for. -/
theorem compileWithin_block {pc : U64} {cap : Option U32} {maxInsts : U32}
    {hmax : ∀ k ∈ cap, maxInsts.toNat ≤ max k.toNat 1} {c c' : BlockCache} {g g' : GuestState ω}
    {host : Nat} (h : J.compileWithin pc cap maxInsts hmax c g = ((c', g'), .ok host)) :
    ∃ b, c'.blocks host = some b ∧ b.startPc = pc ∧ b.cycles.toNat ≤ max maxInsts.toNat 1 := by
  fun_induction J.compileWithin pc cap maxInsts hmax c g with
  | case1 => cases h
  | case2 maxInsts hmax g t htranslate b e hemit r =>
    obtain ⟨hstate, hhost⟩ := Prod.mk.inj h
    obtain ⟨rfl, rfl⟩ := Prod.mk.inj hstate
    exact ⟨b, J.publishAt_block (Prod.ext rfl hhost), J.translateAt_startPc htranslate,
      J.translateAt_cycles_le htranslate⟩
  | case3 maxInsts hmax g t htranslate b p hemit hmore ih =>
    obtain ⟨b', hb', hpc, hle⟩ := ih h
    have hhalf : (maxInsts / 2).toNat = maxInsts.toNat / 2 := rfl
    exact ⟨b', hb', hpc, by omega⟩
  | case4 => cases h
  | case5 => cases h

theorem compile_block {pc : U64} {cap : Option U32} {c c' : BlockCache} {g g' : GuestState ω}
    {host : Nat} (h : J.compile pc cap c g = ((c', g'), .ok host)) :
    ∃ b, c'.blocks host = some b ∧ b.startPc = pc ∧
      b.cycles.toNat ≤ max (capInsts J.translate.maxInsts cap).toNat 1 :=
  J.compileWithin_block h

/-- A block that is translated, has code and fits into the cache is compiled. -/
theorem compile_isOk (pc : U64) (cap : Option U32) (c : BlockCache) (g : GuestState ω)
    (htranslate : (J.translateAt pc (capInsts J.translate.maxInsts cap) g).2 = .ok ())
    {e : EmittedBlock} (hemit : ∀ b, J.emit b = .ok e) {host : Nat}
    (hfits : (c.cache.appendRaw e.code).2 = .ok host) :
    ∃ s, J.compile pc cap c g = (s, .ok host) := by
  rw [compile, compileWithin]
  split
  · rename_i t err h
    rw [h] at htranslate
    cases htranslate
  · rename_i t h
    have hcode : (if J.linkBlocks then e else e.unchained).code = e.code := by split <;> rfl
    rw [← hcode] at hfits
    simp only [hemit]
    rw [publishAt]
    obtain ⟨c', hinstall⟩ := c.installBlock_isOk J.sort (J.translateAt_startPc h)
      (fun k hk => (J.translateAt_cycles_le h).trans
        (max_le (capInsts_le _ cap k hk) (le_max_right _ _))) hfits
    rw [hinstall]
    exact ⟨_, rfl⟩

/-! ## The instance -/

/-- A block as the code that was emitted for it behaves. -/
def nodeBlock (b : Block) : NodeBlock BlockCache ω where
  startPc := b.startPc
  cycles := b.cycles
  nodes := J.nodes b
  leave := J.leave b

/-- `compile`, over everything that changes in a run. -/
def compileIn (s : Guest BlockCache ω) (pc : U64) (cap : Option U32) :
    Guest BlockCache ω × Except Error Nat :=
  let r := J.compile pc cap s.cache s.state
  ({ s with cache := r.1.1, state := r.1.2 }, r.2)

/-- The dispatcher's view of the JIT. -/
def guestJit (stubRax : Guest BlockCache ω → U64) : GuestJit BlockCache ω where
  ops :=
    { lookupDispatchMeta := fun s pc =>
        let r := s.cache.lookupDispatchMeta pc
        ({ s with cache := r.1 }, r.2.map DispatchMeta.hostPtr)
      lookupCapped := fun s pc cap => s.cache.cache.lookupCapped pc cap
      compile := J.compileIn
      code := fun s host => (s.cache.blocks host).map fun b => (J.nodeBlock b).hostBlock J.cb J.mode
      stubRax := stubRax
      resumeAfterFault := J.resumeAfterFault
      decodedClass := J.decodedClass
      lookup_code := by
        intro s pc s' host h
        obtain ⟨rfl, hhost⟩ := Prod.mk.inj h
        obtain ⟨m, hm, rfl⟩ := Option.map_eq_some_iff.mp hhost
        rcases s.cache.lookupDispatchMeta_block hm with ⟨b, hb, hpc⟩ | ⟨hpc, hb⟩
        · exact .inl ⟨_, Option.map_eq_some_iff.mpr ⟨b, hb, rfl⟩, hpc⟩
        · exact .inr ⟨hpc, Option.map_eq_none_iff.mpr hb⟩
      lookupCapped_code := by
        intro s pc cap host h
        obtain ⟨b, hb, hpc, hcap⟩ := s.cache.lookupCapped_block h
        exact ⟨_, Option.map_eq_some_iff.mpr ⟨b, hb, rfl⟩, hpc, hcap⟩
      compile_code := by
        intro s pc cap s' host h
        obtain ⟨rfl, hhost⟩ := Prod.mk.inj h
        obtain ⟨b, hb, hpc, hle⟩ := J.compile_block (Prod.ext rfl hhost)
        refine ⟨_, Option.map_eq_some_iff.mpr ⟨b, hb, rfl⟩, hpc, fun k hk => ?_⟩
        exact hle.trans (max_le (capInsts_le _ cap k hk) (le_max_right _ _)) }
  cb := J.cb
  mode := J.mode
  block c host := (c.blocks host).map J.nodeBlock
  code_eq s host := by
    rw [Option.map_map]
    rfl
  lookup_trace _ _ := rfl
  compile_trace _ _ _ := rfl

end Jit

end Rustarmic
