import Rustarmic.Ir.Block
import Rustarmic.Jit.Dispatch

/-!
# A code cache and the blocks in it

The code cache hands out addresses; it knows a block by its guest PC and never looks at it again.
The dispatcher, though, relies on what is behind the address: the block that a lookup of a PC
returns starts at this PC, and the one it keeps for a PC and a cap has no more instructions than the
cap.

`BlockCache` puts the two together.  It is a code cache that some sequence of cache operations
reaches, and beside it the record of which block the code at an address was emitted from.  No code
reads the record.  An address stays in it when its block is invalidated, because the machine code
stays where it is until the next reset and a chain site may still jump there; a reset empties it.

* `HoldsBlocks` is what the record and the cache know of each other, with one lemma for every
  operation of the cache: the fields of `BlockCache` carry it, so an address without a block, or a
  block under another PC than its own, cannot be built.
* `lookupDispatchMeta_block` and `lookupCapped_block` are what the dispatcher relies on.  The first
  has an exception, the PC that marks an empty slot: where its slot is empty, the lookup answers
  with the miss stub, and `blocks_missStub` says that there is no block at all.
* `installBlock_block` says of an install that succeeds that the block is at the address it returns.
-/

set_option autoImplicit false

namespace Rustarmic

/-- What a cache and the record of the blocks in it know of each other. -/
structure HoldsBlocks (c : CodeCache) (blocks : Nat → Option Block) : Prop where
  cached : ∀ {pc e}, c.table pc = some e → ∃ b, blocks e.hostPtr = some b ∧ b.startPc = pc
  capped : ∀ {pc cap e}, c.capped (pc, cap) = some e →
    ∃ b, blocks e.hostPtr = some b ∧ b.startPc = pc ∧ b.cycles.toNat ≤ max cap.toNat 1
  placed : ∀ {host b}, blocks host = some b →
    c.missStub < host ∧ host < c.memory.base + c.cursor

/-- The stubs cache nothing. -/
theorem CodeCache.installRuntimeStubs_keeps {c c' : CodeCache}
    (h : c.installRuntimeStubs = (c', .ok ())) : c'.table = c.table ∧ c'.capped = c.capped := by
  obtain ⟨_, ⟨_, _, _, _, _, -, -, rfl⟩, -, -, rfl⟩ := CodeCache.installRuntimeStubs_ok h
  exact ⟨rfl, rfl⟩

namespace HoldsBlocks

variable {c c' : CodeCache} {blocks : Nat → Option Block}

/-- Where nothing is cached there need be no blocks. -/
theorem empty (h : c.table = (fun _ => none) ∧ c.capped = fun _ => none) :
    HoldsBlocks c fun _ => none where
  cached ht := by simp [h.1] at ht
  capped ht := by simp [h.2] at ht
  placed hb := by cases hb

theorem of_new {memory : CodeMemory} {stubs : RuntimeStubs} {code : ByteMemory.Mem}
    (h : CodeCache.new memory stubs code = .ok c) : HoldsBlocks c fun _ => none := by
  obtain ⟨-, d, hd, -, -, -, htable, hcapped, -⟩ := CodeCache.new_ok h
  have hkeeps := CodeCache.installRuntimeStubs_keeps hd
  exact .empty (by rwa [htable, hcapped] at hkeeps)

theorem reset (hlayout : CodeCache.Layout c) : HoldsBlocks c.reset.1 fun _ => none :=
  .empty (CodeCache.installRuntimeStubs_keeps (Prod.ext rfl hlayout.stubs_fit))

/-- A cache that forgets blocks and moves nothing. -/
theorem shrink (h : HoldsBlocks c blocks) (hmem : c'.memory = c.memory) (hcur : c'.cursor = c.cursor)
    (hmiss : c'.missStub = c.missStub)
    (htable : ∀ {pc e}, c'.table pc = some e → c.table pc = some e)
    (hcapped : ∀ {k e}, c'.capped k = some e → c.capped k = some e) : HoldsBlocks c' blocks where
  cached ht := h.cached (htable ht)
  capped ht := h.capped (hcapped ht)
  placed hb := by rw [hmem, hcur, hmiss]; exact h.placed hb

/-- A lookup fills at most a slot. -/
theorem lookupDispatchMeta (h : HoldsBlocks c blocks) (pc : U64) :
    HoldsBlocks (c.lookupDispatchMeta pc).1 blocks := by
  rw [CodeCache.lookupDispatchMeta]
  split
  · exact h
  · rw [CodeCache.lookupMetaMiss]
    split
    · exact h
    · exact h.shrink rfl rfl rfl id id

theorem invalidateRange (h : HoldsBlocks c blocks) (srt : UnstableSort) (order : List U64)
    (start len : U64) : HoldsBlocks (c.invalidateRange srt order start len) blocks := by
  obtain ⟨hmem, -, hmiss, hcur, -⟩ :=
    CodeCache.foldl_removeBlock_frame (c.doomed order start len) c
  rw [CodeCache.invalidateRange_eq]
  refine h.shrink hmem hcur hmiss (fun {pc e} he => ?_) fun {k e} he => ?_
  · dsimp only at he
    split at he
    · cases he
    · exact he
  · exact (Option.filter_eq_some_iff.mp he).1

/-- Bytes that are appended lie where no block is, so that a block may be put there. -/
theorem append (h : HoldsBlocks c blocks) (hlayout : CodeCache.Layout c) {bytes : List U8} {host : Nat}
    (happend : c.appendRaw bytes = (c', .ok host)) (b : Block) :
    HoldsBlocks c' (Function.update blocks host (some b)) := by
  obtain ⟨hlen, hle, -, rfl⟩ := CodeCache.appendRaw_ok happend
  have hstub := hlayout.stub_lt
  have hkeep : ∀ {h' b'}, blocks h' = some b' → Function.update blocks host (some b) h' = some b' := by
    intro h' b' hb
    have hlt := (h.placed hb).2
    rw [Function.update_of_ne (by omega)]
    exact hb
  refine ⟨fun he => ?_, fun he => ?_, fun {h' b'} hb => ?_⟩
  · obtain ⟨b', hb', hpc⟩ := h.cached he
    exact ⟨b', hkeep hb', hpc⟩
  · obtain ⟨b', hb', hpc⟩ := h.capped he
    exact ⟨b', hkeep hb', hpc⟩
  · dsimp only
    by_cases heq : h' = host
    · omega
    · rw [Function.update_of_ne heq] at hb
      have hlt := h.placed hb
      omega

/-- **An install** leaves the block at the address it returns, and the others where they were. -/
theorem installBlock (h : HoldsBlocks c blocks) (hlayout : CodeCache.Layout c) {srt : UnstableSort}
    {pc : U64} {ranges : List (U64 × U64)} {insns : U32} {e : EmittedBlock} {cap : Option U32}
    {host : Nat} (hinstall : c.installBlock srt pc ranges insns e cap = (c', .ok host)) {b : Block}
    (hpc : b.startPc = pc) (hcap : ∀ k ∈ cap, b.cycles.toNat ≤ max k.toNat 1) :
    HoldsBlocks c' (Function.update blocks host (some b)) := by
  rcases CodeCache.installBlock_cases c srt pc ranges insns e cap with
    ⟨err, herr⟩ | ⟨d, host', happend, ⟨k, rfl, hd⟩ | ⟨rfl, hd⟩⟩
  · rw [herr] at hinstall
    cases hinstall
  · rw [hd] at hinstall
    cases hinstall
    have happended := h.append hlayout happend b
    refine ⟨happended.cached, fun {q k' e'} he => ?_, happended.placed⟩
    dsimp only at he
    by_cases hk : (q, k') = (pc, k)
    · obtain ⟨rfl, rfl⟩ := Prod.mk.inj hk
      rw [Function.update_self] at he
      cases he
      exact ⟨b, Function.update_self .., hpc, hcap k' rfl⟩
    · rw [Function.update_of_ne hk] at he
      exact happended.capped he
  · rw [hd, CodeCache.installCached_eq] at hinstall
    cases hinstall
    have happended := h.append hlayout happend b
    -- What the removal of an older block at the PC leaves alone.
    obtain ⟨hmem, -, hmiss, hcur, -, -, hcapped, -⟩ :=
      CodeCache.removeBlock_frame (d.publish pc host e.chains) pc
    refine ⟨fun {q e'} he => ?_, fun {q k' e'} he => ?_, fun {h' b'} hb => ?_⟩
    · dsimp only at he
      by_cases hq : q = pc
      · rw [hq, Function.update_self] at he
        cases he
        exact ⟨b, Function.update_self .., hpc.trans hq.symm⟩
      · rw [Function.update_of_ne hq] at he
        exact happended.cached he
    · dsimp only at he
      rw [hcapped] at he
      exact happended.capped he
    · dsimp only
      rw [hmem, hmiss, hcur]
      exact happended.placed hb

end HoldsBlocks

/-! ## The two together -/

/-- A code cache reached by cache operations, and the block that each piece of machine code in it
was emitted from. -/
structure BlockCache where
  cache : CodeCache
  blocks : Nat → Option Block
  reachable : CodeCache.system.Reachable cache
  holds : HoldsBlocks cache blocks

namespace BlockCache

variable (c : BlockCache)

theorem layout : CodeCache.Layout c.cache := CodeCache.layout_of_reachable c.reachable

/-- A new cache, which holds no blocks. -/
def new (memory : CodeMemory) (stubs : RuntimeStubs) (code : ByteMemory.Mem) {cache : CodeCache}
    (h : CodeCache.new memory stubs code = .ok cache) : BlockCache where
  cache := cache
  blocks := fun _ => none
  reachable := .init ⟨memory, stubs, code, h⟩
  holds := .of_new h

def lookupDispatchMeta (pc : U64) : BlockCache × Option DispatchMeta :=
  ({ c with
      cache := (c.cache.lookupDispatchMeta pc).1
      reachable := CodeCache.reachable_step c.reachable (.lookup pc) trivial
      holds := c.holds.lookupDispatchMeta pc },
    (c.cache.lookupDispatchMeta pc).2)

def invalidateRange (srt : UnstableSort) (order : List U64) (start len : U64)
    (horder : (CacheOp.invalidateRange srt order start len).Enumerates c.cache) : BlockCache where
  cache := c.cache.invalidateRange srt order start len
  blocks := c.blocks
  reachable := CodeCache.reachable_step c.reachable (.invalidateRange srt order start len) horder
  holds := c.holds.invalidateRange srt order start len

/-- A reset forgets every block; it does not fail (`reset_snd`). -/
def reset : BlockCache × Except Error Unit :=
  ({ cache := c.cache.reset.1
     blocks := fun _ => none
     reachable := CodeCache.reachable_step c.reachable .reset trivial
     holds := .reset c.layout },
    c.cache.reset.2)

theorem reset_snd : c.reset.2 = .ok () := c.layout.stubs_fit

/-- Publish the code emitted from a block under its PC, cached or, with a cap, for that (PC, cap)
pair only. -/
def installBlock (srt : UnstableSort) (pc : U64) (b : Block) (e : EmittedBlock) (cap : Option U32)
    (hpc : b.startPc = pc) (hcap : ∀ k ∈ cap, b.cycles.toNat ≤ max k.toNat 1) :
    BlockCache × Except Error Nat :=
  match h : c.cache.installBlock srt pc b.ranges b.cycles e cap with
  | (_, .error err) => (c, .error err)
  | (d, .ok host) =>
    ({ cache := d
       blocks := Function.update c.blocks host (some b)
       reachable := by
         have hstep := CodeCache.reachable_step c.reachable
           (.installBlock srt pc b.ranges b.cycles e cap) trivial
         rwa [CodeCache.step, h] at hstep
       holds := c.holds.installBlock c.layout h hpc hcap }, .ok host)

/-! ## What the dispatcher relies on -/

/-- The PC that marks an empty slot, sitting in one: the place where a lookup finds the miss
stub. -/
def Marked (pc : U64) : Prop :=
  pc = emptyPc ∧ c.cache.dispatch (dispatchIndex pc) = c.cache.emptySlot

theorem blocks_missStub : c.blocks c.cache.missStub = none := by
  rw [Option.eq_none_iff_forall_ne_some]
  intro b hb
  exact absurd (c.holds.placed hb).1 (lt_irrefl _)

/-- Away from the mark a lookup answers with what the hash map has. -/
theorem lookupDispatchMeta_snd {pc : U64} (h : ¬ c.Marked pc) :
    (c.lookupDispatchMeta pc).2 = (c.cache.table pc).map Entry.toMeta :=
  CodeCache.lookupDispatchMeta_eq (CodeCache.slotsOk_of_reachable c.reachable) h

/-- Where nothing is cached, a lookup fills in nothing. -/
theorem lookupDispatchMeta_fst {pc : U64} (h : c.cache.table pc = none) :
    (c.lookupDispatchMeta pc).1 = c := by
  have hsame : (c.cache.lookupDispatchMeta pc).1 = c.cache := by
    rw [CodeCache.lookupDispatchMeta]
    split
    · rfl
    · rw [CodeCache.lookupMetaMiss, h]
  simp only [lookupDispatchMeta, hsame]

/-- On the mark it answers with the miss stub. -/
theorem lookupDispatchMeta_marked {pc : U64} (h : c.Marked pc) :
    (c.lookupDispatchMeta pc).2.map DispatchMeta.hostPtr = some c.cache.missStub :=
  CodeCache.lookup_emptySlot h

/-- **A lookup** finds a block that starts at the PC, except on the mark. -/
theorem lookupDispatchMeta_block {pc : U64} {m : DispatchMeta}
    (h : (c.lookupDispatchMeta pc).2 = some m) :
    (∃ b, c.blocks m.hostPtr = some b ∧ b.startPc = pc) ∨
      pc = emptyPc ∧ c.blocks m.hostPtr = none := by
  by_cases hmark : c.Marked pc
  · have hstub := c.lookupDispatchMeta_marked hmark
    rw [h, Option.map_some, Option.some.injEq] at hstub
    rw [hstub]
    exact .inr ⟨hmark.1, c.blocks_missStub⟩
  · rw [c.lookupDispatchMeta_snd hmark] at h
    obtain ⟨e, he, rfl⟩ := Option.map_eq_some_iff.mp h
    exact .inl (c.holds.cached he)

theorem lookupCapped_block {pc : U64} {cap : U32} {host : Nat}
    (h : c.cache.lookupCapped pc cap = some host) :
    ∃ b, c.blocks host = some b ∧ b.startPc = pc ∧ b.cycles.toNat ≤ max cap.toNat 1 := by
  obtain ⟨e, he, rfl⟩ := Option.map_eq_some_iff.mp h
  exact c.holds.capped he

/-- **An install** that succeeds leaves the block at the address it returns. -/
theorem installBlock_block {srt : UnstableSort} {pc : U64} {b : Block} {e : EmittedBlock}
    {cap : Option U32} {hpc : b.startPc = pc} {hcap : ∀ k ∈ cap, b.cycles.toNat ≤ max k.toNat 1}
    {c' : BlockCache} {host : Nat} (h : c.installBlock srt pc b e cap hpc hcap = (c', .ok host)) :
    c'.blocks host = some b := by
  rw [installBlock] at h
  split at h
  · cases h
  · cases h
    exact Function.update_self ..

/-- It succeeds where the code fits behind what was appended so far. -/
theorem installBlock_isOk (srt : UnstableSort) {pc : U64} {b : Block} {e : EmittedBlock}
    {cap : Option U32} (hpc : b.startPc = pc)
    (hcap : ∀ k ∈ cap, b.cycles.toNat ≤ max k.toNat 1) {host : Nat}
    (hfits : (c.cache.appendRaw e.code).2 = .ok host) :
    ∃ c', c.installBlock srt pc b e cap hpc hcap = (c', .ok host) := by
  have hok : (c.cache.installBlock srt pc b.ranges b.cycles e cap).2 = .ok host := by
    rw [CodeCache.installBlock]
    cases happend : c.cache.appendRaw e.code with
    | mk d r =>
    rw [happend] at hfits
    cases hfits
    cases cap with
    | none => rfl
    | some k => rfl
  rw [installBlock]
  split
  · rename_i h
    rw [h] at hok
    cases hok
  · rename_i d host' h
    rw [h] at hok
    cases hok
    exact ⟨_, rfl⟩

end BlockCache

end Rustarmic
