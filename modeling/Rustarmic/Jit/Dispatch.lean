import Rustarmic.Jit.CacheOps

/-!
# Dispatch coherence

A guest PC is looked up in three places that are updated separately: the hash map, the
direct-mapped array of slots, and the array of metadata beside it.  Generated indirect branches
probe the array of slots by themselves, computing the index with other instructions.

* `SlotsOk` is the invariant: every slot is the empty slot, or agrees with the hash map about the
  PC it holds.  `slotsOk_of_reachable` shows it of every reachable cache.
* `emitDispatchProbe` is the emitted probe and `ProbeInsn.exec` runs it; `exec_emitDispatchProbe`
  says that it reads the slot the dispatcher reads.
* `dispatch_coherent_iff` is the result: the lookup and the probe agree with the hash map at every
  PC, except that the PC which marks an empty slot is found in one.
-/

set_option autoImplicit false

namespace Rustarmic

namespace CodeCache

variable {c c' : CodeCache}

/-! ## The invariant -/

/-- The slot is empty, or holds what the hash map holds for its PC. -/
def SlotOk (c : CodeCache) (i : Nat) : Prop :=
  c.dispatch i = c.emptySlot ∨
    ∃ e, c.table (c.dispatch i).pc = some e ∧ dispatchIndex (c.dispatch i).pc = i ∧
      (c.dispatch i).host = e.hostPtr ∧ c.dispatchMeta i = (e.guestInsns, e.thunkKind)

def SlotsOk (c : CodeCache) : Prop := ∀ i, c.SlotOk i

/-- The invariant reads the hash map, the two arrays and the miss stub. -/
theorem SlotsOk.congr (h : SlotsOk c) (htable : c'.table = c.table)
    (hdispatch : c'.dispatch = c.dispatch) (hmeta : c'.dispatchMeta = c.dispatchMeta)
    (hmiss : c'.missStub = c.missStub) : SlotsOk c' := by
  intro i
  rw [SlotOk, emptySlot, htable, hdispatch, hmeta, hmiss]
  exact h i

/-- Writing a block's own slot, once the hash map has the block. -/
theorem SlotsOk.set {pc : U64} {e : Entry} (h : SlotsOk c) (hmiss : c'.missStub = c.missStub)
    (htable : c'.table = Function.update c.table pc (some e))
    (hdispatch : c'.dispatch = Function.update c.dispatch (dispatchIndex pc) ⟨pc, e.hostPtr⟩)
    (hmeta : c'.dispatchMeta = Function.update c.dispatchMeta (dispatchIndex pc)
      (e.guestInsns, e.thunkKind)) : SlotsOk c' := by
  intro i
  rw [SlotOk, emptySlot, htable, hdispatch, hmeta, hmiss]
  by_cases hi : i = dispatchIndex pc
  · subst hi
    rw [Function.update_self, Function.update_self]
    exact .inr ⟨e, rfl, rfl, rfl, Function.update_self ..⟩
  · rw [Function.update_of_ne hi, Function.update_of_ne hi]
    rcases h i with hempty | ⟨e', h1, h2, h3, h4⟩
    · exact .inl hempty
    · have hpc : (c.dispatch i).pc ≠ pc := by
        rintro heq
        exact hi (by rw [← h2, heq])
      rw [Function.update_of_ne hpc]
      exact .inr ⟨e', h1, h2, h3, h4⟩

theorem SlotsOk.removeBlock (h : SlotsOk c) (pc : U64) : SlotsOk (c.removeBlock pc) := by
  cases htable : c.table pc with
  | none => rwa [removeBlock_of_none htable]
  | some entry =>
    obtain ⟨-, -, hmiss, -, -, -, -, hupd⟩ := removeBlock_frame c pc
    obtain ⟨hmeta, hdispatch⟩ := removeBlock_dispatch c pc
    intro i
    rw [SlotOk, emptySlot, hupd, hmeta, hmiss]
    have hkeep (hne : (c.dispatch i).pc ≠ pc) : c.dispatch i = ⟨emptyPc, c.missStub⟩ ∨
        ∃ e, Function.update c.table pc none (c.dispatch i).pc = some e ∧
          dispatchIndex (c.dispatch i).pc = i ∧ (c.dispatch i).host = e.hostPtr ∧
          c.dispatchMeta i = (e.guestInsns, e.thunkKind) := by
      rw [Function.update_of_ne hne]
      exact h i
    -- A slot elsewhere never holds `pc`: a slot that is not empty has the index of its PC.
    have hfar (hi : i ≠ dispatchIndex pc) (hne : c.dispatch i ≠ c.emptySlot) :
        (c.dispatch i).pc ≠ pc := by
      rintro rfl
      rcases h i with hempty | ⟨-, -, h2, -⟩
      · exact hne hempty
      · exact hi h2.symm
    rcases hdispatch with ⟨hsame, hpc⟩ | hset
    · rw [hsame]
      by_cases hi : i = dispatchIndex pc
      · subst hi
        exact hkeep (hpc (by rw [htable]; rfl))
      · by_cases hempty : c.dispatch i = c.emptySlot
        · exact .inl hempty
        · exact hkeep (hfar hi hempty)
    · rw [hset]
      by_cases hi : i = dispatchIndex pc
      · subst hi
        rw [Function.update_self]
        exact .inl rfl
      · rw [Function.update_of_ne hi]
        by_cases hempty : c.dispatch i = c.emptySlot
        · exact .inl hempty
        · exact hkeep (hfar hi hempty)

theorem slotsOk_clearDispatch (c : CodeCache) : SlotsOk c.clearDispatch :=
  fun _ => .inl rfl

/-- **Every step keeps the slots coherent.** -/
theorem SlotsOk.step (h : SlotsOk c) (hlayout : Layout c) (op : CacheOp) :
    SlotsOk (c.step op) := by
  have heffect := effect_step c op
  generalize c.step op = c' at heffect ⊢
  cases heffect with
  | same => exact h
  | append happend =>
    obtain ⟨-, -, -, rfl⟩ := appendRaw_ok happend
    exact h.congr rfl rfl rfl rfl
  | capped happend =>
    obtain ⟨-, -, -, rfl⟩ := appendRaw_ok happend
    exact h.congr rfl rfl rfl rfl
  | @cached _ srt guestPc ranges guestInsns block d host _ happend =>
    obtain ⟨-, -, -, rfl⟩ := appendRaw_ok happend
    rw [installCached_eq]
    exact h.set (removeBlock_frame _ guestPc).2.2.1 rfl rfl rfl
  | @fill pc e htable => exact h.set rfl (by rw [← htable, Function.update_eq_self]) rfl rfl
  | invalidate srt order start len =>
    have hremoved : SlotsOk ((c.doomed order start len).foldl CodeCache.removeBlock c) :=
      foldl_removeBlock (fun _ pc hs => hs.removeBlock pc) _ h
    rw [invalidateRange_eq]
    exact hremoved.congr (foldl_removeBlock_frame _ c).2.2.2.2.2.2.2.symm rfl rfl rfl
  | reset =>
    have hfit := hlayout.stubs_fit
    obtain ⟨d, -, -, -, hd⟩ := installRuntimeStubs_ok (Prod.ext rfl hfit)
    have hreset : c.reset.1 = d.clearDispatch := hd
    rw [hreset]
    exact slotsOk_clearDispatch d

theorem slotsOk_of_reachable (h : system.Reachable c) : SlotsOk c := by
  refine h.invariant ?_ ?_
  · rintro s ⟨memory, stubs, code, hnew⟩
    obtain ⟨-, d, hd, -⟩ := new_ok hnew
    obtain ⟨d', -, -, -, rfl⟩ := installRuntimeStubs_ok hd
    exact slotsOk_clearDispatch d'
  · rintro s op t hreach hs ⟨-, rfl⟩
    exact hs.step (layout_of_reachable hreach) op

end CodeCache

/-! ## The emitted probe -/

inductive ProbeReg where
  | rax
  | rcx
  deriving DecidableEq, Repr

/-- The instructions of the probe.  `addTable` adds the pointer to the dispatch table, which the
context holds. -/
inductive ProbeInsn where
  | mov (dst src : ProbeReg)
  | shr (dst : ProbeReg) (n : Nat)
  | xor (dst src : ProbeReg)
  | and32 (dst : ProbeReg) (imm : U32)
  | shl32 (dst : ProbeReg) (n : Nat)
  | addTable (dst : ProbeReg)
  | cmpMem (base src : ProbeReg)
  | jneMiss
  | jmpMem (base : ProbeReg) (disp : U64)
  deriving DecidableEq, Repr

/-- Where the probe leaves to: the miss label or another block. -/
inductive ProbeExit where
  | miss
  | jump (target : U64)
  deriving DecidableEq, Repr

structure ProbeState where
  reg : ProbeReg → U64
  zf : Bool

def ProbeState.set (s : ProbeState) (dst : ProbeReg) (v : U64) : ProbeState :=
  { s with reg := Function.update s.reg dst v }

/-- Probe the table with the guest target in `RAX`. -/
def emitDispatchProbe : List ProbeInsn :=
  [.mov .rcx .rax, .shr .rcx dispatchBits, .xor .rcx .rax, .shr .rcx 2, .and32 .rcx 0xFFFF,
    .shl32 .rcx 4, .addTable .rcx, .cmpMem .rcx .rax, .jneMiss, .jmpMem .rcx 8]

namespace ProbeInsn

/-- Run the probe over 64-bit loads; a 32-bit operation clears the upper half of its register. -/
def exec (load : U64 → U64) (table : U64) : List ProbeInsn → ProbeState → Option ProbeExit
  | [], _ => none
  | mov dst src :: is, s => exec load table is (s.set dst (s.reg src))
  | shr dst n :: is, s => exec load table is (s.set dst (s.reg dst >>> n))
  | xor dst src :: is, s => exec load table is (s.set dst (s.reg dst ^^^ s.reg src))
  | and32 dst imm :: is, s =>
    exec load table is (s.set dst (((s.reg dst).setWidth 32 &&& imm).setWidth 64))
  | shl32 dst n :: is, s =>
    exec load table is (s.set dst (((s.reg dst).setWidth 32 <<< n).setWidth 64))
  | addTable dst :: is, s => exec load table is (s.set dst (s.reg dst + table))
  | cmpMem base src :: is, s => exec load table is { s with zf := load (s.reg base) == s.reg src }
  | jneMiss :: is, s => if s.zf then exec load table is s else some .miss
  | jmpMem base disp :: _, s => some (.jump (load (s.reg base + disp)))

end ProbeInsn

namespace CodeCache

variable {c c' : CodeCache}

/-- A 64-bit load from the array of slots at `table`: sixteen bytes a slot, the PC first. -/
def loadSlots (c : CodeCache) (table addr : U64) : U64 :=
  let off := (addr - table).toNat
  let slot := c.dispatch (off / 16)
  if off % 16 = 0 then slot.pc else BitVec.ofNat 64 slot.host

/-- Where the emitted probe goes for the target `pc`, whatever `RCX` and the flags were. -/
def probe (c : CodeCache) (table pc rcx : U64) (zf : Bool) : Option ProbeExit :=
  ProbeInsn.exec (c.loadSlots table) table emitDispatchProbe
    ⟨fun | .rax => pc | .rcx => rcx, zf⟩

/-- The register arithmetic of the probe computes the byte offset of the dispatcher's slot. -/
theorem probe_offset (pc : U64) :
    ((((((pc >>> dispatchBits) ^^^ pc) >>> 2).setWidth 32 &&& 0xFFFF#32).setWidth 64).setWidth 32
      <<< 4).setWidth 64 = BitVec.ofNat 64 (16 * dispatchIndex pc) := by
  have hfold : ((pc >>> dispatchBits) ^^^ pc) >>> 2
      = (pc >>> 2) ^^^ (pc >>> (2 + dispatchBits)) := by
    rw [BitVec.ushiftRight_xor_distrib, ← BitVec.shiftRight_add, BitVec.xor_comm, Nat.add_comm]
  have hle : dispatchIndex pc ≤ 0xFFFF := by
    rw [dispatchIndex, BitVec.toNat_and]
    exact Nat.and_le_right
  rw [hfold]
  apply BitVec.eq_of_toNat_eq
  have hx : (((pc >>> 2) ^^^ (pc >>> (2 + dispatchBits))).setWidth 32 &&& 0xFFFF#32).toNat
      = dispatchIndex pc := rfl
  rw [BitVec.toNat_setWidth, BitVec.toNat_shiftLeft, BitVec.toNat_setWidth, BitVec.toNat_setWidth,
    hx, BitVec.toNat_ofNat, Nat.shiftLeft_eq]
  omega

/-- **The probe reads the dispatcher's slot.**  It goes to the slot's host pointer when the slot
holds the target, and to the miss label otherwise. -/
theorem exec_emitDispatchProbe (c : CodeCache) (table pc rcx : U64) (zf : Bool) :
    c.probe table pc rcx zf = some (if (c.dispatch (dispatchIndex pc)).pc = pc
      then .jump (BitVec.ofNat 64 (c.dispatch (dispatchIndex pc)).host) else .miss) := by
  have hlt : 16 * dispatchIndex pc + 8 < 2 ^ 64 := by
    have hle : dispatchIndex pc ≤ 0xFFFF := by
      rw [dispatchIndex, BitVec.toNat_and]
      exact Nat.and_le_right
    omega
  have hload (k : Nat) (hk : k = 0 ∨ k = 8) :
      c.loadSlots table (BitVec.ofNat 64 (16 * dispatchIndex pc) + table + BitVec.ofNat 64 k)
        = if k = 0 then (c.dispatch (dispatchIndex pc)).pc
          else BitVec.ofNat 64 (c.dispatch (dispatchIndex pc)).host := by
    have hoff : (BitVec.ofNat 64 (16 * dispatchIndex pc) + table + BitVec.ofNat 64 k - table).toNat
        = 16 * dispatchIndex pc + k := by
      rw [BitVec.add_assoc, BitVec.add_comm table, ← BitVec.add_assoc, BitVec.add_sub_cancel,
        ← BitVec.ofNat_add, BitVec.toNat_ofNat, Nat.mod_eq_of_lt (by omega)]
    rw [loadSlots, hoff, show (16 * dispatchIndex pc + k) / 16 = dispatchIndex pc by omega,
      show (16 * dispatchIndex pc + k) % 16 = k by omega]
  have h0 := hload 0 (.inl rfl)
  have h8 := hload 8 (.inr rfl)
  rw [if_pos rfl, BitVec.add_zero] at h0
  rw [if_neg (by decide)] at h8
  have hrun : c.probe table pc rcx zf
      = if (c.loadSlots table (BitVec.ofNat 64 (16 * dispatchIndex pc) + table) == pc) = true
        then some (.jump (c.loadSlots table
          (BitVec.ofNat 64 (16 * dispatchIndex pc) + table + BitVec.ofNat 64 8)))
        else some .miss := by
    rw [← probe_offset]
    rfl
  rw [hrun, h0, h8]
  by_cases h : (c.dispatch (dispatchIndex pc)).pc = pc <;> simp [h]

end CodeCache

/-! ## The result -/

/-- What a lookup should find. -/
def Entry.toMeta (e : Entry) : DispatchMeta := ⟨e.hostPtr, e.guestInsns, e.thunkKind⟩

namespace CodeCache

variable {c : CodeCache}

/-- The lookup of `pc` answers with the hash map's entry, and the emitted probe misses (by the miss
label or through the miss stub) or goes to that entry's block. -/
def Coherent (c : CodeCache) (pc : U64) : Prop :=
  (c.lookupDispatchMeta pc).2 = (c.table pc).map Entry.toMeta ∧
    ∀ table rcx zf, c.probe table pc rcx zf = some .miss ∨
      c.probe table pc rcx zf = some (.jump (BitVec.ofNat 64 c.missStub)) ∨
      ∃ e, c.table pc = some e ∧
        c.probe table pc rcx zf = some (.jump (BitVec.ofNat 64 e.hostPtr))

/-- The probe never goes anywhere but to the block of the hash map. -/
theorem probe_coherent (h : SlotsOk c) (table pc rcx : U64) (zf : Bool) :
    c.probe table pc rcx zf = some .miss ∨
      c.probe table pc rcx zf = some (.jump (BitVec.ofNat 64 c.missStub)) ∨
      ∃ e, c.table pc = some e ∧
        c.probe table pc rcx zf = some (.jump (BitVec.ofNat 64 e.hostPtr)) := by
  rw [exec_emitDispatchProbe]
  by_cases hpc : (c.dispatch (dispatchIndex pc)).pc = pc
  · rw [if_pos hpc]
    rcases h (dispatchIndex pc) with hempty | ⟨e, h1, -, h3, -⟩
    · rw [hempty]
      exact .inr (.inl rfl)
    · rw [hpc] at h1
      rw [h3]
      exact .inr (.inr ⟨e, h1, rfl⟩)
  · rw [if_neg hpc]
    exact .inl rfl

/-- A lookup answers with the hash map's entry, unless it finds the marker in an empty slot. -/
theorem lookupDispatchMeta_eq (h : SlotsOk c) {pc : U64}
    (hne : ¬ (pc = emptyPc ∧ c.dispatch (dispatchIndex pc) = c.emptySlot)) :
    (c.lookupDispatchMeta pc).2 = (c.table pc).map Entry.toMeta := by
  rw [lookupDispatchMeta]
  split
  · rename_i hpc
    rcases h (dispatchIndex pc) with hempty | ⟨e, h1, -, h3, h4⟩
    · exact absurd ⟨by rw [← hpc, hempty]; rfl, hempty⟩ hne
    · rw [hpc] at h1
      rw [h1, h3, h4]
      rfl
  · rw [lookupMetaMiss]
    split
    · rename_i htable
      rw [htable]
      rfl
    · rename_i e htable
      rw [htable]
      rfl

/-- The marker in an empty slot leads to the miss stub. -/
theorem lookup_emptySlot {pc : U64}
    (h : pc = emptyPc ∧ c.dispatch (dispatchIndex pc) = c.emptySlot) :
    c.lookup pc = some c.missStub := by
  obtain ⟨rfl, hempty⟩ := h
  rw [lookup, lookupDispatchMeta, hempty, emptySlot, if_pos rfl]
  rfl

/-- **Dispatch coherence.**  In every reachable cache and for every PC, the lookup and the probe
agree with the hash map if and only if the PC is not the marker of an empty slot sitting in one. -/
theorem dispatch_coherent_iff {c : CodeCache} (h : system.Reachable c) (pc : U64) :
    c.Coherent pc ↔ ¬ (pc = emptyPc ∧ c.dispatch (dispatchIndex pc) = c.emptySlot) := by
  have hslots := slotsOk_of_reachable h
  have hlayout := layout_of_reachable h
  constructor
  · rintro ⟨hlookup, -⟩ ⟨rfl, hempty⟩
    rw [lookupDispatchMeta, hempty, emptySlot, if_pos rfl] at hlookup
    cases htable : c.table emptyPc with
    | none => simp [htable] at hlookup
    | some e =>
      have hlt := hlayout.stub_lt_host htable
      simp only [htable, Option.map_some, Option.some.injEq, Entry.toMeta,
        DispatchMeta.mk.injEq] at hlookup
      omega
  · intro hne
    exact ⟨lookupDispatchMeta_eq hslots hne, fun table rcx zf => probe_coherent hslots table pc rcx zf⟩

/-- In a new cache the lookup of the marker finds the miss stub, though nothing is cached. -/
theorem lookup_emptyPc_new : system.Reachable sampleCache ∧
    (sampleCache.lookupDispatchMeta emptyPc).2 = some ⟨0x10000010, 0, .full⟩ ∧
    sampleCache.contains emptyPc = false ∧ ¬ sampleCache.Coherent emptyPc := by
  refine ⟨reachable_sampleCache, rfl, rfl, ?_⟩
  rintro ⟨hlookup, -⟩
  cases hlookup

theorem dispatch_coherent_iff_new : sampleCache.Coherent 0x1000 := by
  refine (dispatch_coherent_iff reachable_sampleCache 0x1000).mpr ?_
  rintro ⟨h, -⟩
  revert h
  decide

end CodeCache

end Rustarmic
