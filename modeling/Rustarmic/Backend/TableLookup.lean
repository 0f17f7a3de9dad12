import Mathlib.Data.List.GetD
import Rustarmic.Backend.VectorShift

/-!
# Table lookups

`pshufb` looks a byte up in one register, and gives zero for an index with its top bit set.  The
code moves the indices that are in a register of the table to the range that `pshufb` looks up,
those beyond it past the top bit with a saturating addition, and masks those before it.

* `emitTbl` — the code for one, two and three registers.
* `chunkLanes`, `run_emitTblChunkOr` — one register of the table.
* `exists_emitOpVecTbl`, `exists_emitOpVecTbl2`, `exists_emitOpVecTbl3` — the code looks up every
  byte.
* `exists_emitOpVecCmhs8` — the comparison of unsigned bytes.
-/

set_option autoImplicit false

namespace Rustarmic

namespace TableLookup

open VectorCode Lanes Packed Optimizer

/-! ## The code -/

/-- The instructions that only table lookups use. -/
inductive Instr where
  | vec (i : VectorCode.Instr)
  | paddusb (dst src : Nat)
  | pshufb (dst src : Nat)
  deriving DecidableEq, Repr

def Instr.exec (m : Contents) : Instr → Contents
  | vec i => i.exec m
  | paddusb dst src => m.combine dst src Packed.paddusb
  | pshufb dst src => m.combine dst src Packed.pshufb

def run (code : List Instr) (m : Contents) : Contents := code.foldl Instr.exec m

@[simp] theorem run_nil (m : Contents) : run [] m = m := rfl

@[simp] theorem run_cons (i : Instr) (code : List Instr) (m : Contents) :
    run (i :: code) m = run code (i.exec m) := rfl

@[simp] theorem run_append (code code' : List Instr) (m : Contents) :
    run (code ++ code') m = run code' (run code m) := List.foldl_append

@[simp] theorem run_map_vec (code : List VectorCode.Instr) (m : Contents) :
    run (code.map .vec) m = VectorCode.run code m := by
  rw [run, List.foldl_map]
  rfl

@[simp] theorem exec_vec (i : VectorCode.Instr) (m : Contents) : (Instr.vec i).exec m = i.exec m := rfl

@[simp] theorem exec_paddusb (dst src : Nat) (m : Contents) (q : Place) :
    (Instr.paddusb dst src).exec m q =
      if q = .xmm dst then Packed.paddusb (m (.xmm dst)) (m (.xmm src)) else m q :=
  Contents.set_apply ..

@[simp] theorem exec_pshufb (dst src : Nat) (m : Contents) (q : Place) :
    (Instr.pshufb dst src).exec m q =
      if q = .xmm dst then Packed.pshufb (m (.xmm dst)) (m (.xmm src)) else m q :=
  Contents.set_apply ..

@[simp] theorem exec_psubusb (dst src : Nat) (m : Contents) (q : Place) :
    (VectorCode.Instr.psubusb dst src).exec m q =
      if q = .xmm dst then Packed.psubusb (m (.xmm dst)) (m (.xmm src)) else m q :=
  Contents.set_apply ..

def emitBroadcastByte (dst : Nat) (byte : U8) : List Instr :=
  [.vec (.broadcast dst (repeatByte byte))]

/-- A table of one register. -/
def emitOpVecTbl (locs : Nat → Loc) (a : Armlet) (d : Nat) : Option (List Instr) := do
  let working := workingXmmFor (locs d) 0
  let loadIndices ← intoXmmQ (locs (a.args.get 1)) 1
  let load ← intoXmmQ (locs (a.args.get 0)) working
  let store ← storeXmmQ (locs d) working
  pure (emitBroadcastByte 2 0x70#8 ++ loadIndices.map .vec ++ [.paddusb 1 2] ++ load.map .vec ++
    [.pshufb working 1] ++ (narrowForm a working ++ store).map .vec)

/-- Look up the indices from `chunkOffset` on in one register, and put the bytes in `working`. -/
def emitTblChunkOr (working table indices : Nat) (chunkOffset : U8) (pad scratchIdx scratchRes : Nat) :
    List Instr :=
  [.vec (.mov (.xmm scratchIdx) (.xmm indices))] ++
    (if 0 < chunkOffset then
      emitBroadcastByte scratchRes chunkOffset ++ [.vec (.psubusb scratchIdx scratchRes)]
    else []) ++
    [.paddusb scratchIdx pad, .vec (.mov (.xmm scratchRes) (.xmm table)),
      .pshufb scratchRes scratchIdx] ++
    if chunkOffset = 0 then [.vec (.por working scratchRes)]
    else
      [.vec (.mov (.xmm scratchIdx) (.xmm pad))] ++ emitBroadcastByte scratchIdx chunkOffset ++
        [.vec (.psubusb scratchIdx indices), .vec (.pxor pad pad), .vec (.pcmpeq 8 scratchIdx pad)] ++
        emitBroadcastByte pad 0x70#8 ++
        [.vec (.pand scratchRes scratchIdx), .vec (.por working scratchRes)]

/-- One register of the table, brought into `xmm3`. -/
def emitChunk (loc : Loc) (working : Nat) (chunkOffset : U8) : Option (List Instr) := do
  let (load, t) ← getXmmQ loc 3
  pure (load.map .vec ++ (if t ≠ 3 then [.vec (.mov (.xmm 3) (.xmm t))] else []) ++
    emitTblChunkOr working 3 1 chunkOffset 2 4 5)

def emitOpVecTbl2 (locs : Nat → Loc) (a : Armlet) (d : Nat) : Option (List Instr) := do
  let working := workingXmmFor (locs d) 0
  let loadIndices ← intoXmmQ (locs (a.args.get 2)) 1
  let chunk0 ← emitChunk (locs (a.args.get 0)) working 0
  let chunk1 ← emitChunk (locs (a.args.get 1)) working 16
  let store ← storeXmmQ (locs d) working
  pure (loadIndices.map .vec ++ emitBroadcastByte 2 0x70#8 ++ [.vec (.pxor working working)] ++ chunk0 ++
    chunk1 ++ (narrowForm a working ++ store).map .vec)

def emitOpVecTbl3 (locs : Nat → Loc) (a : Armlet) (d : Nat) : Option (List Instr) := do
  let working := workingXmmFor (locs d) 0
  let loadIndices ← intoXmmQ (locs (a.args.get 3)) 1
  let chunk0 ← emitChunk (locs (a.args.get 0)) working 0
  let chunk1 ← emitChunk (locs (a.args.get 1)) working 16
  let chunk2 ← emitChunk (locs (a.args.get 2)) working 32
  let store ← storeXmmQ (locs d) working
  pure (loadIndices.map .vec ++ emitBroadcastByte 2 0x70#8 ++ [.vec (.pxor working working)] ++ chunk0 ++
    chunk1 ++ chunk2 ++ (narrowForm a working ++ store).map .vec)

/-- The entries of the dispatch table for the lookups. -/
def emitTbl (locs : Nat → Loc) (a : Armlet) (d : Nat) : Option (List Instr) :=
  match a.op with
  | .vecTbl => emitOpVecTbl locs a d
  | .vecTbl2 => emitOpVecTbl2 locs a d
  | .vecTbl3 => emitOpVecTbl3 locs a d
  | _ => none

/-! ## Bytes -/

section bytes

/-- The bytes of `table` at the indices from `offset` on. -/
def chunkLanes (offset : Nat) (table indices : U128) : U128 :=
  ofLanes 128 8 fun k =>
    let i := (lane 8 indices k).toNat
    if offset ≤ i ∧ i < offset + 16 then lane 8 table (i - offset) else 0

/-- The bytes of several registers one after the other. -/
def tableLanes (tables : List U128) (indices : U128) : U128 :=
  ofLanes 128 8 fun k =>
    let i := (lane 8 indices k).toNat
    if i < 16 * tables.length then lane 8 (tables.getD (i / 16) 0) (i % 16) else 0

/-- One byte in every byte of a vector. -/
def allBytes (byte : U8) : U128 := (repeatByte byte ++ repeatByte byte : U128)

theorem lane_allBytes (byte : U8) {k : Nat} (hk : k < 16) : lane 8 (allBytes byte) k = byte := by
  refine BitVec.eq_of_getLsbD_eq fun i hi => ?_
  rw [getLsbD_lane, decide_eq_true hi, Bool.true_and, allBytes, Gfni.getLsbD_repeat byte hk hi]

theorem run_emitBroadcastByte (dst : Nat) (byte : U8) (m : Contents) (q : Place) :
    run (emitBroadcastByte dst byte) m q = if q = .xmm dst then allBytes byte else m q :=
  Contents.set_apply ..

/-- Where `0x70` more of an index points to. -/
theorem pad_index (i : U8) :
    let p := if BitVec.uaddOverflow i 0x70#8 then BitVec.allOnes 8 else i + 0x70#8
    p.msb = decide (16 ≤ i.toNat) ∧ (i.toNat < 16 → p.toNat % 16 = i.toNat) := by
  have hall : ∀ k < 256, let i := BitVec.ofNat 8 k
      let p := if BitVec.uaddOverflow i 0x70#8 then BitVec.allOnes 8 else i + 0x70#8
      p.msb = decide (16 ≤ i.toNat) ∧ (i.toNat < 16 → p.toNat % 16 = i.toNat) := by
    decide +kernel
  have h := hall i.toNat i.isLt
  rwa [BitVec.ofNat_toNat, BitVec.setWidth_eq] at h

/-- A lookup of indices that are padded. -/
theorem lane_pshufb_pad (table indices : U128) {k : Nat} (hk : k < 16) :
    lane 8 (Packed.pshufb table (Packed.paddusb indices (allBytes 0x70#8))) k =
      if (lane 8 indices k).toNat < 16 then lane 8 table (lane 8 indices k).toNat else 0 := by
  obtain ⟨hmsb, hlow⟩ := pad_index (lane 8 indices k)
  rw [Packed.pshufb, lane_ofLanes _ (by omega), Packed.paddusb, lane_zipLanes _ (by omega),
    lane_allBytes _ hk, hmsb]
  by_cases h : (lane 8 indices k).toNat < 16
  · rw [if_neg (by simpa using h), hlow h, if_pos h]
  · rw [if_pos (decide_eq_true (not_lt.mp h)), if_neg h]

/-- Indices from `offset` on, those before it as zero. -/
theorem psubusb_index (i offset : U8) :
    (if i.ult offset then 0 else i - offset).toNat = i.toNat - offset.toNat := by
  split_ifs with h
  · rw [BitVec.ult, decide_eq_true_eq] at h
    exact (Nat.sub_eq_zero_of_le h.le).symm
  · rw [BitVec.ult, decide_eq_true_eq, not_lt] at h
    rw [BitVec.toNat_sub_of_le h]

/-- The mask of the indices that are not before `offset`. -/
theorem pcmpeqb_index (i offset : U8) :
    fill 8 ((if offset.ult i then 0 else offset - i) == 0#8) = fill 8 (decide (offset.toNat ≤ i.toNat)) := by
  have h := psubusb_index offset i
  congr 1
  rw [Bool.eq_iff_iff, beq_iff_eq, decide_eq_true_eq, ← BitVec.toNat_inj, h, BitVec.toNat_ofNat]
  omega

theorem and_fill (x : U8) (p : Bool) : x &&& fill 8 p = if p then x else 0 := by
  rw [fill]
  cases p with
  | true => rw [if_pos rfl, if_pos rfl, BitVec.and_allOnes]
  | false =>
    rw [if_neg Bool.false_ne_true, if_neg Bool.false_ne_true]
    exact BitVec.and_zero

theorem chunk_zero (table indices : U128) :
    Packed.pshufb table (Packed.paddusb indices (allBytes 0x70#8)) = chunkLanes 0 table indices := by
  refine ext_lane (w := 8) (by decide) fun k hk => ?_
  rw [lane_pshufb_pad _ _ (by omega), chunkLanes, lane_ofLanes _ (by omega)]
  simp

/-- The bytes before the chunk are masked, those beyond it are zero already. -/
theorem chunk_masked (table indices : U128) (offset : U8) :
    Packed.pshufb table
        (Packed.paddusb (Packed.psubusb indices (allBytes offset)) (allBytes 0x70#8)) &&&
      Packed.pcmpeq 8 (Packed.psubusb (allBytes offset) indices) 0#128 =
      chunkLanes offset.toNat table indices := by
  refine ext_lane (w := 8) (by decide) fun k hk => ?_
  have hzero : lane 8 0#128 k = 0#8 := by
    ext i hi
    simp [lane]
  rw [lane_and, lane_pshufb_pad _ _ (by omega), Packed.pcmpeq, lane_zipLanes _ (by omega), hzero,
    Packed.psubusb, Packed.psubusb, lane_zipLanes _ (by omega), lane_zipLanes _ (by omega),
    lane_allBytes _ (by omega), pcmpeqb_index, psubusb_index, and_fill, chunkLanes,
    lane_ofLanes _ (by omega)]
  dsimp only
  split_ifs with h1 h2 h3 h3 h3
  all_goals first | rfl | (simp at *; omega)

end bytes

/-! ## One register of the table -/

theorem run_emitTblChunkOr {working : Nat} (hw : ∀ r, 0 < r → r < 6 → working ≠ r) (offset : U8)
    {m : Contents} (hpad : m (.xmm 2) = allBytes 0x70#8) :
    run (emitTblChunkOr working 3 1 offset 2 4 5) m (.xmm working) =
        m (.xmm working) ||| chunkLanes offset.toNat (m (.xmm 3)) (m (.xmm 1)) ∧
      ∀ q, q ≠ .xmm working → q ≠ .xmm 4 → q ≠ .xmm 5 →
        run (emitTblChunkOr working 3 1 offset 2 4 5) m q = m q := by
  have h2 := hw 2 (by decide) (by decide)
  have h4 := hw 4 (by decide) (by decide)
  have h5 := hw 5 (by decide) (by decide)
  by_cases hzero : offset = 0
  · subst hzero
    have hlook := chunk_zero (m (.xmm 3)) (m (.xmm 1))
    constructor
    · simp only [emitTblChunkOr, BitVec.lt_irrefl, if_false, if_true, List.append_nil, run_append,
        run_cons, run_nil, exec_vec, exec_mov, exec_paddusb, exec_pshufb, exec_por, hpad]
      simp [h4, h5, hlook]
    · intro q hq hq4 hq5
      simp [emitTblChunkOr, hq, hq4, hq5]
  · have hpos : 0 < offset := by
      rw [BitVec.lt_def]
      exact Nat.pos_of_ne_zero fun h => hzero (BitVec.eq_of_toNat_eq h)
    have hlook := chunk_masked (m (.xmm 3)) (m (.xmm 1)) offset
    constructor
    · simp only [emitTblChunkOr, if_pos hpos, if_neg hzero, run_append, run_emitBroadcastByte,
        run_cons, run_nil, exec_vec, exec_mov, exec_paddusb, exec_pshufb, exec_por, exec_pand,
        exec_psubusb, exec_pcmpeq, exec_pxor, hpad]
      simp [h2, h4, h5, hlook]
    · intro q hq hq4 hq5
      simp only [emitTblChunkOr, if_pos hpos, if_neg hzero, run_append, run_emitBroadcastByte,
        run_cons, run_nil, exec_vec, exec_mov, exec_paddusb, exec_pshufb, exec_por, exec_pand,
        exec_psubusb, exec_pcmpeq, exec_pxor, hpad]
      by_cases hq2 : q = .xmm 2
      · simp [hq2, hpad, h2.symm]
      · simp [hq, hq4, hq5, hq2]

theorem exists_emitChunk {loc : Loc} {p : Place} (hp : VectorAt loc p) {working : Nat}
    (hw : ∀ r, 0 < r → r < 6 → working ≠ r) (offset : U8) :
    ∃ code, emitChunk loc working offset = some code ∧ ∀ m, m (.xmm 2) = allBytes 0x70#8 →
      run code m (.xmm working) =
          m (.xmm working) ||| chunkLanes offset.toNat (m p) (m (.xmm 1)) ∧
        ∀ q, q ≠ .xmm working → q ∉ [.xmm 3, .xmm 4, .xmm 5] → run code m q = m q := by
  obtain ⟨load, t, hload, ht, hrun⟩ := exists_getXmmQ hp.place 3
  refine ⟨load.map .vec ++ (if t ≠ 3 then [.vec (.mov (.xmm 3) (.xmm t))] else []) ++
    emitTblChunkOr working 3 1 offset 2 4 5, ?_, fun m hpad => ?_⟩
  · rw [emitChunk, hload]
    rfl
  · have hw3 := hw 3 (by decide) (by decide)
    -- The register of the table is in `xmm3`, and nothing else has changed.
    have hstart (q : Place) : run (load.map .vec ++
        (if t ≠ 3 then [.vec (.mov (.xmm 3) (.xmm t))] else [])) m q =
        if q = .xmm 3 then m p else m q := by
      obtain ⟨hval, hkeep⟩ := hrun m
      rw [run_append, run_map_vec]
      split_ifs with ht3 hq hq
      · simp [hq, hval]
      · simp [hq, hkeep q hq]
      · rw [not_not] at ht3
        rw [run_nil, hq, ← ht3, hval]
      · rw [run_nil, hkeep q hq]
    rw [run_append]
    generalize run (load.map .vec ++ _) m = m₁ at hstart ⊢
    obtain ⟨hworking, hkeep⟩ := run_emitTblChunkOr hw offset (m := m₁)
      (by rw [hstart, if_neg (by decide), hpad])
    constructor
    · rw [hworking, hstart, hstart, hstart, if_neg fun h => hw3 (Place.xmm.inj h), if_pos rfl,
        if_neg (by decide)]
    · intro q hq hscratch
      simp only [List.mem_cons, List.not_mem_nil, or_false, not_or] at hscratch
      rw [hkeep q hq hscratch.2.1 hscratch.2.2, hstart, if_neg hscratch.1]

/-! ## The lookups -/

section lookups

variable {locs : Nat → Loc} {a : Armlet} {d : Nat} {pa pb pc pi pd : Place}

theorem run_finish (hd : VectorAt (locs d) pd) :
    ∃ store, storeXmmQ (locs d) (workingXmmFor (locs d) 0) = some store ∧ ∀ m,
      run ((narrowForm a (workingXmmFor (locs d) 0) ++ store).map .vec) m pd =
        form a (m (.xmm (workingXmmFor (locs d) 0))) := by
  obtain ⟨store, hstore, hfinish⟩ := exists_finish (a := a) hd (workingXmmFor (locs d) 0)
  exact ⟨store, hstore, fun m => by rw [run_map_vec, hfinish]⟩

theorem chunkLanes_one (x indices : U128) : chunkLanes 0 x indices = tableLanes [x] indices := by
  refine congrArg (ofLanes 128 8) (funext fun k => ?_)
  simp only [Nat.zero_le, true_and, Nat.zero_add, List.length_singleton, Nat.mul_one, Nat.sub_zero]
  split_ifs with h
  · rw [Nat.div_eq_of_lt h, Nat.mod_eq_of_lt h]
    rfl
  · rfl

/-- One more register. -/
theorem tableLanes_append (l : List U128) (x indices : U128) :
    tableLanes l indices ||| chunkLanes (16 * l.length) x indices = tableLanes (l ++ [x]) indices := by
  refine ext_lane (w := 8) (by decide) fun k hk => ?_
  rw [lane_or, tableLanes, chunkLanes, tableLanes, lane_ofLanes _ (by omega), lane_ofLanes _ (by omega),
    lane_ofLanes _ (by omega)]
  dsimp only
  rw [List.length_append, List.length_singleton]
  generalize (lane 8 indices k).toNat = i
  by_cases h1 : i < 16 * l.length
  · rw [if_pos h1, if_neg (by omega), if_pos (by omega), List.getD_append _ _ _ _ (by omega)]
    exact BitVec.or_zero
  · rw [if_neg h1]
    by_cases h2 : i < 16 * l.length + 16
    · rw [if_pos ⟨by omega, h2⟩, if_pos (by omega), (by omega : i / 16 = l.length),
        List.getD_append_right _ _ _ _ (le_refl _), (by omega : i - 16 * l.length = i % 16)]
      simp
    · rw [if_neg (by omega), if_neg (by omega)]
      exact BitVec.or_zero

/-- The registers `l` of the table have been looked up. -/
structure Looking (m : Contents) (working : Nat) (indices : U128) (l : List U128) (m' : Contents) :
    Prop where
  result : m' (.xmm working) = tableLanes l indices
  indices : m' (.xmm 1) = indices
  pad : m' (.xmm 2) = allBytes 0x70#8
  keeps : ∀ q, q ≠ .xmm working → (∀ r < 6, q ≠ .xmm r) → m' q = m q

theorem looking_start {loc : Loc} (hi : VectorAt loc pi) {working : Nat}
    (hw : ∀ r, 0 < r → r < 6 → working ≠ r) :
    ∃ load, intoXmmQ loc 1 = some load ∧ ∀ m, Looking m working (m pi) []
      (run (load.map .vec ++ emitBroadcastByte 2 0x70#8 ++ [.vec (.pxor working working)]) m) := by
  obtain ⟨load, hload, hrun⟩ := exists_intoXmmQ hi.place 1
  have h1 : Place.xmm 1 ≠ .xmm working := fun h => hw 1 (by decide) (by decide) (Place.xmm.inj h).symm
  have h2 : Place.xmm 2 ≠ .xmm working := fun h => hw 2 (by decide) (by decide) (Place.xmm.inj h).symm
  have hstart (m : Contents) (q : Place) :
      run (load.map .vec ++ emitBroadcastByte 2 0x70#8 ++ [.vec (.pxor working working)]) m q =
        if q = .xmm working then 0 else if q = .xmm 2 then allBytes 0x70#8
        else if q = .xmm 1 then m pi else m q := by
    simp only [run_append, run_cons, run_nil, exec_vec, exec_pxor, run_emitBroadcastByte, run_map_vec,
      hrun, BitVec.xor_self]
    rfl
  refine ⟨load, hload, fun m => ⟨?_, ?_, ?_, fun q hq hs => ?_⟩⟩
  · rw [hstart, if_pos rfl, tableLanes]
    refine (ext_lane (w := 8) (by decide) fun k hk => ?_).symm
    rw [lane_ofLanes _ (by omega)]
    ext i hi
    simp [lane]
  · rw [hstart, if_neg h1, if_neg (by decide), if_pos rfl]
  · rw [hstart, if_neg h2, if_pos rfl]
  · rw [hstart, if_neg hq, if_neg (hs 2 (by decide)), if_neg (hs 1 (by decide))]

theorem looking_chunk {working : Nat} {loc : Loc} {p : Place} (hp : VectorAt loc p)
    (hne : p ≠ .xmm working) (hw : ∀ r, 0 < r → r < 6 → working ≠ r) (offset : U8) :
    ∃ code, emitChunk loc working offset = some code ∧ ∀ m indices l m',
      Looking m working indices l m' → offset.toNat = 16 * l.length →
        Looking m working indices (l ++ [m p]) (run code m') := by
  obtain ⟨code, hcode, hrun⟩ := exists_emitChunk hp hw offset
  have h1 : Place.xmm 1 ≠ .xmm working := fun h => hw 1 (by decide) (by decide) (Place.xmm.inj h).symm
  have h2 : Place.xmm 2 ≠ .xmm working := fun h => hw 2 (by decide) (by decide) (Place.xmm.inj h).symm
  refine ⟨code, hcode, fun m indices l m' h hoffset => ?_⟩
  obtain ⟨hresult, hkeep⟩ := hrun m' h.pad
  refine ⟨?_, ?_, ?_, fun q hq hs => ?_⟩
  · rw [hresult, h.result, h.indices, h.keeps p hne fun r hr => hp.ne_scratch hr, hoffset,
      tableLanes_append]
  · rw [hkeep _ h1 (by decide), h.indices]
  · rw [hkeep _ h2 (by decide), h.pad]
  · rw [hkeep q hq ?_, h.keeps q hq hs]
    simp [hs 3 (by decide), hs 4 (by decide), hs 5 (by decide)]

theorem exists_emitOpVecTbl (ha : VectorAt (locs (a.args.get 0)) pa)
    (hi : VectorAt (locs (a.args.get 1)) pi) (hd : VectorAt (locs d) pd) :
    ∃ code, emitOpVecTbl locs a d = some code ∧
      ∀ m, run code m pd = form a (tableLanes [m pa] (m pi)) := by
  obtain ⟨store, hstore, hfinish⟩ := run_finish (a := a) hd
  obtain ⟨loadIndices, hloadIndices, hrunIndices⟩ := exists_intoXmmQ hi.place 1
  obtain ⟨load, hload, hrunLoad⟩ := exists_intoXmmQ ha.place (workingXmmFor (locs d) 0)
  have hw := hd.working.2 1 (by decide) (by decide)
  rw [emitOpVecTbl]
  generalize workingXmmFor (locs d) 0 = working at *
  refine ⟨_, by rw [hloadIndices, hload, hstore]; rfl, fun m => ?_⟩
  rw [run_append, hfinish]
  have hw' : Place.xmm 1 ≠ .xmm working := fun h => hw (Place.xmm.inj h).symm
  have hi2 := hi.ne_scratch (by decide : 2 < 6)
  have ha1 := ha.ne_scratch (by decide : 1 < 6)
  have ha2 := ha.ne_scratch (by decide : 2 < 6)
  simp only [run_append, run_cons, run_nil, exec_pshufb, exec_paddusb, run_map_vec, hrunLoad,
    hrunIndices, run_emitBroadcastByte, if_true, if_neg hw', if_neg hi2, if_neg ha1, if_neg ha2,
    if_neg (by decide : Place.xmm 2 ≠ .xmm 1), chunk_zero, chunkLanes_one]

theorem exists_emitOpVecTbl2 (ha : VectorAt (locs (a.args.get 0)) pa)
    (hb : VectorAt (locs (a.args.get 1)) pb) (hi : VectorAt (locs (a.args.get 2)) pi)
    (hd : VectorAt (locs d) pd) (hpa : pa ≠ pd) (hpb : pb ≠ pd) :
    ∃ code, emitOpVecTbl2 locs a d = some code ∧
      ∀ m, run code m pd = form a (tableLanes [m pa, m pb] (m pi)) := by
  obtain ⟨store, hstore, hfinish⟩ := run_finish (a := a) hd
  have hw := hd.working.2
  have hwa := hd.ne_working ha hpa
  have hwb := hd.ne_working hb hpb
  rw [emitOpVecTbl2]
  generalize workingXmmFor (locs d) 0 = working at *
  obtain ⟨load, hload, hstart⟩ := looking_start hi hw
  obtain ⟨chunk0, hchunk0, hlook0⟩ := looking_chunk ha hwa hw 0
  obtain ⟨chunk1, hchunk1, hlook1⟩ := looking_chunk hb hwb hw 16
  refine ⟨_, by rw [hload, hchunk0, hchunk1, hstore]; rfl, fun m => ?_⟩
  have h := hlook1 _ _ _ _ (hlook0 _ _ _ _ (hstart m) rfl) rfl
  rw [run_append, hfinish, run_append, run_append, h.result]
  rfl

theorem exists_emitOpVecTbl3 (ha : VectorAt (locs (a.args.get 0)) pa)
    (hb : VectorAt (locs (a.args.get 1)) pb) (hc : VectorAt (locs (a.args.get 2)) pc)
    (hi : VectorAt (locs (a.args.get 3)) pi) (hd : VectorAt (locs d) pd) (hpa : pa ≠ pd)
    (hpb : pb ≠ pd) (hpc : pc ≠ pd) :
    ∃ code, emitOpVecTbl3 locs a d = some code ∧
      ∀ m, run code m pd = form a (tableLanes [m pa, m pb, m pc] (m pi)) := by
  obtain ⟨store, hstore, hfinish⟩ := run_finish (a := a) hd
  have hw := hd.working.2
  have hwa := hd.ne_working ha hpa
  have hwb := hd.ne_working hb hpb
  have hwc := hd.ne_working hc hpc
  rw [emitOpVecTbl3]
  generalize workingXmmFor (locs d) 0 = working at *
  obtain ⟨load, hload, hstart⟩ := looking_start hi hw
  obtain ⟨chunk0, hchunk0, hlook0⟩ := looking_chunk ha hwa hw 0
  obtain ⟨chunk1, hchunk1, hlook1⟩ := looking_chunk hb hwb hw 16
  obtain ⟨chunk2, hchunk2, hlook2⟩ := looking_chunk hc hwc hw 32
  refine ⟨_, by rw [hload, hchunk0, hchunk1, hchunk2, hstore]; rfl, fun m => ?_⟩
  have h := hlook2 _ _ _ _ (hlook1 _ _ _ _ (hlook0 _ _ _ _ (hstart m) rfl) rfl) rfl
  rw [run_append, hfinish, run_append, run_append, run_append, h.result]
  rfl

/-- The bytes that are not below those of the second operand; the difference the other way is
zero. -/
def geBytes (x y : U128) : U128 := zipLanes 8 (fun a b => fill 8 (decide (b.toNat ≤ a.toNat))) x y

theorem exists_emitOpVecCmhs8 (ha : VectorAt (locs (a.args.get 0)) pa)
    (hb : VectorAt (locs (a.args.get 1)) pb) (hd : VectorAt (locs d) pd) (hpa : pa ≠ pd)
    (hlane : a.op.sizeLog2 = 0) :
    ∃ code, emitOpVecCmhs locs a d = some code ∧
      ∀ m, VectorCode.run code m pd = form a (geBytes (m pa) (m pb)) := by
  obtain ⟨load, loadRhs, rhs, hload, hget, -, hrun⟩ := @exists_load locs d pd
    (locs (unsignedOperands a true).1) (locs (unsignedOperands a true).2) _ _ hb ha hd hpa
  obtain ⟨store, hstore, hfinish⟩ := exists_finish (a := a) hd (workingXmmFor (locs d) 0)
  have hw := hd.working.2 2 (by decide) (by decide)
  unfold emitOpVecCmhs emitUnsignedCmp
  dsimp only
  rw [if_pos hlane]
  generalize workingXmmFor (locs d) 0 = working at *
  refine ⟨load ++ loadRhs ++ [.psubusb working rhs, .pxor 2 2, .pcmpeq 8 working 2] ++ [] ++
    narrowForm a working ++ store, ?_, fun m => ?_⟩
  · rw [hload, hget, hstore]
    rfl
  · have hw' : Place.xmm working ≠ .xmm 2 := fun h => hw (Place.xmm.inj h)
    rw [List.append_assoc, VectorCode.run_append, hfinish, List.append_nil, VectorCode.run_append,
      VectorCode.run_append]
    simp only [VectorCode.run_cons, VectorCode.run_nil, exec_pcmpeq, exec_pxor, exec_psubusb, if_true,
      if_neg hw', hrun, BitVec.xor_self]
    refine congrArg (form a) (ext_lane (w := 8) (by decide) fun k hk => ?_)
    have hzero : lane 8 0#128 k = 0#8 := by
      ext i hi
      simp [lane]
    rw [Packed.pcmpeq, geBytes, lane_zipLanes _ (by omega), lane_zipLanes _ (by omega), hzero,
      Packed.psubusb, lane_zipLanes _ (by omega), pcmpeqb_index]

end lookups

end TableLookup

end Rustarmic
