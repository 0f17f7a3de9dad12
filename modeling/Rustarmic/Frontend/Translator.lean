import Rustarmic.Error
import Rustarmic.Ir.Block
import Rustarmic.Lib.Wrapping

/-!
# Translating a block

`translateBlockInto` fetches and translates one guest instruction after another.  With
`multiblock` it goes on through direct branches whose target is not in the block yet, so a block
can cover several guest ranges, and rolls the last followed branch back when something after it
cannot be translated.

* `InstTranslator` — the translation of one instruction, a parameter: it appends nodes and may set
  the terminal.
* `Translation.step`, `Translation.loop`, `translateBlockInto` — the loop of the source.
* `Straight` — what a finished block looks like: its ranges and its instructions are the same
  straight runs of code.  `straight_translateBlockInto` shows it of every translated block.

The field `insts` is a log of the instructions of the block; no operation reads it.
-/

set_option autoImplicit false

namespace Rustarmic

open Wrapping

/-! ## The loop -/

inductive InstStatus where
  | continues
  | terminator
  deriving DecidableEq, Repr

structure TranslateOptions where
  maxInsts : U32
  multiblock : Bool
  deriving DecidableEq, Repr

/-- The options of a default configuration. -/
instance : Inhabited TranslateOptions := ⟨⟨64, true⟩⟩

/-- How one instruction at a PC is translated at the end of a block.  No translator of the source
touches the ranges or the instruction count. -/
structure InstTranslator where
  translateInstruction : Block → U64 → U32 → Block × Except Error InstStatus
  ranges_eq : ∀ b pc inst, (translateInstruction b pc inst).1.ranges = b.ranges
  cycles_eq : ∀ b pc inst, (translateInstruction b pc inst).1.cycles = b.cycles

/-- An instruction of a block: its PC and the start of the straight run it was reached in. -/
structure TranslatedInst where
  pc : U64
  runStart : U64
  deriving DecidableEq, Repr

/-- State right after the last followed branch. -/
structure Followed where
  mark : Nat × Nat
  cycles : U32
  rangesBefore : Nat
  terminal : Terminal
  branchPc : U64
  insts : List TranslatedInst
  deriving DecidableEq, Repr

/-- The variables of the loop; `memory` is what the fetch function keeps between calls. -/
structure Translation (σ : Type) where
  block : Block
  memory : σ
  pc : U64
  segStart : U64
  followed : Option Followed
  insts : List TranslatedInst

/-- Whether `pc` is in a range of the block or in the current segment. -/
def covered (block : Block) (segStart segEnd pc : U64) : Bool :=
  (segStart ≤ pc && pc < segEnd) || block.ranges.any fun r => r.1 ≤ pc && pc < r.2

/-- `saturating_add(1)`. -/
def saturatingSucc (n : U32) : U32 := if n = BitVec.allOnes 32 then n else n + 1

namespace Translation

variable {σ : Type}

/-- Continue at the target of the direct branch that ends the segment. -/
def follow (t : Translation σ) (segEnd target : U64) : Translation σ :=
  { t with
    block := { t.block with
      ranges := t.block.ranges ++ [(t.segStart, segEnd)], terminal := .invalid }
    followed := some ⟨t.block.mark, t.block.cycles, t.block.ranges.length, t.block.terminal, t.pc,
      t.insts⟩
    pc := target
    segStart := target }

/-- End the block after a terminator. -/
def stop (t : Translation σ) (segEnd : U64) : Translation σ :=
  { t with block := { t.block with
      endPc := segEnd, ranges := t.block.ranges ++ [(t.segStart, segEnd)] } }

/-- After a terminator: follow the branch or end the block.  The flag says that the block ended. -/
def terminate (t : Translation σ) (opts : TranslateOptions) (max : U32) : Translation σ × Bool :=
  let segEnd := t.pc + 4
  match t.block.terminal with
  | .directBranch target _ =>
    if opts.multiblock && t.block.cycles < max && (target &&& 3 == 0)
        && !covered t.block t.segStart segEnd target then
      (t.follow segEnd target, false)
    else (t.stop segEnd, true)
  | _ => (t.stop segEnd, true)

/-- The block after one more instruction. -/
def count (t : Translation σ) (block : Block) : Translation σ :=
  { t with
    block := { block with cycles := saturatingSucc block.cycles }
    insts := t.insts ++ [⟨t.pc, t.segStart⟩] }

/-- One turn of the loop.  The flag says that the block ended. -/
def step (T : InstTranslator) (fetch : U64 → σ → Option U32 × σ) (opts : TranslateOptions)
    (max : U32) (t : Translation σ) : Translation σ × Except Error Bool :=
  let fetched := fetch t.pc t.memory
  let t := { t with memory := fetched.2 }
  match fetched.1 with
  | none => (t, .error (.guestMemory t.pc))
  | some inst =>
    let translated := T.translateInstruction t.block t.pc inst
    match translated.2 with
    | .error e => ({ t with block := translated.1 }, .error e)
    | .ok status =>
      let t := t.count translated.1
      match status with
      | .continues => ({ t with pc := t.pc + 4 }, .ok false)
      | .terminator =>
        let ended := t.terminate opts max
        (ended.1, .ok ended.2)

/-- The loop, for at most `n` turns. -/
def loop (T : InstTranslator) (fetch : U64 → σ → Option U32 × σ) (opts : TranslateOptions)
    (max : U32) : Nat → Translation σ → Translation σ × Except Error Bool
  | 0, t => (t, .ok false)
  | n + 1, t =>
    if t.block.cycles < max then
      match t.step T fetch opts max with
      | (t, .ok false) => loop T fetch opts max n t
      | (t, r) => (t, r)
    else (t, .ok false)

/-- The instruction cap was reached. -/
def link (t : Translation σ) : Translation σ :=
  let ranges := if t.pc ≠ t.segStart ∨ t.block.ranges = [] then
    t.block.ranges ++ [(t.segStart, t.pc)] else t.block.ranges
  { t with block := { t.block with endPc := t.pc, ranges, terminal := .linkBlock t.pc } }

/-- Drop everything after the last followed branch and end the block there. -/
def undo (t : Translation σ) (f : Followed) : Translation σ :=
  let block := t.block.rollback f.mark
  { t with
    block := { block with
      cycles := f.cycles
      terminal := f.terminal
      endPc := f.branchPc + 4
      ranges := block.ranges.take (f.rangesBefore + 1) }
    insts := f.insts }

/-- What the result of the loop is turned into. -/
def finish (t : Translation σ) : Except Error Bool → Translation σ × Except Error Unit
  | .ok true => (t, .ok ())
  | .ok false => (t.link, .ok ())
  | .error e =>
    match t.followed with
    | none => (t, .error e)
    | some f => (t.undo f, .ok ())

end Translation

/-- Translate guest code from `startPc` into `block`.  The loop makes at most as many turns as the
instruction cap allows (`Translation.loop_succ`). -/
def translateBlockInto {σ : Type} (T : InstTranslator) (block : Block) (startPc : U64)
    (fetch : U64 → σ → Option U32 × σ) (memory : σ) (opts : TranslateOptions) :
    Translation σ × Except Error Unit :=
  let max := if opts.maxInsts = 0 then 1 else opts.maxInsts
  let ended := Translation.loop T fetch opts max max.toNat
    ⟨block.reset startPc, memory, startPc, startPc, none, []⟩
  ended.1.finish ended.2

/-! ## Straight runs -/

/-- The range of `r.2` instructions from `r.1` on, as the loop records it. -/
def runRange (r : U64 × Nat) : U64 × U64 := (r.1, r.1 + BitVec.ofNat 64 (4 * r.2))

/-- The instructions of a straight run. -/
def runInsts (r : U64 × Nat) : List TranslatedInst :=
  (List.range r.2).map fun k => ⟨r.1 + BitVec.ofNat 64 (4 * k), r.1⟩

/-- The ranges and the instructions of a block are those of the straight runs `runs`. -/
structure Straight (runs : List (U64 × Nat)) (ranges : List (U64 × U64))
    (insts : List TranslatedInst) : Prop where
  ne_nil : runs ≠ []
  ranges_eq : ranges = runs.map runRange
  insts_eq : insts = runs.flatMap runInsts
  pos : ∀ r ∈ runs, 0 < r.2
  short : insts.length < 2 ^ 32

theorem runInsts_length (r : U64 × Nat) : (runInsts r).length = r.2 := by
  simp [runInsts]

theorem runInsts_succ (s : U64) (m : Nat) :
    runInsts (s, m + 1) = runInsts (s, m) ++ [⟨s + BitVec.ofNat 64 (4 * m), s⟩] := by
  simp [runInsts, List.range_succ]

theorem add_ofNat_succ (s : U64) (m : Nat) :
    s + BitVec.ofNat 64 (4 * m) + 4 = s + BitVec.ofNat 64 (4 * (m + 1)) := by
  rw [BitVec.add_assoc, Nat.mul_succ, BitVec.ofNat_add]
  rfl

theorem Block.rollback_ranges (b : Block) (m : Nat × Nat) : (b.rollback m).ranges = b.ranges := by
  rw [Block.rollback]
  split <;> rfl

theorem Block.push_ranges (b : Block) (a : Armlet) : (b.push a).1.ranges = b.ranges := by
  rw [Block.push, Block.linkNext]
  split <;> rfl

theorem Block.push_cycles (b : Block) (a : Armlet) : (b.push a).1.cycles = b.cycles := by
  rw [Block.push, Block.linkNext]
  split <;> rfl

namespace Translation

variable {σ : Type}

/-- `b` is a byte of an instruction of the block. -/
def HasByte (t : Translation σ) (b : U64) : Prop := ∃ i ∈ t.insts, InSpan i.pc 4 b

/-- `b` is a byte of an instruction of the block and not below the start of its run. -/
def Recorded (t : Translation σ) (b : U64) : Prop :=
  ∃ i ∈ t.insts, i.runStart ≤ b ∧ InSpan i.pc 4 b

end Translation

namespace Straight

variable {σ : Type} {runs : List (U64 × Nat)} {ranges : List (U64 × U64)}
  {insts : List TranslatedInst} {t : Translation σ} {b : U64}

theorem lt (h : Straight runs ranges insts) {r : U64 × Nat} (hr : r ∈ runs) : r.2 < 2 ^ 32 := by
  have hsub := (List.sublist_flatten_of_mem (List.mem_map_of_mem (f := runInsts) hr)).length_le
  rw [runInsts_length, ← List.flatMap_def, ← h.insts_eq] at hsub
  exact hsub.trans_lt h.short

theorem exists_inst_iff (h : Straight runs ranges insts) {P : TranslatedInst → Prop} :
    (∃ i ∈ insts, P i) ↔ ∃ r ∈ runs, ∃ k < r.2, P ⟨r.1 + BitVec.ofNat 64 (4 * k), r.1⟩ := by
  rw [h.insts_eq]
  simp only [List.mem_flatMap, runInsts, List.mem_map, List.mem_range]
  constructor
  · rintro ⟨_, ⟨r, hr, k, hk, rfl⟩, hi⟩
    exact ⟨r, hr, k, hk, hi⟩
  · rintro ⟨r, hr, k, hk, hi⟩
    exact ⟨_, ⟨r, hr, k, hk, rfl⟩, hi⟩

theorem hasByte_iff (h : Straight runs t.block.ranges t.insts) :
    t.HasByte b ↔ ∃ r ∈ runs, InSpan r.1 (4 * r.2) b := by
  rw [Translation.HasByte, h.exists_inst_iff]
  refine exists_congr fun r => and_congr_right fun hr => ?_
  have hlt := h.lt hr
  rw [inSpan_mul_iff (by decide) (by omega)]

/-- The recorded bytes are those of the runs that have not wrapped yet. -/
theorem recorded_iff (h : Straight runs t.block.ranges t.insts) :
    t.Recorded b ↔ ∃ r ∈ runs, r.1 ≤ b ∧ InSpan r.1 (4 * r.2) b := by
  rw [Translation.Recorded, h.exists_inst_iff]
  refine exists_congr fun r => and_congr_right fun hr => ?_
  have hlt := h.lt hr
  rw [inSpan_mul_iff (by decide) (by omega)]
  exact ⟨fun ⟨k, hk, h1, h2⟩ => ⟨h1, k, hk, h2⟩, fun ⟨h1, k, hk, h2⟩ => ⟨k, hk, h1, h2⟩⟩

/-- A block has fewer bytes than there are addresses. -/
theorem exists_not_hasByte (h : Straight runs t.block.ranges t.insts) :
    ∃ x, x ≠ BitVec.allOnes 64 ∧ ¬ t.HasByte x := by
  have hlen : (BitVec.allOnes 64 :: t.insts.flatMap fun i =>
      (List.range 4).map fun k => i.pc + BitVec.ofNat 64 k).length < 2 ^ 64 := by
    have hshort := h.short
    rw [List.length_cons, List.length_flatMap]
    simp only [List.length_map, List.length_range, List.map_const', List.sum_replicate_nat]
    omega
  obtain ⟨x, hx⟩ := exists_notMem _ hlen
  rw [List.mem_cons, not_or] at hx
  refine ⟨x, hx.1, ?_⟩
  rintro ⟨i, hi, hspan⟩
  refine hx.2 (List.mem_flatMap.mpr ⟨i, hi, List.mem_map.mpr ⟨_, List.mem_range.mpr hspan, ?_⟩⟩)
  rw [BitVec.ofNat_toNat, BitVec.setWidth_eq, BitVec.add_comm, BitVec.sub_add_cancel]

end Straight

namespace Translation

variable {σ : Type} {T : InstTranslator} {fetch : U64 → σ → Option U32 × σ}
  {opts : TranslateOptions} {max : U32} {t : Translation σ} {runs : List (U64 × Nat)} {m : Nat}

/-- The loop has recorded the runs `runs` and is `m` instructions into the next one. -/
structure Tracks (t : Translation σ) (runs : List (U64 × Nat)) (m : Nat) : Prop where
  ranges_eq : t.block.ranges = runs.map runRange
  insts_eq : t.insts = runs.flatMap runInsts ++ runInsts (t.segStart, m)
  pc_eq : t.pc = t.segStart + BitVec.ofNat 64 (4 * m)
  pos : ∀ r ∈ runs, 0 < r.2
  length_eq : t.insts.length = t.block.cycles.toNat
  followed_eq : ∀ f, t.followed = some f →
    f.rangesBefore < runs.length ∧ f.insts = (runs.take (f.rangesBefore + 1)).flatMap runInsts

/-- Closing the current run after its last instruction. -/
theorem straight_append {ranges : List (U64 × U64)} {insts : List TranslatedInst} {s : U64}
    (hranges : ranges = runs.map runRange ++ [runRange (s, m)])
    (hinsts : insts = runs.flatMap runInsts ++ runInsts (s, m)) (hpos : ∀ r ∈ runs, 0 < r.2)
    (hm : 0 < m) (hshort : insts.length < 2 ^ 32) : Straight (runs ++ [(s, m)]) ranges insts := by
  refine ⟨by simp, by simp [hranges], by simp [hinsts], ?_, hshort⟩
  intro r hr
  rcases List.mem_append.mp hr with hr | hr
  · exact hpos r hr
  · rw [List.mem_singleton.mp hr]
    exact hm

theorem terminate_cases (t : Translation σ) (opts : TranslateOptions) (max : U32) :
    t.terminate opts max = (t.stop (t.pc + 4), true) ∨
      ∃ target, t.terminate opts max = (t.follow (t.pc + 4) target, false) := by
  rw [terminate]
  split
  · split
    · exact .inr ⟨_, rfl⟩
    · exact .inl rfl
  · exact .inl rfl

/-- The state at the last instruction of a segment that is now `m + 1` long. -/
structure AtEnd (t : Translation σ) (runs : List (U64 × Nat)) (m : Nat) : Prop where
  ranges_eq : t.block.ranges = runs.map runRange
  insts_eq : t.insts = runs.flatMap runInsts ++ runInsts (t.segStart, m + 1)
  next_eq : t.pc + 4 = t.segStart + BitVec.ofNat 64 (4 * (m + 1))
  pos : ∀ r ∈ runs, 0 < r.2
  length_eq : t.insts.length = t.block.cycles.toNat
  followed_eq : ∀ f, t.followed = some f →
    f.rangesBefore < runs.length ∧ f.insts = (runs.take (f.rangesBefore + 1)).flatMap runInsts

theorem Tracks.count (h : t.Tracks runs m) {b : Block} (hranges : b.ranges = t.block.ranges)
    (hcycles : b.cycles = t.block.cycles) (hlt : t.block.cycles < max) :
    (t.count b).AtEnd runs m ∧ (t.count b).block.cycles.toNat = t.block.cycles.toNat + 1 := by
  have hsucc : (saturatingSucc b.cycles).toNat = t.block.cycles.toNat + 1 := by
    have hmax := max.isLt
    rw [BitVec.lt_def] at hlt
    have hne : t.block.cycles ≠ BitVec.allOnes 32 := by
      intro heq
      rw [heq, BitVec.toNat_allOnes] at hlt
      omega
    rw [hcycles, saturatingSucc, if_neg hne, BitVec.toNat_add]
    exact Nat.mod_eq_of_lt (by simp; omega)
  refine ⟨?_, hsucc⟩
  exact
    { ranges_eq := hranges.trans h.ranges_eq
      insts_eq := by
        rw [runInsts_succ, ← List.append_assoc]
        show t.insts ++ [⟨t.pc, t.segStart⟩] =
          _ ++ [⟨t.segStart + BitVec.ofNat 64 (4 * m), t.segStart⟩]
        rw [h.insts_eq, h.pc_eq]
        rfl
      next_eq := by
        show t.pc + 4 = t.segStart + _
        rw [h.pc_eq, add_ofNat_succ]
      pos := h.pos
      length_eq := by
        show _ = (saturatingSucc b.cycles).toNat
        rw [hsucc, ← h.length_eq]
        exact List.length_append
      followed_eq := h.followed_eq }

/-- Closing the segment. -/
theorem AtEnd.straight (h : t.AtEnd runs m) :
    Straight (runs ++ [(t.segStart, m + 1)]) (t.block.ranges ++ [(t.segStart, t.pc + 4)])
      t.insts := by
  refine straight_append ?_ h.insts_eq h.pos (Nat.succ_pos m) ?_
  · rw [h.ranges_eq, h.next_eq]
    rfl
  · rw [h.length_eq]
    exact t.block.cycles.isLt

theorem AtEnd.follow (h : t.AtEnd runs m) (target : U64) :
    (t.follow (t.pc + 4) target).Tracks (runs ++ [(t.segStart, m + 1)]) 0 where
  ranges_eq := h.straight.ranges_eq
  insts_eq := h.straight.insts_eq.trans (List.append_nil _).symm
  pc_eq := (BitVec.add_zero target).symm
  pos := h.straight.pos
  length_eq := h.length_eq
  followed_eq := by
    rintro f ⟨⟩
    have hlen : t.block.ranges.length = runs.length := by rw [h.ranges_eq, List.length_map]
    dsimp only
    rw [hlen, List.take_of_length_le (by simp), h.straight.insts_eq]
    exact ⟨by simp, rfl⟩

/-- **One turn** fails and records nothing, ends the block, or goes on with one more
instruction. -/
theorem Tracks.step (h : t.Tracks runs m) (hlt : t.block.cycles < max) {t' : Translation σ}
    {r : Except Error Bool} (hstep : t.step T fetch opts max = (t', r)) :
    (∃ e, r = .error e ∧ t'.Tracks runs m) ∨
      (r = .ok true ∧ ∃ runs', Straight runs' t'.block.ranges t'.insts) ∨
      (r = .ok false ∧ t'.block.cycles.toNat = t.block.cycles.toNat + 1 ∧
        ∃ runs' m', t'.Tracks runs' m') := by
  rw [Translation.step] at hstep
  dsimp only at hstep
  split at hstep
  · cases hstep
    exact .inl ⟨_, rfl, { h with }⟩
  rename_i inst hinst
  have hranges := T.ranges_eq t.block t.pc inst
  have hcycles := T.cycles_eq t.block t.pc inst
  split at hstep
  · cases hstep
    refine .inl ⟨_, rfl, { h with ranges_eq := hranges.trans h.ranges_eq, length_eq := ?_ }⟩
    dsimp only
    rw [hcycles]
    exact h.length_eq
  rename_i status hstatus
  have hmem : Tracks { t with memory := (fetch t.pc t.memory).2 } runs m := { h with }
  obtain ⟨hend, hsucc⟩ := hmem.count hranges hcycles hlt
  cases status with
  | continues =>
    cases hstep
    refine .inr (.inr ⟨rfl, hsucc, runs, m + 1, ?_⟩)
    exact { hend with pc_eq := hend.next_eq }
  | terminator =>
    cases hstep
    rcases terminate_cases (Translation.count _ _) opts max with hstop | ⟨target, hfollow⟩
    · rw [hstop]
      exact .inr (.inl ⟨rfl, _, hend.straight⟩)
    · rw [hfollow]
      exact .inr (.inr ⟨rfl, hsucc, _, 0, hend.follow target⟩)

/-- The loop stops at the cap, given enough turns; more turns change nothing. -/
theorem loop_succ (n : Nat) (h : max.toNat ≤ t.block.cycles.toNat + n) (htrack : t.Tracks runs m) :
    loop T fetch opts max (n + 1) t = loop T fetch opts max n t := by
  induction n generalizing t runs m with
  | zero =>
    have hnot : ¬ t.block.cycles < max := by
      rw [BitVec.lt_def]
      omega
    simp [loop, hnot]
  | succ n ih =>
    rw [loop, loop]
    split
    · rename_i hlt
      cases hstep : t.step T fetch opts max with
      | mk t' r =>
      rcases htrack.step hlt hstep with ⟨e, rfl, -⟩ | ⟨rfl, -⟩ | ⟨rfl, hcycles, runs', m', htrack'⟩
      · rfl
      · rfl
      · exact ih (by omega) htrack'
    · rfl

/-- **The loop** fails with what it had recorded, ends the block, or reaches the cap. -/
theorem Tracks.loop (h : t.Tracks runs m) (n : Nat) (hn : max.toNat ≤ t.block.cycles.toNat + n)
    {t' : Translation σ} {r : Except Error Bool}
    (hloop : Translation.loop T fetch opts max n t = (t', r)) :
    (∃ e, r = .error e ∧ ∃ runs' m', t'.Tracks runs' m') ∨
      (r = .ok true ∧ ∃ runs', Straight runs' t'.block.ranges t'.insts) ∨
      (r = .ok false ∧ max ≤ t'.block.cycles ∧ ∃ runs' m', t'.Tracks runs' m') := by
  induction n generalizing t runs m with
  | zero =>
    cases hloop
    exact .inr (.inr ⟨rfl, BitVec.le_def.mpr (by omega), runs, m, h⟩)
  | succ n ih =>
    rw [Translation.loop] at hloop
    split at hloop
    · rename_i hlt
      cases hstep : t.step T fetch opts max with
      | mk t₁ r₁ =>
      rw [hstep] at hloop
      rcases h.step hlt hstep with ⟨e, rfl, h'⟩ | ⟨rfl, h'⟩ | ⟨rfl, hcycles, runs', m', h'⟩
      · cases hloop
        exact .inl ⟨e, rfl, runs, m, h'⟩
      · cases hloop
        exact .inr (.inl ⟨rfl, h'⟩)
      · exact ih h' (by omega) hloop
    · rename_i hlt
      cases hloop
      exact .inr (.inr ⟨rfl, BitVec.not_lt.mp hlt, runs, m, h⟩)

/-- Ending the block at the cap records the current segment, if there is one. -/
theorem Tracks.straight_link (h : t.Tracks runs m) (hcycles : 0 < t.block.cycles.toNat) :
    ∃ runs', Straight runs' t.link.block.ranges t.link.insts := by
  have hshort : t.insts.length < 2 ^ 32 := by
    rw [h.length_eq]
    exact t.block.cycles.isLt
  have hlen : m ≤ t.insts.length := by
    rw [h.insts_eq, List.length_append, runInsts_length]
    exact Nat.le_add_left ..
  by_cases hm : 0 < m
  · have hne : t.pc ≠ t.segStart := by
      intro heq
      have hzero : BitVec.ofNat 64 (4 * m) = 0#64 := by
        have hpc := h.pc_eq
        rw [heq] at hpc
        exact (BitVec.add_right_inj t.segStart).mp (hpc.symm.trans (BitVec.add_zero _).symm)
      have hnat := congrArg BitVec.toNat hzero
      rw [BitVec.toNat_ofNat, BitVec.toNat_ofNat] at hnat
      omega
    refine ⟨_, straight_append ?_ h.insts_eq h.pos hm hshort⟩
    rw [link]
    dsimp only
    rw [if_pos (.inl hne), h.ranges_eq, h.pc_eq]
    rfl
  · obtain rfl : m = 0 := by omega
    have hruns : runs ≠ [] := by
      rintro rfl
      have hnil : t.insts.length = 0 := by rw [h.insts_eq]; rfl
      have hcount := h.length_eq
      omega
    have hpc : t.pc = t.segStart := h.pc_eq.trans (BitVec.add_zero _)
    have hranges : t.link.block.ranges = t.block.ranges := by
      rw [link]
      dsimp only
      rw [if_neg]
      rintro (hne | hnil)
      · exact hne hpc
      · exact hruns (List.map_eq_nil_iff.mp (h.ranges_eq.symm.trans hnil))
    exact ⟨runs, hruns, hranges.trans h.ranges_eq, h.insts_eq.trans (List.append_nil _), h.pos,
      hshort⟩

/-- Undoing the last followed branch leaves the runs up to the branch. -/
theorem Tracks.straight_undo (h : t.Tracks runs m) {f : Followed} (hf : t.followed = some f) :
    Straight (runs.take (f.rangesBefore + 1)) (t.undo f).block.ranges (t.undo f).insts := by
  obtain ⟨hlt, hinsts⟩ := h.followed_eq f hf
  refine ⟨?_, ?_, hinsts, fun r hr => h.pos r (List.mem_of_mem_take hr), ?_⟩
  · rw [Ne, List.take_eq_nil_iff]
    rintro (h0 | rfl)
    · exact absurd h0 (Nat.succ_ne_zero _)
    · exact absurd hlt (Nat.not_lt_zero _)
  · show (t.block.rollback f.mark).ranges.take _ = _
    rw [Block.rollback_ranges, h.ranges_eq, List.map_take]
  · have hsplit : t.insts = f.insts ++ ((runs.drop (f.rangesBefore + 1)).flatMap runInsts
        ++ runInsts (t.segStart, m)) := by
      rw [h.insts_eq, hinsts, ← List.append_assoc, ← List.flatMap_append, List.take_append_drop]
    have hcount := h.length_eq
    have hcycles := t.block.cycles.isLt
    rw [hsplit, List.length_append] at hcount
    show f.insts.length < 2 ^ 32
    omega

end Translation

/-- **The ranges of a translated block are the straight runs of its instructions.** -/
theorem straight_translateBlockInto {σ : Type} {T : InstTranslator} {block : Block} {startPc : U64}
    {fetch : U64 → σ → Option U32 × σ} {memory : σ} {opts : TranslateOptions} {t : Translation σ}
    (h : translateBlockInto T block startPc fetch memory opts = (t, .ok ())) :
    ∃ runs, Straight runs t.block.ranges t.insts := by
  rw [translateBlockInto] at h
  generalize hmax : (if opts.maxInsts = 0 then 1 else opts.maxInsts) = max at h
  have hpos : 0 < max.toNat := by
    subst hmax
    split
    · decide
    · rename_i hne
      exact Nat.pos_of_ne_zero fun h0 => hne (BitVec.eq_of_toNat_eq h0)
  have hstart : Translation.Tracks (σ := σ) ⟨block.reset startPc, memory, startPc, startPc, none, []⟩
      [] 0 :=
    { ranges_eq := rfl
      insts_eq := rfl
      pc_eq := (BitVec.add_zero startPc).symm
      pos := by simp
      length_eq := rfl
      followed_eq := by rintro f ⟨⟩ }
  cases hloop : Translation.loop T fetch opts max max.toNat
    ⟨block.reset startPc, memory, startPc, startPc, none, []⟩ with
  | mk t₁ r =>
  rw [hloop] at h
  rcases hstart.loop _ (Nat.le_add_left _ _) hloop with
    ⟨e, rfl, runs, m, h₁⟩ | ⟨rfl, h₁⟩ | ⟨rfl, hcap, runs, m, h₁⟩
  · rw [Translation.finish] at h
    split at h
    · cases h
    · rename_i f hf
      cases h
      exact ⟨_, h₁.straight_undo hf⟩
  · cases h
    exact h₁
  · cases h
    exact h₁.straight_link (hpos.trans_le (BitVec.le_def.mp hcap))

/-! ## The cap -/

namespace Translation

variable {σ : Type} {T : InstTranslator} {fetch : U64 → σ → Option U32 × σ}
  {opts : TranslateOptions} {max : U32} {t : Translation σ}

/-- The block has no more instructions than the cap, and had no more at the last followed branch. -/
structure Within (max : U32) (t : Translation σ) : Prop where
  cycles_le : t.block.cycles ≤ max
  followed_le : ∀ f, t.followed = some f → f.cycles ≤ max

theorem saturatingSucc_le {n : U32} (h : n < max) : saturatingSucc n ≤ max := by
  have hmax := max.isLt
  rw [BitVec.lt_def] at h
  rw [saturatingSucc]
  split
  · rw [BitVec.le_def]
    omega
  · rw [BitVec.le_def, BitVec.toNat_add]
    simp only [BitVec.ofNat_eq_ofNat, BitVec.toNat_ofNat]
    omega

/-- One turn below the cap. -/
theorem Within.step (h : t.Within max) (hlt : t.block.cycles < max) :
    (t.step T fetch opts max).1.Within max := by
  rw [Translation.step]
  dsimp only
  split
  · exact ⟨h.cycles_le, h.followed_le⟩
  · rename_i inst _
    have hcycles := T.cycles_eq t.block t.pc inst
    split
    · refine ⟨?_, h.followed_le⟩
      dsimp only
      rw [hcycles]
      exact h.cycles_le
    · rename_i status _
      have hcount : Within max (Translation.count
          { t with memory := (fetch t.pc t.memory).2 } (T.translateInstruction t.block t.pc inst).1) := by
        refine ⟨?_, h.followed_le⟩
        rw [Translation.count]
        dsimp only
        rw [hcycles]
        exact saturatingSucc_le hlt
      cases status with
      | continues => exact ⟨hcount.cycles_le, hcount.followed_le⟩
      | terminator =>
        dsimp only
        rcases terminate_cases (Translation.count _ _) opts max with hstop | ⟨target, hfollow⟩
        · rw [hstop]
          exact ⟨hcount.cycles_le, hcount.followed_le⟩
        · rw [hfollow]
          refine ⟨hcount.cycles_le, ?_⟩
          rintro f ⟨⟩
          exact hcount.cycles_le

theorem Within.loop (h : t.Within max) (n : Nat) :
    (Translation.loop T fetch opts max n t).1.Within max := by
  induction n generalizing t with
  | zero => exact h
  | succ n ih =>
    rw [Translation.loop]
    split
    · rename_i hlt
      have hstep : (t.step T fetch opts max).1.Within max := h.step hlt
      split
      · rename_i t' heq
        rw [heq] at hstep
        exact ih hstep
      · rename_i t' r _ heq
        rw [heq] at hstep
        exact hstep
    · exact h

theorem Within.finish (h : t.Within max) (r : Except Error Bool) :
    (t.finish r).1.block.cycles ≤ max := by
  rw [Translation.finish.eq_def]
  split
  · exact h.cycles_le
  · exact h.cycles_le
  · split
    · exact h.cycles_le
    · exact h.followed_le _ ‹_›

end Translation

/-- **A translated block has no more instructions than its cap.** -/
theorem translateBlockInto_cycles_le {σ : Type} (T : InstTranslator) (block : Block) (startPc : U64)
    (fetch : U64 → σ → Option U32 × σ) (memory : σ) (opts : TranslateOptions) :
    (translateBlockInto T block startPc fetch memory opts).1.block.cycles.toNat
      ≤ max opts.maxInsts.toNat 1 := by
  rw [translateBlockInto]
  have hmax : (if opts.maxInsts = 0 then 1 else opts.maxInsts : U32).toNat
      = max opts.maxInsts.toNat 1 := by
    split
    · rename_i h0
      rw [h0]
      rfl
    · rename_i h0
      have hne : opts.maxInsts.toNat ≠ 0 := fun h => h0 (BitVec.eq_of_toNat_eq h)
      omega
  rw [← hmax]
  refine BitVec.le_def.mp (Translation.Within.finish (Translation.Within.loop ⟨?_, ?_⟩ _) _)
  · rw [BitVec.le_def]
    exact Nat.zero_le _
  · rintro f ⟨⟩

end Rustarmic
