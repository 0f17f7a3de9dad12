import Rustarmic.Frontend.Slices

/-!
# Segments

The code between two followed branches is a *segment*, and translating without `multiblock` from its
first PC translates exactly the segment.

* `Lowering.segment` — walk through one segment: its instructions and how it ends.
* `loop_segment` — what the loop does with the segment it is at the start of, with `multiblock` and
  without.
* `multiblock_refines_single` — a block with followed branches is the concatenation of the blocks
  without, each one from the target of the branch before it.

With `multiblock` the translator does not stop at a direct branch but goes on at its target, in the
same block.  A block is then longer and the register allocator sees more of it.  What it must not do
is mean something else, and the reference for what it means is what the translator does without the
option.

The concatenation is one of *bodies* (`Ir.Append`), in which an argument is a distance, since the
same instruction has other indices further back.  The branch that was followed is not in the block
as a terminal, and each single block but the last one ends in that branch.

Three things keep this from being a plain induction:

* **The limit** is on the whole block, so that a later segment gets what the earlier ones have left.
* **A target may fail.**  If anything behind the last followed branch cannot be translated,
  everything from there on is rolled back, and the block ends with the branch after all; the single
  block there fails, and the chain has one block less.
* **The fetch function has a state**, which is carried along the chain.
-/

set_option autoImplicit false

namespace Rustarmic

/-! ## Bodies of assembled blocks -/

namespace Emission

theorem backRef_valueAt {base n k : Nat} (hbase : 0 < base) :
    Block.backRef (base + n) (valueAt base k) = if k = ValueRef.none then 0 else n + 1 - k := by
  unfold Block.backRef valueAt
  by_cases hk : k = ValueRef.none
  · rw [if_pos hk, if_pos hk, if_pos rfl]
  · have hk' : k ≠ 0 := hk
    have hne : base + k - 1 ≠ ValueRef.none := by
      have hz : base + k - 1 ≠ 0 := by omega
      exact hz
    rw [if_neg hk, if_neg hk, if_neg hne]
    omega

/-- The body of an instruction does not depend on where it stands. -/
theorem bodyFrom_placed (as : List Armlet) {base : Nat} (hbase : 0 < base) (pc : U64) (j : Nat) :
    Block.bodyFrom (base + j) (as.map fun a => { a.mapArgs (valueAt base) with pc }) =
      Block.bodyFrom (1 + j) (as.map fun a => { a.mapArgs (valueAt 1) with pc }) := by
  induction as generalizing j with
  | nil => rfl
  | cons a as ih =>
    have hargs : Block.backRef (base + j) ∘ valueAt base = Block.backRef (1 + j) ∘ valueAt 1 := by
      funext k
      exact (backRef_valueAt hbase).trans (backRef_valueAt Nat.one_pos).symm
    have hcomp : ∀ f g : ValueRef → ValueRef, ({ a.mapArgs f with pc } : Armlet).bare.mapArgs g =
        ({ a.mapArgs (g ∘ f) with pc } : Armlet).bare := fun _ _ => rfl
    have hnode : ({ a.mapArgs (valueAt base) with pc } : Armlet).bare.mapArgs
        (Block.backRef (base + j)) =
        ({ a.mapArgs (valueAt 1) with pc } : Armlet).bare.mapArgs (Block.backRef (1 + j)) := by
      rw [hcomp, hcomp, hargs]
    rw [List.map_cons, List.map_cons, Block.bodyFrom, Block.bodyFrom, hnode, Nat.add_assoc,
      Nat.add_assoc, ih]

/-- The body of an instruction. -/
def body (e : Emission) (pc : U64) : List Armlet := Block.bodyFrom 1 (e.placed 1 pc)

/-- The terminal an instruction sets, the value it reads as a distance. -/
def backTerminal (e : Emission) (t : Terminal) : Terminal :=
  t.mapValue fun k => if k = ValueRef.none then 0 else e.nodes.length + 1 - k

end Emission

namespace Lowering

variable {L : Lowering}

/-- **The body of a block is that of its instructions.** -/
theorem assemble_body (L : Lowering) (start : U64) (log : InstLog) :
    (L.assemble start log).body = log.flatMap fun i => (L.emission i.1 i.2).body i.1 := by
  induction log using List.reverseRecOn with
  | nil => rfl
  | append_singleton log i ih =>
    obtain ⟨l, hl⟩ := L.assemble_linked start log
    rw [assemble_concat, Block.body_congr (Emission.apply_nodes _ _ _),
      Block.body_pushAll hl (L.assemble_size_pos start log), ih, List.flatMap_append]
    refine congrArg _ ?_
    have h := Emission.bodyFrom_placed (L.emission i.1 i.2).nodes
      (L.assemble_size_pos start log) i.1 0
    exact h.trans (List.append_nil _).symm

/-! ## Walking through a segment -/

/-- How a segment ends: an instruction cannot be translated, the limit, or a terminal. -/
inductive SegmentEnd where
  | stuck (e : Error)
  | cap
  | ended (t : Terminal)
  deriving DecidableEq

/-- A segment: its instructions, the state of the fetch function behind them, the PC where it ends
and how. -/
structure Segment (σ : Type) where
  log : InstLog
  memory : σ
  pc : U64
  ending : SegmentEnd

/-- Walk through one segment, for at most `n` instructions. -/
def segment {σ : Type} (L : Lowering) (fetch : U64 → σ → Option U32 × σ) :
    Nat → U64 → σ → Segment σ
  | 0, pc, m => ⟨[], m, pc, .cap⟩
  | n + 1, pc, m =>
    match (fetch pc m).1 with
    | none => ⟨[], (fetch pc m).2, pc, .stuck (.guestMemory pc)⟩
    | some inst => match (L.emission pc inst).outcome with
      | .error e => ⟨[], (fetch pc m).2, pc, .stuck e⟩
      | .continues =>
        let rest := segment L fetch n (pc + 4) (fetch pc m).2
        { rest with log := (pc, inst) :: rest.log }
      | .terminator t =>
        ⟨[(pc, inst)], (fetch pc m).2, pc, .ended ((L.emission pc inst).backTerminal t)⟩

end Lowering

namespace Translation

variable {σ : Type} {L : Lowering} {fetch : U64 → σ → Option U32 × σ} {opts : TranslateOptions}
  {max : U32} {t t' u v z : Translation σ} {startPc : U64} {memory : σ} {log log' : InstLog}
  {r : Except Error Bool} {k n : Nat}

/-- The terminal of a translation, the value it reads as a distance from the end of the block. -/
def backTerminal (t : Translation σ) : Terminal :=
  t.block.terminal.mapValue (Block.backRef t.block.code.size)

theorem advance_backTerminal (hpos : 0 < t.block.code.size) {inst : U32} {m : σ} {term : Terminal}
    (ho : (L.emission t.pc inst).outcome = .terminator term) :
    (t.advance L m inst).backTerminal = (L.emission t.pc inst).backTerminal term := by
  have hsize : (t.advance L m inst).block.code.size =
      t.block.code.size + (L.emission t.pc inst).nodes.length := by
    show ((L.emission t.pc inst).apply t.block t.pc).code.size = _
    have hnodes := congrArg Prod.fst (Emission.apply_nodes (L.emission t.pc inst) t.block t.pc)
    have hcode : ((L.emission t.pc inst).apply t.block t.pc).code = _ := hnodes
    rw [hcode]
    show (t.block.pushAll _).code.size = _
    rw [Block.size_pushAll, Emission.placed, List.length_map]
  unfold backTerminal Emission.backTerminal
  rw [advance_terminal ho, hsize, Terminal.mapValue_mapValue]
  congr 1
  funext k
  exact Emission.backRef_valueAt hpos

/-- What the loop makes of a segment, for `n` more instructions. -/
def MakesOf (L : Lowering) (fetch : U64 → σ → Option U32 × σ) (opts : TranslateOptions)
    (startPc : U64) (memory : σ) (max : U32) (t : Translation σ) (log : InstLog) (n : Nat)
    (r : Lowering.Segment σ) : Prop :=
  match r.ending with
  | .stuck e => ∃ z, t.loop L.translator fetch opts max n = (z, .error e) ∧
      Stuck L fetch opts startPc memory z (log ++ r.log) ∧ z.followed = t.followed
  | .cap => ∃ z, t.loop L.translator fetch opts max n = (z, .ok false) ∧
      At L fetch opts startPc memory z (log ++ r.log) ∧ z.memory = r.memory ∧ z.pc = r.pc ∧
        r.log.length = n
  | .ended term => ∃ v, Consists L fetch startPc memory v (log ++ r.log) ∧ v.memory = r.memory ∧
      v.pc = r.pc ∧ v.backTerminal = term ∧ 0 < r.log.length ∧ r.log.length ≤ n ∧
      (∀ target link, v.block.terminal = .directBranch target link →
        v.terminate opts uncapped = (v.follow (v.pc + 4) target, false) →
        At L fetch opts startPc memory (v.follow (v.pc + 4) target) (log ++ r.log)) ∧
      t.loop L.translator fetch opts max n = match v.terminate opts max with
        | (w, true) => (w, .ok true)
        | (w, false) => w.loop L.translator fetch opts max (n - r.log.length)

theorem loop_next (hlt : t.block.cycles < max)
    (hs : t.step L.translator fetch opts max = (t', .ok false)) :
    t.loop L.translator fetch opts max (n + 1) = t'.loop L.translator fetch opts max n := by
  rw [loop, if_pos hlt, hs]

theorem loop_done (hlt : t.block.cycles < max)
    (hs : t.step L.translator fetch opts max = (t', r)) (hr : r ≠ .ok false) :
    t.loop L.translator fetch opts max (n + 1) = (t', r) := by
  rw [loop, if_pos hlt, hs]
  rcases r with e | _ | _
  · rfl
  · exact absurd rfl hr
  · rfl

theorem MakesOf.cons {r : Lowering.Segment σ} {i : U64 × U32}
    (h : MakesOf L fetch opts startPc memory max t' (log ++ [i]) n r)
    (hloop : t.loop L.translator fetch opts max (n + 1) = t'.loop L.translator fetch opts max n)
    (hfol : t'.followed = t.followed) :
    MakesOf L fetch opts startPc memory max t log (n + 1) { r with log := i :: r.log } := by
  have happ : log ++ [i] ++ r.log = log ++ (i :: r.log) := List.append_assoc ..
  have hlen : (i :: r.log).length = r.log.length + 1 := rfl
  obtain ⟨rlog, rm, rpc, ending⟩ := r
  cases ending with
  | stuck e =>
    obtain ⟨z, hz, hstuck, hf⟩ := h
    exact ⟨z, hloop.trans hz, happ ▸ hstuck, hf.trans hfol⟩
  | cap =>
    obtain ⟨z, hz, hat, hm, hpc, hn⟩ := h
    exact ⟨z, hloop.trans hz, happ ▸ hat, hm, hpc, congrArg Nat.succ hn⟩
  | ended term =>
    obtain ⟨v, hv, hm, hpc, hterm, -, hn, hfollow, hl⟩ := h
    refine ⟨v, happ ▸ hv, hm, hpc, hterm, Nat.succ_pos _, Nat.succ_le_succ hn,
      fun target link ht hf => happ ▸ hfollow target link ht hf, ?_⟩
    rw [hloop, hl]
    simp only [hlen, Nat.add_sub_add_right]

/-- **The loop and the segment it is at the start of.** -/
theorem At.loop_segment (h : At L fetch opts startPc memory t log)
    (hn : log.length + n = max.toNat) :
    MakesOf L fetch opts startPc memory max t log n (L.segment fetch n t.pc t.memory) := by
  have hmax := max.isLt
  induction n generalizing t log with
  | zero => exact ⟨t, rfl, by rwa [Lowering.segment, List.append_nil], rfl, rfl, rfl⟩
  | succ n ih =>
    have hlt : t.block.cycles < max := by
      rw [BitVec.lt_def, h.consists.cycles]
      omega
    unfold Lowering.segment
    cases hf : (fetch t.pc t.memory).1 with
    | none =>
      obtain ⟨hz, hs⟩ := h.unmapped hf
      refine ⟨{ t with memory := (fetch t.pc t.memory).2 }, ?_, ?_, rfl⟩
      · exact loop_done hlt (hs max) nofun
      · rwa [List.append_nil]
    | some inst =>
      dsimp only
      cases ho : (L.emission t.pc inst).outcome with
      | error e =>
        obtain ⟨z, hz, hfol, hs⟩ := h.failed hf ho
        refine ⟨z, ?_, ?_, hfol⟩
        · exact loop_done hlt (hs max) nofun
        · rwa [List.append_nil]
      | continues =>
        obtain ⟨h', hs⟩ := h.continues hf ho (by omega)
        exact (ih h' (by rw [List.length_append, List.length_singleton]; omega)).cons
          (loop_next hlt (hs max)) rfl
      | terminator term =>
        obtain ⟨hv, -, hs, hfol⟩ := h.terminator hf ho (by omega)
        refine ⟨_, hv, rfl, rfl, advance_backTerminal h.consists.linked.2 ho, Nat.one_pos,
          Nat.le_add_left _ _, fun target link ht hfollow => (hfol target link ht hfollow).2, ?_⟩
        have hsm := hs max
        cases hterm : (t.advance L (fetch t.pc t.memory).2 inst).terminate opts max with
        | mk w b =>
          rw [hterm] at hsm
          cases b with
          | true => exact loop_done hlt hsm nofun
          | false => exact loop_next hlt hsm

/-! ## Single blocks -/

theorem terminate_solo (v : Translation σ) (c max : U32) :
    v.terminate ⟨c, false⟩ max = (v.stop (v.pc + 4), true) := by
  rcases terminate_cases' v ⟨c, false⟩ max with h | ⟨target, link, -, hmulti, -⟩
  · exact h
  · cases hmulti

theorem step_solo (t : Translation σ) (c c' max max' : U32) :
    t.step L.translator fetch ⟨c, false⟩ max = t.step L.translator fetch ⟨c', false⟩ max' := by
  unfold step
  simp only [terminate_solo]

/-- Without `multiblock`, a walk that ends with a terminal ends there under every higher limit. -/
theorem loop_solo_mono {c c' : U32} {n' : Nat} (hc : c ≤ c') (hn : n ≤ n')
    {m : U32} (h : t.loop L.translator fetch ⟨m, false⟩ c n = (z, .ok true)) (m' : U32) :
    t.loop L.translator fetch ⟨m', false⟩ c' n' = (z, .ok true) := by
  induction n generalizing t n' with
  | zero => cases h
  | succ n ih =>
    obtain ⟨n', rfl⟩ : ∃ k, n' = k + 1 := ⟨n' - 1, by omega⟩
    rw [loop] at h ⊢
    by_cases hlt : t.block.cycles < c
    · have hlt' : t.block.cycles < c' := by
        rw [BitVec.lt_def] at hlt ⊢
        exact hlt.trans_le (BitVec.le_def.mp hc)
      rw [if_pos hlt] at h
      rw [if_pos hlt', step_solo t m' m c' c]
      generalize t.step L.translator fetch ⟨m, false⟩ c = r at h ⊢
      rcases r with ⟨t', e | _ | _⟩
      · cases h
      · exact ih (Nat.le_of_succ_le_succ hn) h
      · exact h
    · rw [if_neg hlt] at h
      cases h

theorem capOf_eq {c : U32} (hc : 0 < c.toNat) {multiblock : Bool} : capOf ⟨c, multiblock⟩ = c :=
  if_neg fun h0 => hc.ne' (congrArg BitVec.toNat h0)

theorem translate_of_loop (block : Block) {m : σ} {pc : U64}
    (h : (start pc m).loop L.translator fetch opts (capOf opts) (capOf opts).toNat =
      (z, .ok true)) :
    translateBlockInto L.translator block pc fetch m opts = (z, .ok ()) := by
  have htr : translateBlockInto L.translator block pc fetch m opts =
      ((start pc m).loop L.translator fetch opts (capOf opts) (capOf opts).toNat).1.finish
        ((start pc m).loop L.translator fetch opts (capOf opts) (capOf opts).toNat).2 := rfl
  rw [htr, h]
  rfl

/-- **Translating a segment on its own.** -/
theorem single_segment (L : Lowering) (fetch : U64 → σ → Option U32 × σ) (block : Block)
    (pc : U64) (m : σ) (c : U32) :
    let r := L.segment fetch (capOf ⟨c, false⟩).toNat pc m
    match r.ending with
    | .stuck e => (translateBlockInto L.translator block pc fetch m ⟨c, false⟩).2 = .error e
    | .cap => ∃ s, translateBlockInto L.translator block pc fetch m ⟨c, false⟩ = (s, .ok ()) ∧
        Consists L fetch pc m s r.log ∧ s.memory = r.memory ∧ s.block.endPc = r.pc ∧
          s.block.terminal = .linkBlock r.pc
    | .ended term => ∃ s, (start pc m).loop L.translator fetch ⟨c, false⟩ (capOf ⟨c, false⟩)
          (capOf ⟨c, false⟩).toNat = (s, .ok true) ∧
        Consists L fetch pc m s r.log ∧ s.memory = r.memory ∧ s.block.endPc = r.pc + 4 ∧
          s.backTerminal = term := by
  intro r
  have hn : ([] : InstLog).length + (capOf ⟨c, false⟩).toNat = (capOf ⟨c, false⟩).toNat :=
    Nat.zero_add _
  have h := (at_start L fetch ⟨c, false⟩ pc m).loop_segment hn
  have htr : translateBlockInto L.translator block pc fetch m ⟨c, false⟩ =
      ((start pc m).loop L.translator fetch ⟨c, false⟩ (capOf ⟨c, false⟩)
        (capOf ⟨c, false⟩).toNat).1.finish ((start pc m).loop L.translator fetch ⟨c, false⟩
          (capOf ⟨c, false⟩) (capOf ⟨c, false⟩).toNat).2 := rfl
  rw [htr]
  change MakesOf _ _ _ _ _ _ _ _ _ r at h
  clear_value r
  obtain ⟨rlog, rm, rpc, ending⟩ := r
  cases ending with
  | stuck e =>
    obtain ⟨z, hz, -, hfol⟩ := h
    have hnone : z.followed = none := hfol
    show (finish _ _).2 = _
    rw [hz, finish, hnone]
  | cap =>
    obtain ⟨z, hz, hat, hm, hpc, -⟩ := h
    have hc := hat.consists
    refine ⟨z.link, ?_, ⟨hc.nodes, hc.start_eq, hc.cycles, hc.pcs, hc.words⟩, hm, hpc, ?_⟩
    · rw [hz]
      rfl
    · exact congrArg Terminal.linkBlock hpc
  | ended term =>
    obtain ⟨v, hv, hm, hpc, hterm, -, -, -, hl⟩ := h
    refine ⟨v.stop (v.pc + 4), ?_, ⟨hv.nodes, hv.start_eq, hv.cycles, hv.pcs, hv.words⟩, hm, ?_,
      hterm⟩
    · rw [hl, terminate_solo]
    · exact congrArg (· + 4) hpc

/-! ## Chains of single blocks -/

/-- Blocks translated without `multiblock` from `pc` on, each from the target of the direct branch
that ends the one before it; all with the limit `max` but for the last, which has the limit `left`.
The log is that of all their instructions. -/
inductive Chain (L : Lowering) (fetch : U64 → σ → Option U32 × σ) (max left : U32) :
    U64 → σ → List (Translation σ) → Translation σ → InstLog → Prop where
  | last {pc : U64} {m : σ} {b : Block} {s : Translation σ} {log : InstLog}
    (h : translateBlockInto L.translator b pc fetch m ⟨left, false⟩ = (s, .ok ()))
    (hlog : Consists L fetch pc m s log) : Chain L fetch max left pc m [] s log
  | cons {pc : U64} {m : σ} {b : Block} {s s' : Translation σ} {ss : List (Translation σ)}
    {log log' : InstLog} {target : U64} {link : Bool}
    (h : translateBlockInto L.translator b pc fetch m ⟨max, false⟩ = (s, .ok ()))
    (hlog : Consists L fetch pc m s log)
    (hbranch : s.block.terminal = .directBranch target link)
    (hrest : Chain L fetch max left target s.memory ss s' log') :
    Chain L fetch max left pc m (s :: ss) s' (log ++ log')

theorem Consists.body_eq (h : Consists L fetch startPc memory t log) :
    t.block.body = log.flatMap fun i => (L.emission i.1 i.2).body i.1 := by
  rw [Block.body_congr h.nodes, Lowering.assemble_body]

theorem Chain.pcs {max left : U32} {pc : U64} {m : σ} {ss : List (Translation σ)}
    {s : Translation σ} (h : Chain L fetch max left pc m ss s log) :
    (ss ++ [s]).flatMap (fun s => s.insts.map TranslatedInst.pc) = log.map Prod.fst := by
  induction h with
  | last h hlog => rw [List.nil_append, List.flatMap_singleton, hlog.pcs]
  | cons h hlog hbranch hrest ih =>
    rw [List.cons_append, List.flatMap_cons, ih, List.map_append, hlog.pcs]

theorem Chain.body {max left : U32} {pc : U64} {m : σ} {ss : List (Translation σ)}
    {s : Translation σ} (h : Chain L fetch max left pc m ss s log) :
    (ss ++ [s]).flatMap (fun s => s.block.body) =
      log.flatMap fun i => (L.emission i.1 i.2).body i.1 := by
  induction h with
  | last h hlog => rw [List.nil_append, List.flatMap_singleton, hlog.body_eq]
  | cons h hlog hbranch hrest ih =>
    rw [List.cons_append, List.flatMap_cons, ih, List.flatMap_append, hlog.body_eq]

theorem backTerminal_directBranch {target : U64} {link : Bool} :
    t.backTerminal = .directBranch target link ↔ t.block.terminal = .directBranch target link := by
  unfold backTerminal
  cases t.block.terminal <;> simp [Terminal.mapValue]

/-- Where the walk is stuck right behind the branch that ended at `v`, rolling back leaves what the
block has at `v`. -/
theorem Stuck.undo_at (h : Stuck L fetch opts startPc memory z log')
    (hfol : z.followed = some v.followedAt) (hv : Consists L fetch startPc memory v log)
    (hpre : log <+: log') :
    Consists L fetch startPc memory (z.undo v.followedAt) log ∧
      (z.undo v.followedAt).block.endPc = v.pc + 4 ∧
      (z.undo v.followedAt).backTerminal = v.backTerminal := by
  obtain ⟨w, log₁, target, hj, hpre₁, hat, hblock⟩ := h.undo_block hfol
  have hw := hj.consists
  have hinsts : v.insts = w.insts := congrArg Followed.insts hat
  have hlen : log₁.length = log.length := by
    have h₁ := congrArg List.length hw.pcs
    have h₂ := congrArg List.length hv.pcs
    rw [List.length_map, List.length_map] at h₁ h₂
    rw [← h₁, ← h₂, hinsts]
  obtain rfl : log₁ = log := by
    rcases List.prefix_or_prefix_of_prefix hpre₁ hpre with hp | hp
    · exact hp.eq_of_length hlen
    · exact (hp.eq_of_length hlen.symm).symm
  have hcode : w.block.code = v.block.code :=
    congrArg Prod.fst (hw.nodes.trans hv.nodes.symm)
  have hterm : w.block.terminal = v.block.terminal := (congrArg Followed.terminal hat).symm
  have hpc : w.pc = v.pc := (congrArg Followed.branchPc hat).symm
  refine ⟨⟨?_, ?_, ?_, hv.pcs, hv.words⟩, ?_, ?_⟩
  · rw [hblock]; exact hw.nodes
  · rw [hblock]; exact hw.start_eq
  · rw [hblock]; exact hw.cycles
  · rw [hblock]; exact congrArg (· + 4) hpc
  · unfold backTerminal
    rw [hblock]
    show w.block.terminal.mapValue (Block.backRef w.block.code.size) = _
    rw [hcode, hterm]

/-- What is left of the loop and its chain of single blocks. -/
structure Chained (L : Lowering) (fetch : U64 → σ → Option U32 × σ) (startPc : U64) (memory : σ)
    (max left : U32) (logp : InstLog) (pc : U64) (m : σ) (n : Nat) (y : Translation σ)
    (ss : List (Translation σ)) (s : Translation σ) (log : InstLog) : Prop where
  chain : Chain L fetch max left pc m ss s log
  left_eq : left.toNat + (ss.map fun s => s.block.cycles.toNat).sum = n
  consists : Consists L fetch startPc memory y (logp ++ log)
  endPc_eq : y.block.endPc = s.block.endPc
  terminal_eq : y.backTerminal = s.backTerminal
  full : Chain L fetch max max pc m ss s log ∨ log.length = n

/-- **The loop with followed branches is a chain of single blocks.** -/
theorem At.chain {m : U32} (h : At L fetch ⟨m, true⟩ startPc memory t log)
    (hn : log.length + n = (capOf ⟨m, true⟩).toNat) (hpos : 0 < n)
    (hns : ∀ e, (L.segment fetch n t.pc t.memory).ending ≠ .stuck e) :
    ∃ y ss s left log', (t.loop L.translator fetch ⟨m, true⟩ (capOf ⟨m, true⟩) n).1.finish
        (t.loop L.translator fetch ⟨m, true⟩ (capOf ⟨m, true⟩) n).2 = (y, .ok ()) ∧
      Chained L fetch startPc memory m left log t.pc t.memory n y ss s log' := by
  have hcap := (capOf ⟨m, true⟩).isLt
  induction n using Nat.strong_induction_on generalizing t log with
  | _ n ih =>
  have hseg := h.loop_segment hn
  have hnat : (BitVec.ofNat 32 n).toNat = n := Nat.mod_eq_of_lt (by omega)
  have hleft : (capOf ⟨BitVec.ofNat 32 n, false⟩).toNat = n := by
    rw [capOf_eq (by rwa [hnat]), hnat]
  have hsolo := single_segment L fetch (Block.new 0) t.pc t.memory (BitVec.ofNat 32 n)
  rw [hleft] at hsolo
  dsimp only at hsolo
  generalize hr : L.segment fetch n t.pc t.memory = r at hseg hsolo hns
  obtain ⟨rlog, rm, rpc, ending⟩ := r
  cases ending with
  | stuck e => exact absurd rfl (hns e)
  | cap =>
    obtain ⟨z, hz, hat, hm, hpc, hlen⟩ := hseg
    obtain ⟨s, hs, hsc, hsm, hsend, hsterm⟩ := hsolo
    have hc := hat.consists
    refine ⟨z.link, [], s, BitVec.ofNat 32 n, rlog, ?_, .last hs hsc, ?_,
      ⟨hc.nodes, hc.start_eq, hc.cycles, hc.pcs, hc.words⟩, hpc.trans hsend.symm, ?_, .inr hlen⟩
    · rw [hz]
      rfl
    · exact (Nat.add_zero _).trans hnat
    · unfold backTerminal
      rw [hsterm]
      exact congrArg Terminal.linkBlock hpc
  | ended term =>
    obtain ⟨v, hv, hm, hpc, hterm, hlpos, hle, hfollow, hl⟩ := hseg
    obtain ⟨s, hs, hsc, hsm, hsend, hsterm⟩ := hsolo
    dsimp only at hv hm hpc hlpos hle hfollow hl hsc hsm hsend
    have hfull : translateBlockInto L.translator (Block.new 0) t.pc fetch t.memory ⟨m, false⟩ =
        (s, .ok ()) := by
      have hle : n ≤ (capOf ⟨m, false⟩).toNat := (Nat.le_add_left _ _).trans_eq hn
      have hle' : capOf ⟨BitVec.ofNat 32 n, false⟩ ≤ capOf ⟨m, false⟩ := by
        rwa [BitVec.le_def, hleft]
      exact translate_of_loop _ (loop_solo_mono hle' hle hs m)
    have hlast : translateBlockInto L.translator (Block.new 0) t.pc fetch t.memory
        ⟨BitVec.ofNat 32 n, false⟩ = (s, .ok ()) := translate_of_loop _ (by rw [hleft]; exact hs)
    -- The block ends at `v`, or everything behind `v` is undone.
    have ends : ∀ {y : Translation σ}, Consists L fetch startPc memory y (log ++ rlog) →
        y.block.endPc = v.pc + 4 → y.backTerminal = v.backTerminal →
        Chained L fetch startPc memory m (BitVec.ofNat 32 n) log t.pc t.memory n y [] s rlog := by
      intro y hy hend hback
      exact ⟨.last hlast hsc, (Nat.add_zero _).trans hnat, hy,
        hend.trans ((congrArg (· + 4) hpc).trans hsend.symm), hback.trans (hterm.trans hsterm.symm),
        .inl (.last hfull hsc)⟩
    by_cases hstop : v.terminate ⟨m, true⟩ (capOf ⟨m, true⟩) = (v.stop (v.pc + 4), true)
    · rw [hstop] at hl
      refine ⟨v.stop (v.pc + 4), [], s, BitVec.ofNat 32 n, rlog, ?_, ends ?_ rfl rfl⟩
      · rw [hl]
        rfl
      · exact ⟨hv.nodes, hv.start_eq, hv.cycles, hv.pcs, hv.words⟩
    · have hroom : v.block.cycles < capOf ⟨m, true⟩ := by
        by_contra hfull
        exact hstop (terminate_full hfull)
      rw [terminate_room hroom] at hl hstop
      rcases terminate_cases' v ⟨m, true⟩ uncapped with hs | ⟨target, link, htarget, -, hfol⟩
      · exact absurd hs hstop
      · rw [hfol] at hl
        dsimp only at hl
        have hw := hfollow target link htarget hfol
        have hlen : (log ++ rlog).length = log.length + rlog.length := List.length_append
        rw [BitVec.lt_def, hv.cycles, hlen] at hroom
        have hn' : (log ++ rlog).length + (n - rlog.length) = (capOf ⟨m, true⟩).toNat := by omega
        have hpos' : 0 < n - rlog.length := by omega
        rw [hl]
        by_cases hst : ∃ e, (L.segment fetch (n - rlog.length) (v.follow (v.pc + 4) target).pc
            (v.follow (v.pc + 4) target).memory).ending = .stuck e
        · obtain ⟨e, he⟩ := hst
          have hmakes := hw.loop_segment hn'
          unfold MakesOf at hmakes
          rw [he] at hmakes
          obtain ⟨z, hz, hstuck, hzfol⟩ := hmakes
          obtain ⟨h₁, h₂, h₃⟩ := hstuck.undo_at hzfol hv (List.prefix_append _ _)
          refine ⟨z.undo v.followedAt, [], s, BitVec.ofNat 32 n, rlog, ?_, ends h₁ h₂ h₃⟩
          rw [hz, finish, hzfol]
          rfl
        · obtain ⟨y, ss, s', left, log', hy, hc⟩ := ih _ (by omega) hw hn' hpos' (not_exists.mp hst)
          have hbranch : s.block.terminal = .directBranch target link := by
            rw [← backTerminal_directBranch, hsterm, ← hterm, backTerminal_directBranch]
            exact htarget
          have hmem : (v.follow (v.pc + 4) target).memory = s.memory := hm.trans hsm.symm
          rw [hmem] at hc
          refine ⟨y, s :: ss, s', left, rlog ++ log', hy, ⟨.cons hfull hsc hbranch hc.chain, ?_, ?_,
            hc.endPc_eq, hc.terminal_eq, ?_⟩⟩
          · have hsum := hc.left_eq
            rw [List.map_cons, List.sum_cons, hsc.cycles]
            omega
          · rw [← List.append_assoc]
            exact hc.consists
          · rcases hc.full with hfull' | hcount
            · exact .inl (.cons hfull hsc hbranch hfull')
            · refine .inr ?_
              rw [List.length_append]
              omega

/-! ## Refinement -/

/-- **Following branches refines translating block by block.**  Both fail alike; and what follows
branches is the chain of the single blocks, the last one translated with the limit that is left:
either that one ends below its limit, or the limit is reached. -/
theorem multiblock_refines_single (L : Lowering) (fetch : U64 → σ → Option U32 × σ) (block : Block)
    (startPc : U64) (memory : σ) (max : U32) :
    (∀ e, (translateBlockInto L.translator block startPc fetch memory ⟨max, true⟩).2 = .error e ↔
      (translateBlockInto L.translator block startPc fetch memory ⟨max, false⟩).2 = .error e) ∧
    ∀ y, translateBlockInto L.translator block startPc fetch memory ⟨max, true⟩ = (y, .ok ()) →
      ∃ ss s left log, Chain L fetch max left startPc memory ss s log ∧
        left.toNat + (ss.map fun s => s.block.cycles.toNat).sum = (capOf ⟨max, true⟩).toNat ∧
        Consists L fetch startPc memory y log ∧
        y.insts.map TranslatedInst.pc =
          (ss ++ [s]).flatMap (fun s => s.insts.map TranslatedInst.pc) ∧
        y.block.body = (ss ++ [s]).flatMap (fun s => s.block.body) ∧
        y.block.endPc = s.block.endPc ∧ y.backTerminal = s.backTerminal ∧
        (Chain L fetch max max startPc memory ss s log ∨
          y.block.cycles = capOf ⟨max, true⟩) := by
  have hstart := at_start L fetch ⟨max, true⟩ startPc memory
  have hmulti : translateBlockInto L.translator block startPc fetch memory ⟨max, true⟩ =
      ((start startPc memory).loop L.translator fetch ⟨max, true⟩ (capOf ⟨max, true⟩)
        (capOf ⟨max, true⟩).toNat).1.finish ((start startPc memory).loop L.translator fetch
          ⟨max, true⟩ (capOf ⟨max, true⟩) (capOf ⟨max, true⟩).toNat).2 := rfl
  have hsingle := single_segment L fetch block startPc memory max
  have hn : ([] : InstLog).length + (capOf ⟨max, true⟩).toNat = (capOf ⟨max, true⟩).toNat :=
    Nat.zero_add _
  have hmakes := hstart.loop_segment hn
  by_cases hst : ∃ e, (L.segment fetch (capOf ⟨max, true⟩).toNat startPc memory).ending = .stuck e
  · obtain ⟨e, he⟩ := hst
    have he' : (L.segment fetch (capOf ⟨max, false⟩).toNat startPc memory).ending = .stuck e := he
    simp only [he'] at hsingle
    unfold MakesOf at hmakes
    have he'' : (L.segment fetch (capOf ⟨max, true⟩).toNat (start startPc memory).pc
      (start startPc memory).memory).ending = .stuck e := he
    rw [he''] at hmakes
    obtain ⟨z, hz, -, hfol⟩ := hmakes
    have hnone : z.followed = none := hfol
    have herr : (translateBlockInto L.translator block startPc fetch memory ⟨max, true⟩) =
        (z, .error e) := by
      rw [hmulti, hz, finish, hnone]
    rw [herr, hsingle]
    refine ⟨fun _ => Iff.rfl, fun y hy => ?_⟩
    cases hy
  · obtain ⟨y, ss, s, left, log, hy, hc⟩ := hstart.chain hn (capOf_pos _)
      (not_exists.mp hst)
    have hok : ∃ s, translateBlockInto L.translator block startPc fetch memory ⟨max, false⟩ =
        (s, .ok ()) := by
      dsimp only at hsingle
      split at hsingle
      · rename_i e he
        exact absurd ⟨e, he⟩ hst
      · obtain ⟨s, hs, -⟩ := hsingle
        exact ⟨s, hs⟩
      · obtain ⟨s, hs, -⟩ := hsingle
        exact ⟨s, translate_of_loop block hs⟩
    obtain ⟨s', hs'⟩ := hok
    rw [← hmulti] at hy
    refine ⟨fun e => ?_, fun y' hy' => ?_⟩
    · rw [hy, hs']
    · obtain rfl : y = y' := congrArg Prod.fst (hy.symm.trans hy')
      have hcons : Consists L fetch startPc memory y log := hc.consists
      refine ⟨ss, s, left, log, hc.chain, hc.left_eq, hcons, ?_, ?_, hc.endPc_eq, hc.terminal_eq,
        hc.full.imp_right fun hlen => ?_⟩
      · rw [hcons.pcs, hc.chain.pcs]
      · rw [hcons.body_eq, hc.chain.body]
      · exact BitVec.eq_of_toNat_eq (hcons.cycles.trans hlen)

/-- A branch to three hints with nothing mapped behind them. -/
def hintsAhead (pc : U64) : Option U32 :=
  if pc = 0x1000 then some 0x14000002
  else if pc = 0x1008 ∨ pc = 0x100C ∨ pc = 0x1010 then some 0xD503201F
  else none

/-- The single block at the target does not exist, but with followed branches the limit ends the
block before it gets to where the target cannot be translated. -/
theorem hintsAhead_not_chained : ¬ ∀ y : Translation Unit,
    translateBlockInto Lowering.branches.translator (Block.new 0) 0x1000
      (fun pc m => (hintsAhead pc, m)) () ⟨4, true⟩ = (y, .ok ()) →
    ∃ ss s log, Chain Lowering.branches (fun pc m => (hintsAhead pc, m)) 4 4 0x1000 () ss s log ∧
      y.insts.map TranslatedInst.pc <+: log.map Prod.fst := by
  intro h
  obtain ⟨ss, s, log, hchain, hpre⟩ := h _ (Prod.ext rfl (by rfl))
  have hfirst : ∀ {b : Block} {s : Translation Unit}, translateBlockInto
      Lowering.branches.translator b 0x1000 (fun pc m => (hintsAhead pc, m)) () ⟨4, false⟩ =
      (s, .ok ()) → s.insts.map TranslatedInst.pc = [0x1000] ∧
        s.block.terminal = .directBranch 0x1008 false := by
    intro b s hs
    obtain rfl : _ = s := congrArg Prod.fst hs
    exact ⟨by rfl, by rfl⟩
  have hsecond : ∀ {b : Block} {m : Unit} {s : Translation Unit}, translateBlockInto
      Lowering.branches.translator b 0x1008 (fun pc m => (hintsAhead pc, m)) m ⟨4, false⟩ ≠
      (s, .ok ()) := by
    intro b m s hs
    cases congrArg Prod.snd hs
  cases hchain with
  | last hs hlog =>
    rw [← hlog.pcs, (hfirst hs).1] at hpre
    exact absurd hpre.length_le (by decide)
  | cons hs hlog hbranch hrest =>
    obtain ⟨rfl, -⟩ := Terminal.directBranch.inj (hbranch.symm.trans (hfirst hs).2)
    cases hrest with
    | last hs' => exact hsecond hs'
    | cons hs' => exact hsecond hs'

theorem multiblock_refines_single_hintsAhead :
    ∃ ss s left log, Chain Lowering.branches (fun pc m => (hintsAhead pc, m)) 4 left 0x1000 () ss s
        log ∧
      left.toNat + (ss.map fun s => s.block.cycles.toNat).sum = 4 ∧ log.length = 4 := by
  obtain ⟨ss, s, left, log, hchain, hleft, hlog, -⟩ := (multiblock_refines_single Lowering.branches
    (fun pc m => (hintsAhead pc, m)) (Block.new 0) 0x1000 () 4).2 _ (Prod.ext rfl (by rfl))
  exact ⟨ss, s, left, log, hchain, hleft, hlog.cycles.symm.trans (by rfl)⟩

end Translation

end Rustarmic
