import Rustarmic.Frontend.Lowering

/-!
# The walk of the translator

Without the instruction cap the loop of `translateBlockInto` walks through the guest code until an
instruction cannot be translated or ends the block.  With a cap it makes the same turns, but for the
last one, after which no branch is followed (`translateBlockInto_eq`).

* `Lowering.assemble` — the block that the instructions of a log make, one after another.
* `Consists` — a translation consists of the instructions of a log: these PCs and words, in this
  order, and the nodes of the block they make.
* `Junction` — the state at a branch the walk has followed.
* `At` — what the walk knows in every state, kept by every turn (`At.step`) and by the whole walk
  (`At.walk`).
-/

set_option autoImplicit false

namespace Rustarmic

/-- Guest instructions: PC and word. -/
abbrev InstLog := List (U64 × U32)

/-- Fetching the words of the log one after another leads from one state of the fetch function to
another. -/
def Fetched {σ : Type} (fetch : U64 → σ → Option U32 × σ) : σ → InstLog → σ → Prop
  | m, [], m' => m' = m
  | m, i :: log, m' => (fetch i.1 m).1 = some i.2 ∧ Fetched fetch (fetch i.1 m).2 log m'

theorem Fetched.append {σ : Type} {fetch : U64 → σ → Option U32 × σ} {m₁ m₂ m₃ : σ}
    {log log' : InstLog} (h : Fetched fetch m₁ log m₂) (h' : Fetched fetch m₂ log' m₃) :
    Fetched fetch m₁ (log ++ log') m₃ := by
  induction log generalizing m₁ with
  | nil =>
    obtain rfl : m₂ = m₁ := h
    exact h'
  | cons i log ih => exact ⟨h.1, ih h.2⟩

namespace Lowering

variable {L : Lowering} {start : U64} {log log' : InstLog}

/-- The block that the instructions of a log make. -/
def assemble (L : Lowering) (start : U64) (log : InstLog) : Block :=
  log.foldl (fun b i => (L.emission i.1 i.2).apply b i.1) (Block.new start)

theorem assemble_concat (i : U64 × U32) :
    L.assemble start (log ++ [i]) = (L.emission i.1 i.2).apply (L.assemble start log) i.1 :=
  List.foldl_append

theorem assemble_size_pos (L : Lowering) (start : U64) (log : InstLog) :
    0 < (L.assemble start log).code.size := by
  induction log using List.reverseRecOn with
  | nil => exact Nat.one_pos
  | append_singleton log i ih =>
    rw [assemble_concat, Emission.apply_eq]
    show 0 < (Block.pushAll _ _).code.size
    rw [Block.size_pushAll]
    exact Nat.add_pos_left ih _

theorem assemble_linked (L : Lowering) (start : U64) (log : InstLog) :
    ∃ l, (L.assemble start log).Linked l := by
  induction log using List.reverseRecOn with
  | nil => exact ⟨[], Block.Linked.new start⟩
  | append_singleton log i ih =>
    obtain ⟨l, hl⟩ := ih
    rw [assemble_concat]
    exact ⟨_, (hl.pushAll (L.assemble_size_pos start log) _).of_nodes (Emission.apply_nodes _ _ _)⟩

/-- More instructions push more nodes. -/
theorem assemble_append_nodes (L : Lowering) (start : U64) (log log' : InstLog) :
    ∃ as, (L.assemble start (log ++ log')).nodes = ((L.assemble start log).pushAll as).nodes := by
  induction log' using List.reverseRecOn with
  | nil => exact ⟨[], by rw [List.append_nil]; rfl⟩
  | append_singleton log' i ih =>
    obtain ⟨as, has⟩ := ih
    rw [← List.append_assoc, assemble_concat, Emission.apply_nodes, Block.pushAll_nodes has,
      ← Block.pushAll_append]
    exact ⟨_, rfl⟩

end Lowering

namespace Translation

section Walk

variable {σ : Type} (L : Lowering) (fetch : U64 → σ → Option U32 × σ) (opts : TranslateOptions)

/-- No cap: the largest one. -/
def uncapped : U32 := BitVec.allOnes 32

/-- `k` turns of the loop without the cap. -/
def walk : Nat → Translation σ → Translation σ × Except Error Bool
  | 0, t => (t, .ok false)
  | k + 1, t => match t.step L.translator fetch opts uncapped with
    | (t, .ok false) => walk k t
    | r => r

/-- The state the loop starts in. -/
def start (startPc : U64) (memory : σ) : Translation σ :=
  ⟨Block.new startPc, memory, startPc, startPc, none, []⟩

/-- The state after one more instruction, before its terminal is looked at. -/
def advance (t : Translation σ) (memory : σ) (inst : U32) : Translation σ :=
  ({ t with memory } : Translation σ).count ((L.emission t.pc inst).apply t.block t.pc)

end Walk

variable {σ : Type} {L : Lowering} {fetch : U64 → σ → Option U32 × σ} {opts : TranslateOptions}
  {max : U32} {t t' u v : Translation σ} {startPc : U64} {memory : σ} {log log' : InstLog}
  {r : Except Error Bool}

/-! ## One turn -/

/-- **A turn** in terms of what the instruction emits. -/
theorem step_eq (L : Lowering) (fetch : U64 → σ → Option U32 × σ) (opts : TranslateOptions)
    (max : U32) (h : ∃ l, t.block.Linked l) (hpos : 0 < t.block.code.size) :
    t.step L.translator fetch opts max =
      match (fetch t.pc t.memory).1 with
      | none => ({ t with memory := (fetch t.pc t.memory).2 }, .error (.guestMemory t.pc))
      | some inst => match (L.emission t.pc inst).outcome with
        | .error e => ({ t with memory := (fetch t.pc t.memory).2,
                                block := (L.emission t.pc inst).apply t.block t.pc }, .error e)
        | .continues =>
          ({ t.advance L (fetch t.pc t.memory).2 inst with pc := t.pc + 4 }, .ok false)
        | .terminator _ =>
          (((t.advance L (fetch t.pc t.memory).2 inst).terminate opts max).1,
            .ok ((t.advance L (fetch t.pc t.memory).2 inst).terminate opts max).2) := by
  obtain ⟨l, hl⟩ := h
  unfold step
  dsimp only
  cases (fetch t.pc t.memory).1 with
  | none => rfl
  | some inst =>
    have htr : L.translator.translateInstruction t.block t.pc inst = _ :=
      L.translateInstruction_eq hl hpos t.pc inst
    simp only [htr]
    cases (L.emission t.pc inst).outcome <;> rfl

/-- With room for another instruction the cap plays no part; without, no branch is followed. -/
theorem terminate_room (h : t.block.cycles < max) :
    t.terminate opts max = t.terminate opts uncapped := by
  have hle : max ≤ uncapped := by
    rw [BitVec.le_def, uncapped, BitVec.toNat_allOnes]
    have := max.isLt
    omega
  have h' : t.block.cycles < uncapped := by
    rw [BitVec.lt_def] at h ⊢
    rw [BitVec.le_def] at hle
    omega
  simp only [terminate, h, h', decide_true]

theorem terminate_full (h : ¬ t.block.cycles < max) :
    t.terminate opts max = (t.stop (t.pc + 4), true) := by
  unfold terminate
  dsimp only
  split
  · rw [if_neg (by simp [h])]
  · rfl

theorem walk_add (k n : Nat) (t : Translation σ) :
    t.walk L fetch opts (k + n) = match t.walk L fetch opts k with
      | (t, .ok false) => t.walk L fetch opts n
      | r => r := by
  induction k generalizing t with
  | zero => rw [Nat.zero_add, walk]
  | succ k ih =>
    rw [Nat.succ_add, walk, walk]
    match t.step L.translator fetch opts uncapped with
    | (t, .ok false) => exact ih t
    | (t, .ok true) => rfl
    | (t, .error e) => rfl

/-- A walk that ended stays there. -/
theorem walk_of_ended {k n : Nat} (h : t.walk L fetch opts k = (u, r)) (hr : r ≠ .ok false)
    (hn : k ≤ n) : t.walk L fetch opts n = (u, r) := by
  obtain ⟨m, rfl⟩ := Nat.exists_eq_add_of_le hn
  rw [walk_add, h]
  match r, hr with
  | .ok true, _ => rfl
  | .error e, _ => rfl

end Translation

/-! ## Where an instruction goes -/

namespace Terminal

/-- The PC a terminal leads to, if it is known. -/
def nextPc : Terminal → Option U64
  | linkBlock pc => some pc
  | directBranch targetPc _ => some targetPc
  | _ => none

theorem nextPc_mapValue (f : ValueRef → ValueRef) (t : Terminal) :
    (t.mapValue f).nextPc = t.nextPc := by
  cases t <;> rfl

end Terminal

namespace Lowering

/-- The PC after an instruction, if it is known. -/
def goesTo (L : Lowering) (i : U64 × U32) : Option U64 :=
  match (L.emission i.1 i.2).outcome with
  | .error _ => none
  | .continues => some (i.1 + 4)
  | .terminator t => t.nextPc

/-- The instructions of the log follow one another from `pc` on and lead to `q`. -/
def Flow (L : Lowering) : U64 → InstLog → Option U64 → Prop
  | pc, [], q => q = some pc
  | pc, i :: log, q => i.1 = pc ∧ match L.goesTo i with
    | some p => Flow L p log q
    | none => log = [] ∧ q = none

variable {L : Lowering} {pc p : U64} {q q' : Option U64} {log log' : InstLog}

theorem Flow.append (h : L.Flow pc log (some p)) (h' : L.Flow p log' q) :
    L.Flow pc (log ++ log') q := by
  induction log generalizing pc with
  | nil =>
    cases h
    exact h'
  | cons i log ih =>
    rw [List.cons_append, Flow] at *
    refine ⟨h.1, ?_⟩
    cases hg : L.goesTo i with
    | none =>
      rw [hg] at h
      cases h.2.2
    | some p' =>
      rw [hg] at h
      exact ih h.2

/-- Where the instructions lead before the end of the log, the log goes on there. -/
theorem Flow.next (h : L.Flow pc (log ++ log') q) (hp : L.Flow pc log (some p)) (hne : log' ≠ []) :
    (log'.map Prod.fst).head? = some p := by
  induction log generalizing pc with
  | nil =>
    cases hp
    cases log' with
    | nil => exact absurd rfl hne
    | cons i log' => exact congrArg some h.1
  | cons i log ih =>
    rw [List.cons_append, Flow] at *
    cases hg : L.goesTo i with
    | none =>
      rw [hg] at hp
      cases hp.2.2
    | some p' =>
      rw [hg] at h hp
      exact ih h.2 hp.2

/-- Where it is not known where the instructions lead, the log ends. -/
theorem Flow.eq_nil (h : L.Flow pc (log ++ log') q) (hn : L.Flow pc log none) : log' = [] := by
  induction log generalizing pc with
  | nil => cases hn
  | cons i log ih =>
    rw [List.cons_append, Flow] at *
    cases hg : L.goesTo i with
    | none =>
      rw [hg] at h
      exact (List.append_eq_nil_iff.mp h.2.1).2
    | some p' =>
      rw [hg] at h hn
      exact ih h.2 hn.2

end Lowering

/-! ## What the walk knows -/

namespace Translation

section Invariant

variable {σ : Type} (L : Lowering) (fetch : U64 → σ → Option U32 × σ) (opts : TranslateOptions)
  (startPc : U64) (memory : σ)

/-- The translation consists of the instructions of the log. -/
structure Consists (t : Translation σ) (log : InstLog) : Prop where
  nodes : t.block.nodes = (L.assemble startPc log).nodes
  start_eq : t.block.startPc = startPc
  cycles : t.block.cycles.toNat = log.length
  pcs : t.insts.map TranslatedInst.pc = log.map Prod.fst
  words : ∃ m, Fetched fetch memory log m

/-- `v` is the state right after a direct branch to `target` that the walk follows. -/
structure Junction (v : Translation σ) (log : InstLog) (target : U64) : Prop where
  consists : Consists L fetch startPc memory v log
  log_ne : log ≠ []
  terminal : ∃ link, v.block.terminal = .directBranch target link
  flow : L.Flow startPc log (some target)
  reached : ∃ u, (start startPc memory).walk L fetch opts (log.length - 1) = (u, .ok false) ∧
    ∀ max, u.step L.translator fetch opts max =
      ((v.terminate opts max).1, .ok (v.terminate opts max).2)

/-- What the loop remembers of a junction. -/
def followedAt (v : Translation σ) : Followed :=
  ⟨v.block.mark, v.block.cycles, v.block.ranges.length, v.block.terminal, v.pc, v.insts⟩

/-- The walk has come through the instructions of the log. -/
structure At (t : Translation σ) (log : InstLog) : Prop where
  consists : Consists L fetch startPc memory t log
  fetched : Fetched fetch memory log t.memory
  flow : L.Flow startPc log (some t.pc)
  reached : (start startPc memory).walk L fetch opts log.length = (t, .ok false)
  followed : ∀ f, t.followed = some f → ∃ v log₁ log₂ target,
    Junction L fetch opts startPc memory v log₁ target ∧ log = log₁ ++ log₂ ∧ f = v.followedAt ∧
      ∃ more, t.block.ranges = v.block.ranges ++ (v.segStart, v.pc + 4) :: more

/-- The instruction after the log cannot be translated. -/
structure Stuck (z : Translation σ) (log : InstLog) : Prop where
  at_prev : ∃ t, At L fetch opts startPc memory t log ∧ z.followed = t.followed ∧
    z.block.startPc = t.block.startPc ∧ z.block.ranges = t.block.ranges ∧
    ∃ as, z.block.nodes = (t.block.pushAll as).nodes

end Invariant

variable {σ : Type} {L : Lowering} {fetch : U64 → σ → Option U32 × σ} {opts : TranslateOptions}
  {max : U32} {t t' u v z : Translation σ} {startPc : U64} {memory : σ} {log log' : InstLog}
  {r : Except Error Bool}

theorem Consists.linked (h : Consists L fetch startPc memory t log) :
    (∃ l, t.block.Linked l) ∧ 0 < t.block.code.size := by
  obtain ⟨l, hl⟩ := L.assemble_linked startPc log
  have hcode : t.block.code = (L.assemble startPc log).code := congrArg Prod.fst h.nodes
  exact ⟨⟨l, hl.of_nodes h.nodes⟩, by rw [hcode]; exact L.assemble_size_pos startPc log⟩

theorem at_start (L : Lowering) (fetch : U64 → σ → Option U32 × σ) (opts : TranslateOptions)
    (startPc : U64) (memory : σ) : At L fetch opts startPc memory (start startPc memory) [] where
  consists := ⟨rfl, rfl, rfl, rfl, memory, rfl⟩
  fetched := rfl
  flow := rfl
  reached := rfl
  followed := by rintro f ⟨⟩

/-- One more instruction. -/
theorem Consists.advance (h : Consists L fetch startPc memory t log)
    (hm : Fetched fetch memory log t.memory) {inst : U32}
    (hf : (fetch t.pc t.memory).1 = some inst) (hroom : log.length + 1 < 2 ^ 32) :
    Consists L fetch startPc memory (t.advance L (fetch t.pc t.memory).2 inst)
      (log ++ [(t.pc, inst)]) where
  nodes := by
    have hcode : t.block.code = (L.assemble startPc log).code := congrArg Prod.fst h.nodes
    show ((L.emission t.pc inst).apply t.block t.pc).nodes = _
    rw [Lowering.assemble_concat, Emission.apply_nodes, Emission.apply_nodes, hcode,
      Block.pushAll_nodes h.nodes]
  start_eq := by
    show ((L.emission t.pc inst).apply t.block t.pc).startPc = _
    rw [Emission.apply_startPc, h.start_eq]
  cycles := by
    show (saturatingSucc ((L.emission t.pc inst).apply t.block t.pc).cycles).toNat = _
    have hc := h.cycles
    have hne : t.block.cycles ≠ BitVec.allOnes 32 := by
      intro he
      rw [he, BitVec.toNat_allOnes] at hc
      omega
    rw [Emission.apply_cycles, saturatingSucc, if_neg hne, BitVec.toNat_add, hc,
      List.length_append]
    exact Nat.mod_eq_of_lt (by simpa using hroom)
  pcs := by
    show (t.insts ++ [_]).map TranslatedInst.pc = _
    rw [List.map_append, List.map_append, h.pcs]
    rfl
  words := ⟨_, hm.append (show Fetched fetch t.memory [(t.pc, inst)] (fetch t.pc t.memory).2 from
    ⟨hf, rfl⟩)⟩

/-- The terminal after the last instruction of a block. -/
theorem advance_terminal {inst : U32} {m : σ} {term : Terminal}
    (ho : (L.emission t.pc inst).outcome = .terminator term) :
    (t.advance L m inst).block.terminal = term.mapValue (Emission.valueAt t.block.code.size) := by
  show ((L.emission t.pc inst).apply t.block t.pc).terminal = _
  rw [Emission.apply_eq, ho]

theorem flow_single {pc : U64} {inst : U32} {q : Option U64} (h : L.goesTo (pc, inst) = q) :
    L.Flow pc [(pc, inst)] q := by
  refine ⟨rfl, ?_⟩
  rw [h]
  cases q with
  | none => exact ⟨rfl, rfl⟩
  | some p => rfl

/-- What becomes of the terminal. -/
theorem terminate_cases' (v : Translation σ) (opts : TranslateOptions) (max : U32) :
    v.terminate opts max = (v.stop (v.pc + 4), true) ∨
      ∃ target link, v.block.terminal = .directBranch target link ∧ opts.multiblock = true ∧
        v.terminate opts max = (v.follow (v.pc + 4) target, false) := by
  unfold terminate
  dsimp only
  split
  · rename_i target link ht
    split
    · rename_i hc
      simp only [Bool.and_eq_true] at hc
      exact .inr ⟨target, link, ht, hc.1.1.1, rfl⟩
    · exact .inl rfl
  · exact .inl rfl

theorem fetched_one {m : σ} {pc : U64} {inst : U32} (hf : (fetch pc m).1 = some inst) :
    Fetched fetch m [(pc, inst)] (fetch pc m).2 := ⟨hf, rfl⟩

/-- An instruction that does not end the block. -/
theorem At.continues (h : At L fetch opts startPc memory t log) {inst : U32}
    (hf : (fetch t.pc t.memory).1 = some inst)
    (ho : (L.emission t.pc inst).outcome = .continues) (hroom : log.length + 1 < 2 ^ 32) :
    At L fetch opts startPc memory
        { t.advance L (fetch t.pc t.memory).2 inst with pc := t.pc + 4 } (log ++ [(t.pc, inst)]) ∧
      ∀ max, t.step L.translator fetch opts max =
        ({ t.advance L (fetch t.pc t.memory).2 inst with pc := t.pc + 4 }, .ok false) := by
  obtain ⟨hl, hpos⟩ := h.consists.linked
  have hstep := fun max => step_eq L fetch opts max hl hpos
  simp only [hf, ho] at hstep
  have hadv := h.consists.advance h.fetched hf hroom
  have hgo : L.goesTo (t.pc, inst) = some (t.pc + 4) := by simp only [Lowering.goesTo, ho]
  have hlen : (log ++ [(t.pc, inst)]).length = log.length + 1 := List.length_append
  refine ⟨⟨⟨hadv.nodes, hadv.start_eq, hadv.cycles, hadv.pcs, hadv.words⟩,
    h.fetched.append (fetched_one hf), h.flow.append (flow_single hgo), ?_, ?_⟩, hstep⟩
  · rw [hlen, walk_add, h.reached]
    simp only [walk, hstep]
  · intro f hfol
    obtain ⟨v, log₁, log₂, target, hj, hlog, hfv, more, hmore⟩ := h.followed f hfol
    refine ⟨v, log₁, log₂ ++ [(t.pc, inst)], target, hj, ?_, hfv, more, ?_⟩
    · rw [hlog, List.append_assoc]
    · show ((L.emission t.pc inst).apply t.block t.pc).ranges = _
      rw [Emission.apply_ranges, hmore]

/-- An instruction that ends the block, or that the walk follows. -/
theorem At.terminator (h : At L fetch opts startPc memory t log) {inst : U32} {term : Terminal}
    (hf : (fetch t.pc t.memory).1 = some inst)
    (ho : (L.emission t.pc inst).outcome = .terminator term) (hroom : log.length + 1 < 2 ^ 32) :
    Consists L fetch startPc memory (t.advance L (fetch t.pc t.memory).2 inst)
        (log ++ [(t.pc, inst)]) ∧
      L.Flow startPc (log ++ [(t.pc, inst)])
        (t.advance L (fetch t.pc t.memory).2 inst).block.terminal.nextPc ∧
      (∀ max, t.step L.translator fetch opts max =
        (((t.advance L (fetch t.pc t.memory).2 inst).terminate opts max).1,
          .ok ((t.advance L (fetch t.pc t.memory).2 inst).terminate opts max).2)) ∧
      ∀ target link,
        (t.advance L (fetch t.pc t.memory).2 inst).block.terminal = .directBranch target link →
        (t.advance L (fetch t.pc t.memory).2 inst).terminate opts uncapped =
          ((t.advance L (fetch t.pc t.memory).2 inst).follow (t.pc + 4) target, false) →
        Junction L fetch opts startPc memory (t.advance L (fetch t.pc t.memory).2 inst)
            (log ++ [(t.pc, inst)]) target ∧
          At L fetch opts startPc memory
            ((t.advance L (fetch t.pc t.memory).2 inst).follow (t.pc + 4) target)
            (log ++ [(t.pc, inst)]) := by
  obtain ⟨hl, hpos⟩ := h.consists.linked
  have hstep := fun max => step_eq L fetch opts max hl hpos
  simp only [hf, ho] at hstep
  have hadv := h.consists.advance h.fetched hf hroom
  have hterm := advance_terminal (m := (fetch t.pc t.memory).2) ho
  have hgo : L.goesTo (t.pc, inst) = term.nextPc := by simp only [Lowering.goesTo, ho]
  have hlen : (log ++ [(t.pc, inst)]).length = log.length + 1 := List.length_append
  have hflow : L.Flow startPc (log ++ [(t.pc, inst)])
      (t.advance L (fetch t.pc t.memory).2 inst).block.terminal.nextPc := by
    rw [hterm, Terminal.nextPc_mapValue]
    exact h.flow.append (flow_single hgo)
  refine ⟨hadv, hflow, hstep, fun target link htarget hfollow => ?_⟩
  have hflow' : L.Flow startPc (log ++ [(t.pc, inst)]) (some target) := by
    rw [htarget] at hflow
    exact hflow
  have hj : Junction L fetch opts startPc memory (t.advance L (fetch t.pc t.memory).2 inst)
      (log ++ [(t.pc, inst)]) target :=
    ⟨hadv, by simp, ⟨link, htarget⟩, hflow', t, by simpa using h.reached, hstep⟩
  refine ⟨hj, ⟨hadv.nodes, hadv.start_eq, hadv.cycles, hadv.pcs, hadv.words⟩,
    h.fetched.append (fetched_one hf), hflow', ?_, ?_⟩
  · rw [hlen, walk_add, h.reached]
    simp only [walk, hstep, hfollow]
  · rintro f hfol
    exact ⟨_, _, [], target, hj, (List.append_nil _).symm, (Option.some.inj hfol).symm, [], rfl⟩

/-- The word cannot be fetched. -/
theorem At.unmapped (h : At L fetch opts startPc memory t log)
    (hf : (fetch t.pc t.memory).1 = none) :
    Stuck L fetch opts startPc memory { t with memory := (fetch t.pc t.memory).2 } log ∧
      ∀ max, t.step L.translator fetch opts max =
        ({ t with memory := (fetch t.pc t.memory).2 }, .error (.guestMemory t.pc)) := by
  obtain ⟨hl, hpos⟩ := h.consists.linked
  have hstep := fun max => step_eq L fetch opts max hl hpos
  simp only [hf] at hstep
  exact ⟨⟨t, h, rfl, rfl, rfl, [], rfl⟩, hstep⟩

/-- The word cannot be translated. -/
theorem At.failed (h : At L fetch opts startPc memory t log) {inst : U32} {e : Error}
    (hf : (fetch t.pc t.memory).1 = some inst)
    (ho : (L.emission t.pc inst).outcome = .error e) :
    ∃ z, Stuck L fetch opts startPc memory z log ∧ z.followed = t.followed ∧
      ∀ max, t.step L.translator fetch opts max = (z, .error e) := by
  obtain ⟨hl, hpos⟩ := h.consists.linked
  have hstep := fun max => step_eq L fetch opts max hl hpos
  simp only [hf, ho] at hstep
  refine ⟨_, ?_, ?_, hstep⟩
  · exact ⟨t, h, rfl, Emission.apply_startPc, Emission.apply_ranges, _,
      Emission.apply_nodes _ _ _⟩
  · rfl

/-- **One turn of the walk**: it is stuck, ends the block, or goes on; and what it does at a branch
depends on the cap only in whether the branch is followed. -/
theorem At.turn (h : At L fetch opts startPc memory t log) (hroom : log.length + 1 < 2 ^ 32) :
    (∃ z e, Stuck L fetch opts startPc memory z log ∧
        ∀ max, t.step L.translator fetch opts max = (z, .error e)) ∨
      (∃ t' i, At L fetch opts startPc memory t' (log ++ [i]) ∧
        ∀ max, t.step L.translator fetch opts max = (t', .ok false)) ∨
      ∃ v i, Consists L fetch startPc memory v (log ++ [i]) ∧
        L.Flow startPc (log ++ [i]) v.block.terminal.nextPc ∧
        (∀ max, t.step L.translator fetch opts max =
          ((v.terminate opts max).1, .ok (v.terminate opts max).2)) ∧
        (v.terminate opts uncapped = (v.stop (v.pc + 4), true) ∨
          ∃ target, Junction L fetch opts startPc memory v (log ++ [i]) target ∧
            v.terminate opts uncapped = (v.follow (v.pc + 4) target, false) ∧
            At L fetch opts startPc memory (v.follow (v.pc + 4) target) (log ++ [i])) := by
  cases hf : (fetch t.pc t.memory).1 with
  | none =>
    obtain ⟨hz, hs⟩ := h.unmapped hf
    exact .inl ⟨_, _, hz, hs⟩
  | some inst =>
    cases ho : (L.emission t.pc inst).outcome with
    | error e =>
      obtain ⟨z, hz, -, hs⟩ := h.failed hf ho
      exact .inl ⟨z, e, hz, hs⟩
    | continues =>
      obtain ⟨h', hs⟩ := h.continues hf ho hroom
      exact .inr (.inl ⟨_, _, h', hs⟩)
    | terminator term =>
      obtain ⟨hv, hflow, hs, hfol⟩ := h.terminator hf ho hroom
      refine .inr (.inr ⟨_, _, hv, hflow, hs, ?_⟩)
      rcases terminate_cases' (t.advance L (fetch t.pc t.memory).2 inst) opts uncapped with
        hstop | ⟨target, link, htarget, -, hfollow⟩
      · exact .inl hstop
      · obtain ⟨hj, h'⟩ := hfol target link htarget hfollow
        exact .inr ⟨target, hj, hfollow, h'⟩

end Translation

end Rustarmic
