import Rustarmic.Frontend.Walk

/-!
# Slices and rollbacks

What a block has to do with the walk of its translation, for every cap.

* `translateBlockInto_eq` — a translation with a cap is the walk up to the turn before the cap, one
  turn at the cap, and what `finish` makes of it.
* `rollback_exact` — rolling a failed tail back gives the very block that the cap at the last
  followed branch gives.
* `translate_slices` — of two translations with different caps one is a slice of the other: the same
  instructions and nodes, and a terminal that leads to the next instruction of the longer one.

The cap is the budget of a run, so that a program is translated with many different caps, and single
steps use a cap of one.  All of these have to be the same program.  The walk (`Frontend.Walk`) goes
on without a cap until something stops it; a translation with a cap is where this walk is at that
point, and it is enough to compare each translation with the walk instead of with each other.

The cap does two things.  It ends the block after so many instructions, with a link to the next
one.  And it decides whether a branch is still followed, for at the last instruction there is
nothing to follow it with: the block ends with the branch then.  A rollback ends the block with a
branch as well, and this is the reason why it is exact: what is left is what the cap at that branch
would have given, in every field of the block.
-/

set_option autoImplicit false

namespace Rustarmic

namespace Translation

variable {σ : Type} {L : Lowering} {fetch : U64 → σ → Option U32 × σ} {opts : TranslateOptions}
  {max : U32} {t t' u v z : Translation σ} {startPc : U64} {memory : σ} {log log' : InstLog}
  {r : Except Error Bool} {k : Nat}

/-! ## The walk and the cap -/

/-- The walk does not depend on the cap. -/
theorem walk_maxInsts (opts : TranslateOptions) (m : U32) :
    t.walk L fetch { opts with maxInsts := m } k = t.walk L fetch opts k := by
  induction k generalizing t with
  | zero => rfl
  | succ k ih =>
    have hstep : t.step L.translator fetch { opts with maxInsts := m } uncapped =
        t.step L.translator fetch opts uncapped := rfl
    rw [walk, walk, hstep]
    split
    · exact ih
    · rfl

/-- `k` turns of the walk and one turn at the cap. -/
def capped (L : Lowering) (fetch : U64 → σ → Option U32 × σ) (opts : TranslateOptions) (max : U32)
    (k : Nat) (t : Translation σ) : Translation σ × Except Error Bool :=
  match t.walk L fetch opts k with
  | (t, .ok false) => t.step L.translator fetch opts max
  | r => r

theorem capped_succ (h : t.step L.translator fetch opts uncapped = (t', .ok false)) :
    capped L fetch opts max (k + 1) t = capped L fetch opts max k t' := by
  unfold capped
  rw [walk, h]

/-- The loop with a cap makes the turns of the walk, and the last one at the cap. -/
theorem loop_eq (h : At L fetch opts startPc memory t log) (hk : log.length + k + 1 = max.toNat) :
    t.loop L.translator fetch opts max (k + 1) = capped L fetch opts max k t := by
  have hmax := max.isLt
  induction k generalizing t log with
  | zero =>
    have hlt : t.block.cycles < max := by
      rw [BitVec.lt_def, h.consists.cycles]
      omega
    rw [loop, if_pos hlt, capped, walk]
    dsimp only
    split
    · rename_i t₁ hs
      rw [hs, loop]
    · rename_i hne
      exact hne.symm
  | succ k ih =>
    have hlt : t.block.cycles < max := by
      rw [BitVec.lt_def, h.consists.cycles]
      omega
    rw [loop, if_pos hlt]
    rcases h.turn (by omega) with ⟨z, e, -, hs⟩ | ⟨t', i, h', hs⟩ | ⟨v, i, hv, -, hs, hend⟩
    · simp only [hs, capped, walk]
    · rw [hs, capped_succ (hs uncapped)]
      exact ih h' (by rw [List.length_append, List.length_singleton]; omega)
    · have hroom : v.block.cycles < max := by
        rw [BitVec.lt_def, hv.cycles, List.length_append, List.length_singleton]
        omega
      have hsm := hs max
      rw [terminate_room hroom] at hsm
      rcases hend with hstop | ⟨target, -, hfollow, h'⟩
      · rw [hstop] at hsm
        have hsu := hs uncapped
        rw [hstop] at hsu
        rw [hsm, capped, walk, hsu]
      · rw [hfollow] at hsm
        have hsu := hs uncapped
        rw [hfollow] at hsu
        rw [hsm, capped_succ hsu]
        exact ih h' (by rw [List.length_append, List.length_singleton]; omega)

/-- The cap in force. -/
def capOf (opts : TranslateOptions) : U32 := if opts.maxInsts = 0 then 1 else opts.maxInsts

theorem capOf_pos (opts : TranslateOptions) : 0 < (capOf opts).toNat := by
  unfold capOf
  split
  · decide
  · rename_i hne
    exact Nat.pos_of_ne_zero fun h0 => hne (BitVec.eq_of_toNat_eq h0)

/-- The loop of a translation with a cap. -/
theorem loop_capped (L : Lowering) (fetch : U64 → σ → Option U32 × σ) (opts : TranslateOptions)
    (startPc : U64) (memory : σ) :
    (start startPc memory).loop L.translator fetch opts (capOf opts) (capOf opts).toNat =
      capped L fetch opts (capOf opts) ((capOf opts).toNat - 1) (start startPc memory) := by
  have hpos := capOf_pos opts
  have hfuel : (capOf opts).toNat = (capOf opts).toNat - 1 + 1 := by omega
  have hk : ([] : InstLog).length + ((capOf opts).toNat - 1) + 1 = (capOf opts).toNat := by
    rw [List.length_nil]
    omega
  have hloop := loop_eq (at_start L fetch opts startPc memory) hk
  rwa [← hfuel] at hloop

/-- **A translation with a cap.** -/
theorem translateBlockInto_eq (L : Lowering) (fetch : U64 → σ → Option U32 × σ)
    (opts : TranslateOptions) (block : Block) (startPc : U64) (memory : σ) :
    translateBlockInto L.translator block startPc fetch memory opts =
      (capped L fetch opts (capOf opts) ((capOf opts).toNat - 1) (start startPc memory)).1.finish
        (capped L fetch opts (capOf opts) ((capOf opts).toNat - 1) (start startPc memory)).2 := by
  rw [← loop_capped]
  rfl

/-! ## Where a capped walk ends -/

/-- What a capped walk through the instructions of the log ends with. -/
inductive Ending (L : Lowering) (fetch : U64 → σ → Option U32 × σ) (opts : TranslateOptions)
    (startPc : U64) (memory : σ) (max : U32) (log : InstLog) :
    Translation σ × Except Error Bool → Prop where
  | stuck {z : Translation σ} {e : Error} (h : Stuck L fetch opts startPc memory z log) :
    Ending L fetch opts startPc memory max log (z, .error e)
  | cap {z : Translation σ} (h : At L fetch opts startPc memory z log)
    (hlen : log.length = max.toNat) : Ending L fetch opts startPc memory max log (z, .ok false)
  | stop {v : Translation σ} (h : Consists L fetch startPc memory v log)
    (hflow : L.Flow startPc log v.block.terminal.nextPc) :
    Ending L fetch opts startPc memory max log (v.stop (v.pc + 4), .ok true)

theorem capped_ending (h : At L fetch opts startPc memory t log)
    (hk : log.length + k + 1 = max.toNat) :
    ∃ log', Ending L fetch opts startPc memory max (log ++ log')
      (capped L fetch opts max k t) := by
  have hmax := max.isLt
  induction k generalizing t log with
  | zero =>
    have hcapped : capped L fetch opts max 0 t = t.step L.translator fetch opts max := rfl
    rw [hcapped]
    rcases h.turn (by omega) with ⟨z, e, hz, hs⟩ | ⟨t', i, h', hs⟩ | ⟨v, i, hv, hflow, hs, -⟩
    · exact ⟨[], by rw [hs, List.append_nil]; exact .stuck hz⟩
    · refine ⟨[i], ?_⟩
      rw [hs]
      exact .cap h' (by rw [List.length_append, List.length_singleton]; omega)
    · refine ⟨[i], ?_⟩
      have hfull : ¬ v.block.cycles < max := by
        rw [BitVec.lt_def, hv.cycles, List.length_append, List.length_singleton]
        omega
      rw [hs, terminate_full hfull]
      exact .stop hv hflow
  | succ k ih =>
    rcases h.turn (by omega) with ⟨z, e, hz, hs⟩ | ⟨t', i, h', hs⟩ | ⟨v, i, hv, hflow, hs, hend⟩
    · refine ⟨[], ?_⟩
      rw [capped, walk, hs, List.append_nil]
      exact .stuck hz
    · rw [capped_succ (hs uncapped)]
      obtain ⟨log', hlog'⟩ := ih h' (by rw [List.length_append, List.length_singleton]; omega)
      exact ⟨i :: log', by rw [List.append_assoc] at hlog'; exact hlog'⟩
    · rcases hend with hstop | ⟨target, -, hfollow, h'⟩
      · refine ⟨[i], ?_⟩
        rw [capped, walk, hs, hstop]
        exact .stop hv hflow
      · have hsu := hs uncapped
        rw [hfollow] at hsu
        rw [capped_succ hsu]
        obtain ⟨log', hlog'⟩ := ih h' (by rw [List.length_append, List.length_singleton]; omega)
        exact ⟨i :: log', by rw [List.append_assoc] at hlog'; exact hlog'⟩

/-! ## Rolling back -/

theorem translate_ending (L : Lowering) (fetch : U64 → σ → Option U32 × σ)
    (opts : TranslateOptions) (startPc : U64) (memory : σ) :
    ∃ log, Ending L fetch opts startPc memory (capOf opts) log
      (capped L fetch opts (capOf opts) ((capOf opts).toNat - 1) (start startPc memory)) := by
  have hpos := capOf_pos opts
  refine capped_ending (at_start L fetch opts startPc memory) ?_
  rw [List.length_nil]
  omega

/-- Rolling back from where the walk is stuck leaves the block as it is when the branch ends it. -/
theorem Stuck.undo_block (h : Stuck L fetch opts startPc memory z log) {f : Followed}
    (hf : z.followed = some f) : ∃ v log₁ target,
      Junction L fetch opts startPc memory v log₁ target ∧ log₁ <+: log ∧ f = v.followedAt ∧
        (z.undo f).block = (v.stop (v.pc + 4)).block := by
  obtain ⟨t, ht, hfollowed, hstart, hranges, as, has⟩ := h.at_prev
  obtain ⟨v, log₁, log₂, target, hj, rfl, rfl, more, hmore⟩ := ht.followed f (hfollowed ▸ hf)
  refine ⟨v, log₁, target, hj, List.prefix_append _ _, rfl, ?_⟩
  obtain ⟨⟨l, hl⟩, hpos⟩ := hj.consists.linked
  obtain ⟨as', has'⟩ := L.assemble_append_nodes startPc log₁ log₂
  have hnodes : z.block.nodes = (v.block.pushAll (as' ++ as)).nodes := by
    rw [has, Block.pushAll_append, Block.pushAll_nodes (ht.consists.nodes.trans has'),
      Block.pushAll_nodes (Block.pushAll_nodes hj.consists.nodes)]
  have hroll : (z.block.rollback v.block.mark).nodes = v.block.nodes := by
    rw [Block.rollback_nodes hnodes, hl.rollback_pushAll hpos]
  have hr : z.block.ranges.take (v.block.ranges.length + 1) =
      v.block.ranges ++ [(v.segStart, v.pc + 4)] := by
    rw [hranges, hmore, ← List.singleton_append, ← List.append_assoc]
    exact List.take_left' (by rw [List.length_append, List.length_singleton])
  have hs : z.block.startPc = v.block.startPc := by
    rw [hstart, ht.consists.start_eq, hj.consists.start_eq]
  have hr' : (z.block.rollback v.block.mark).ranges = z.block.ranges := Block.rollback_ranges _ _
  have hs' : (z.block.rollback v.block.mark).startPc = z.block.startPc := by
    rw [Block.rollback_frame]
    rfl
  simp only [Block.nodes, Prod.mk.injEq] at hroll
  simp only [undo, stop, followedAt, Block.mk.injEq]
  exact ⟨trivial, hroll.1, hs'.trans hs, trivial, hroll.2.1, hroll.2.2, trivial, by rw [hr', hr]⟩

theorem Ending.stuck_of_error {e : Error}
    (h : Ending L fetch opts startPc memory max log (z, .error e)) :
    Stuck L fetch opts startPc memory z log := by
  cases h
  assumption

/-- With the cap at a junction the block ends there. -/
theorem Junction.translate {target : U64} (h : Junction L fetch opts startPc memory v log target)
    {m : U32} (hm : m.toNat = log.length) (block : Block) :
    translateBlockInto L.translator block startPc fetch memory { opts with maxInsts := m } =
      (v.stop (v.pc + 4), .ok ()) := by
  obtain ⟨u, hwalk, hstep⟩ := h.reached
  have hpos : 0 < log.length := List.length_pos_iff.mpr h.log_ne
  have hcap : capOf { opts with maxInsts := m } = m := by
    refine if_neg fun h0 => ?_
    have hm0 : m = 0#32 := h0
    rw [hm0] at hm
    exact hpos.ne hm
  have hfull : ¬ v.block.cycles < m := by
    rw [BitVec.lt_def, h.consists.cycles, hm]
    exact Nat.lt_irrefl _
  rw [translateBlockInto_eq, hcap, hm]
  have hcapped : capped L fetch { opts with maxInsts := m } m (log.length - 1)
      (start startPc memory) = (v.stop (v.pc + 4), .ok true) := by
    have hs : u.step L.translator fetch { opts with maxInsts := m } m =
        u.step L.translator fetch opts m := rfl
    rw [capped, walk_maxInsts, hwalk]
    dsimp only
    rw [hs, hstep, terminate_full hfull]
  rw [hcapped]
  rfl

/-- **Rolling back is exact**: a translation that fails after a followed branch leaves the very
block that the limit at the last followed branch gives. -/
theorem rollback_exact (L : Lowering) (fetch : U64 → σ → Option U32 × σ) (opts : TranslateOptions)
    (block : Block) (startPc : U64) (memory : σ) {e : Error} {f : Followed} {m : U32}
    (hfail : (start startPc memory).loop L.translator fetch opts (capOf opts)
      (capOf opts).toNat = (z, .error e))
    (hf : z.followed = some f) (hm : m.toNat = f.insts.length) :
    ∃ y y', translateBlockInto L.translator block startPc fetch memory opts = (y, .ok ()) ∧
      translateBlockInto L.translator block startPc fetch memory { opts with maxInsts := m } =
        (y', .ok ()) ∧ y.block = y'.block ∧ y.insts = y'.insts := by
  rw [loop_capped] at hfail
  obtain ⟨log, hend⟩ := translate_ending L fetch opts startPc memory
  have htr := translateBlockInto_eq L fetch opts block startPc memory
  rw [hfail] at hend htr
  obtain ⟨v, log₁, target, hj, -, rfl, hblock⟩ := hend.stuck_of_error.undo_block hf
  have hlen : v.insts.length = log₁.length := by
    have hpcs := congrArg List.length hj.consists.pcs
    rwa [List.length_map, List.length_map] at hpcs
  refine ⟨_, _, ?_, hj.translate (hm.trans hlen) block, hblock, rfl⟩
  rw [htr, finish, hf]

/-- A hint, a branch over one word and another hint, with nothing mapped behind it. -/
def jumpAhead (pc : U64) : Option U32 :=
  if pc = 0x1000 then some 0xD503201F
  else if pc = 0x1004 then some 0x14000002
  else if pc = 0x100C then some 0xD503201F
  else none

theorem rollback_exact_jumpAhead :
    ∃ y y', translateBlockInto Lowering.branches.translator (Block.new 0) 0x1000
        (fun pc m => (jumpAhead pc, m)) () ⟨64, true⟩ = (y, .ok ()) ∧
      translateBlockInto Lowering.branches.translator (Block.new 0) 0x1000
        (fun pc m => (jumpAhead pc, m)) () ⟨2, true⟩ = (y', .ok ()) ∧
      y.block = y'.block ∧ y.insts = y'.insts :=
  rollback_exact Lowering.branches _ ⟨64, true⟩ _ 0x1000 ()
    (f := ⟨(3, 2), 2, 0, .directBranch 0x100C false, 0x1004,
      [⟨0x1000, 0x1000⟩, ⟨0x1004, 0x1000⟩]⟩)
    (Prod.ext rfl (by rfl : _ = Except.error (Error.guestMemory 0x1010))) (by decide) (by decide)

/-! ## Slices -/

/-- What a translation that succeeds leaves: the instructions of the log, and a terminal that leads
to the PC after them if it is known. -/
structure Slice (L : Lowering) (fetch : U64 → σ → Option U32 × σ) (startPc : U64) (memory : σ)
    (y : Translation σ) (log : InstLog) : Prop where
  consists : Consists L fetch startPc memory y log
  flow : L.Flow startPc log y.block.terminal.nextPc

/-- `x` is a slice of `y`: the instructions of `x` are the first ones of `y`, the nodes of `y` are
those of `x` with more behind them, and the terminal of `x` leads to the next instruction of `y`. -/
structure IsSlice (L : Lowering) (fetch : U64 → σ → Option U32 × σ) (startPc : U64) (memory : σ)
    (x y : Translation σ) : Prop where
  logs : ∃ log more, Consists L fetch startPc memory x log ∧
    Consists L fetch startPc memory y (log ++ more) ∧
    (more ≠ [] → ∃ p, x.block.terminal.nextPc = some p ∧ (more.map Prod.fst).head? = some p)
  nodes : ∃ as, y.block.nodes = (x.block.pushAll as).nodes

theorem Slice.isSlice {x y : Translation σ} (hx : Slice L fetch startPc memory x log)
    (hy : Slice L fetch startPc memory y log') (h : log <+: log') :
    IsSlice L fetch startPc memory x y := by
  obtain ⟨more, rfl⟩ := h
  refine ⟨⟨log, more, hx.consists, hy.consists, fun hne => ?_⟩, ?_⟩
  · cases hp : x.block.terminal.nextPc with
    | some p =>
      have hflow := hx.flow
      rw [hp] at hflow
      exact ⟨p, rfl, hy.flow.next hflow hne⟩
    | none =>
      have hflow := hx.flow
      rw [hp] at hflow
      exact absurd (hy.flow.eq_nil hflow) hne
  · obtain ⟨as, has⟩ := L.assemble_append_nodes startPc log more
    exact ⟨as, by rw [hy.consists.nodes, has, Block.pushAll_nodes hx.consists.nodes]⟩

/-- What a capped walk ends with is a slice of the walk, if the translation succeeds. -/
theorem Ending.finish {p : Translation σ × Except Error Bool} {y : Translation σ}
    (h : Ending L fetch opts startPc memory max log p) (hy : p.1.finish p.2 = (y, .ok ())) :
    ∃ log', log' <+: log ∧ Slice L fetch startPc memory y log' := by
  cases h with
  | stuck h =>
    rename_i z e
    unfold Translation.finish at hy
    dsimp only at hy
    split at hy
    · cases hy
    · rename_i f hf
      obtain ⟨v, log₁, target, hj, hpre, rfl, hblock⟩ := h.undo_block hf
      have hc := hj.consists
      cases hy
      refine ⟨log₁, hpre, ⟨?_, ?_, ?_, hc.pcs, hc.words⟩, ?_⟩
      · rw [hblock]; exact hc.nodes
      · rw [hblock]; exact hc.start_eq
      · rw [hblock]; exact hc.cycles
      · obtain ⟨link, hlink⟩ := hj.terminal
        have hterm : (z.undo v.followedAt).block.terminal.nextPc = some target := by
          rw [hblock]
          show v.block.terminal.nextPc = _
          rw [hlink]
          rfl
        rw [hterm]
        exact hj.flow
  | cap h hlen =>
    cases hy
    have hc := h.consists
    exact ⟨log, List.prefix_rfl, ⟨hc.nodes, hc.start_eq, hc.cycles, hc.pcs, hc.words⟩, h.flow⟩
  | stop h hflow =>
    cases hy
    exact ⟨log, List.prefix_rfl, ⟨h.nodes, h.start_eq, h.cycles, h.pcs, h.words⟩, hflow⟩

/-- A translated block starts where it was asked to. -/
theorem translateBlockInto_startPc {block : Block} {y : Translation σ}
    (h : translateBlockInto L.translator block startPc fetch memory opts = (y, .ok ())) :
    y.block.startPc = startPc := by
  obtain ⟨log, hend⟩ := translate_ending L fetch opts startPc memory
  rw [translateBlockInto_eq] at h
  obtain ⟨log', -, hslice⟩ := hend.finish h
  exact hslice.consists.start_eq

/-- The walk up to a turn before the cap. -/
theorem At.walk (h : At L fetch opts startPc memory t log) (hk : log.length + k < 2 ^ 32)
    (hw : t.walk L fetch opts k = (u, .ok false)) :
    ∃ log', At L fetch opts startPc memory u log' ∧ log'.length = log.length + k := by
  induction k generalizing t log with
  | zero =>
    cases hw
    exact ⟨log, h, rfl⟩
  | succ k ih =>
    have hlen : ∀ i : U64 × U32, (log ++ [i]).length = log.length + 1 := by simp
    rw [Translation.walk] at hw
    rcases h.turn (by omega) with ⟨z, e, -, hs⟩ | ⟨t', i, h', hs⟩ | ⟨v, i, -, -, hs, hend⟩
    · rw [hs] at hw
      cases hw
    · rw [hs] at hw
      obtain ⟨log', h₁, h₂⟩ := ih h' (by rw [hlen]; omega) hw
      exact ⟨log', h₁, by rw [h₂, hlen]; omega⟩
    · rw [hs] at hw
      rcases hend with hstop | ⟨target, -, hfollow, h'⟩
      · rw [hstop] at hw
        cases hw
      · rw [hfollow] at hw
        obtain ⟨log', h₁, h₂⟩ := ih h' (by rw [hlen]; omega) hw
        exact ⟨log', h₁, by rw [h₂, hlen]; omega⟩

theorem capped_add {a b : Nat} (h : t.walk L fetch opts a = (u, .ok false)) :
    capped L fetch opts max (a + b) t = capped L fetch opts max b u := by
  unfold capped
  rw [walk_add, h]

theorem capped_of_ended {a b : Nat} (h : t.walk L fetch opts a = (u, r)) (hr : r ≠ .ok false)
    (hab : a ≤ b) : capped L fetch opts max b t = (u, r) := by
  unfold capped
  rw [walk_of_ended h hr hab]
  match r, hr with
  | .ok true, _ => rfl
  | .error e, _ => rfl

/-- Two caps either give the same, or both walks come through the instructions of the lower one. -/
theorem capped_le (L : Lowering) (fetch : U64 → σ → Option U32 × σ) (opts : TranslateOptions)
    (startPc : U64) (memory : σ) {m n : Nat} {max' : U32} (hm : 0 < m) (hmn : m < n) (hmax : max.toNat = m)
    (hmax' : max'.toNat = n) :
    capped L fetch opts max (m - 1) (start startPc memory) =
        capped L fetch opts max' (n - 1) (start startPc memory) ∨
      ∃ log log', Ending L fetch opts startPc memory max log
          (capped L fetch opts max (m - 1) (start startPc memory)) ∧
        Ending L fetch opts startPc memory max' (log ++ log')
          (capped L fetch opts max' (n - 1) (start startPc memory)) ∧
        (capped L fetch opts max (m - 1) (start startPc memory)).2.isOk := by
  have hlt := max'.isLt
  have hn : n - 1 = (m - 1) + ((n - m - 1) + 1) := by omega
  cases hw : (start startPc memory).walk L fetch opts (m - 1) with
  | mk u r =>
  by_cases hr : r = .ok false
  · subst hr
    obtain ⟨log, hu, hlen⟩ := (at_start L fetch opts startPc memory).walk
      (by rw [List.length_nil]; omega) hw
    rw [List.length_nil, Nat.zero_add] at hlen
    have hlen' : ∀ i : U64 × U32, (log ++ [i]).length = m := by
      intro i
      rw [List.length_append, List.length_singleton]
      omega
    have hk : ∀ i : U64 × U32, (log ++ [i]).length + (n - m - 1) + 1 = max'.toNat := by
      intro i
      rw [hlen']
      omega
    have hm0 : capped L fetch opts max (m - 1) (start startPc memory) =
        u.step L.translator fetch opts max := by
      have h0 : capped L fetch opts max (m - 1 + 0) (start startPc memory) =
          capped L fetch opts max 0 u := capped_add hw
      rwa [Nat.add_zero] at h0
    have hn0 : capped L fetch opts max' (m - 1 + (n - m - 1 + 1)) (start startPc memory) =
        capped L fetch opts max' (n - m - 1 + 1) u := capped_add hw
    rw [← hn] at hn0
    rw [hm0, hn0]
    rcases hu.turn (by omega) with ⟨z, e, hz, hs⟩ | ⟨t', i, h', hs⟩ | ⟨v, i, hv, hflow, hs, hend⟩
    · left
      rw [capped, walk, hs, hs]
    · right
      rw [capped_succ (hs uncapped), hs]
      obtain ⟨log', hlog'⟩ := capped_ending h' (hk i)
      exact ⟨log ++ [i], log', .cap h' (by rw [hlen', hmax]), hlog', rfl⟩
    · have hfull : ¬ v.block.cycles < max := by
        rw [BitVec.lt_def, hv.cycles, hlen', hmax]
        exact Nat.lt_irrefl _
      have hsm := hs max
      rw [terminate_full hfull] at hsm
      have hsu := hs uncapped
      rcases hend with hstop | ⟨target, -, hfollow, h'⟩
      · left
        rw [hstop] at hsu
        rw [hsm, capped, walk, hsu]
      · right
        rw [hfollow] at hsu
        rw [capped_succ hsu, hsm]
        obtain ⟨log', hlog'⟩ := capped_ending h' (hk i)
        exact ⟨log ++ [i], log', .stop hv hflow, hlog', rfl⟩
  · left
    rw [capped_of_ended hw hr (Nat.le_refl _), capped_of_ended hw hr (by omega)]

theorem finish_isOk {z : Translation σ} (h : r.isOk) :
    ∃ y, z.finish r = (y, .ok ()) := by
  match r, h with
  | .ok true, _ => exact ⟨_, rfl⟩
  | .ok false, _ => exact ⟨_, rfl⟩

/-- Of two translations the one with the lower limit succeeds if the other does, and one of them is
a slice of the other. -/
theorem translate_slices {m n : U32} {y : Translation σ} {block : Block} {multiblock : Bool}
    (hm : 1 ≤ m) (hmn : m ≤ n)
    (h : translateBlockInto L.translator block startPc fetch memory ⟨n, multiblock⟩ =
      (y, .ok ())) :
    ∃ x, translateBlockInto L.translator block startPc fetch memory ⟨m, multiblock⟩ =
        (x, .ok ()) ∧
      (IsSlice L fetch startPc memory x y ∨ IsSlice L fetch startPc memory y x) := by
  have hm' : 0 < m.toNat := BitVec.le_def.mp hm
  have hmn' : m.toNat ≤ n.toNat := BitVec.le_def.mp hmn
  have hcap : ∀ k : U32, 0 < k.toNat → capOf ⟨k, multiblock⟩ = k :=
    fun k hk => if_neg fun h0 => hk.ne' (congrArg BitVec.toNat h0)
  have hopts : ∀ (k : Nat) (c : U32), capped L fetch ⟨m, multiblock⟩ c k (start startPc memory) =
      capped L fetch ⟨n, multiblock⟩ c k (start startPc memory) := by
    intro k c
    have hw : (start startPc memory).walk L fetch ⟨m, multiblock⟩ k =
        (start startPc memory).walk L fetch ⟨n, multiblock⟩ k := walk_maxInsts ⟨n, multiblock⟩ m
    rw [capped, capped, hw]
    rfl
  rw [translateBlockInto_eq, hcap n (hm'.trans_le hmn')] at h
  rw [translateBlockInto_eq, hcap m hm', hopts]
  obtain ⟨logₙ, hendₙ⟩ := translate_ending L fetch ⟨n, multiblock⟩ startPc memory
  rw [hcap n (hm'.trans_le hmn')] at hendₙ
  have same : ∀ {log : InstLog} {p : Translation σ × Except Error Bool},
      Ending L fetch ⟨n, multiblock⟩ startPc memory n log p → p.1.finish p.2 = (y, .ok ()) →
      IsSlice L fetch startPc memory y y := by
    intro log p hp hy
    obtain ⟨log', -, hs⟩ := hp.finish hy
    exact hs.isSlice hs List.prefix_rfl
  rcases Nat.lt_or_eq_of_le hmn' with hlt | heq
  · rcases capped_le L fetch ⟨n, multiblock⟩ startPc memory hm' hlt rfl rfl with he | ⟨log, log', hx, hy, hok⟩
    · rw [he]
      exact ⟨y, h, .inl (same hendₙ h)⟩
    · obtain ⟨x, hx'⟩ := finish_isOk hok
      refine ⟨x, hx', ?_⟩
      obtain ⟨logx, hprex, hsx⟩ := hx.finish hx'
      obtain ⟨logy, hprey, hsy⟩ := hy.finish h
      rcases List.prefix_or_prefix_of_prefix (hprex.trans (List.prefix_append _ _)) hprey with
        hp | hp
      · exact .inl (hsx.isSlice hsy hp)
      · exact .inr (hsy.isSlice hsx hp)
  · obtain rfl : m = n := BitVec.eq_of_toNat_eq heq
    exact ⟨y, h, .inl (same hendₙ h)⟩

end Translation

/-! ## Runs in slices -/

/-- The instructions a translated block executes, read from the guest code. -/
def executed {σ : Type} (code : U64 → Option U32) (y : Translation σ) : InstLog :=
  y.insts.map fun i => (i.pc, (code i.pc).getD 0)

/-- A run in slices from `pc` on, after the instructions of `hist`: block after block, each
translated with options of its own.  Where the terminal of a block does not tell the next PC, the
instructions executed so far do, through `resolve`. -/
inductive Sliced (L : Lowering) (code : U64 → Option U32) (resolve : InstLog → U64) :
    InstLog → U64 → InstLog → Prop where
  | done (hist : InstLog) (pc : U64) : Sliced L code resolve hist pc []
  | block {hist : InstLog} {pc : U64} {b : Block} {opts : TranslateOptions} {y : Translation Unit}
    {rest : InstLog}
    (h : translateBlockInto L.translator b pc (fun a m => (code a, m)) () opts = (y, .ok ()))
    (hrest : Sliced L code resolve (hist ++ executed code y)
      (y.block.terminal.nextPc.getD (resolve (hist ++ executed code y))) rest) :
    Sliced L code resolve hist pc (executed code y ++ rest)

namespace Lowering

variable {L : Lowering} {code : U64 → Option U32} {resolve : InstLog → U64} {hist log log' : InstLog}
  {pc : U64} {q : Option U64}

/-- Executing the guest code one instruction after another. -/
def Path (L : Lowering) (code : U64 → Option U32) (resolve : InstLog → U64) :
    InstLog → U64 → InstLog → Prop
  | _, _, [] => True
  | hist, pc, i :: log => i.1 = pc ∧ code i.1 = some i.2 ∧
    Path L code resolve (hist ++ [i]) ((L.goesTo i).getD (resolve (hist ++ [i]))) log

theorem Path.comparable (h : L.Path code resolve hist pc log)
    (h' : L.Path code resolve hist pc log') : log <+: log' ∨ log' <+: log := by
  induction log generalizing hist pc log' with
  | nil => exact .inl List.nil_prefix
  | cons i log ih =>
    cases log' with
    | nil => exact .inr List.nil_prefix
    | cons j log' =>
      obtain ⟨hpc, hi, h⟩ := h
      obtain ⟨hpc', hj, h'⟩ := h'
      obtain rfl : i = j := by
        refine Prod.ext (hpc.trans hpc'.symm) ?_
        rw [hpc, ← hpc', hj] at hi
        exact (Option.some.inj hi).symm
      simp only [List.prefix_cons_inj]
      exact ih h h'

/-- A flow through the guest code is a path. -/
theorem Flow.path (h : L.Flow pc log q) (hcode : ∀ i ∈ log, code i.1 = some i.2)
    (hrest : L.Path code resolve (hist ++ log) (q.getD (resolve (hist ++ log))) log') :
    L.Path code resolve hist pc (log ++ log') := by
  induction log generalizing hist pc with
  | nil =>
    cases h
    rwa [List.append_nil] at hrest
  | cons i log ih =>
    have hcode' : ∀ x ∈ log, code x.1 = some x.2 := fun x hx => hcode x (List.mem_cons_of_mem i hx)
    refine ⟨h.1, hcode i List.mem_cons_self, ?_⟩
    have h := h.2
    cases hg : L.goesTo i with
    | none =>
      rw [hg] at h
      obtain ⟨rfl, rfl⟩ := h
      exact hrest
    | some p =>
      rw [hg] at h
      exact ih h hcode' (by rwa [List.append_assoc, List.singleton_append])

end Lowering

section Runs

variable {L : Lowering} {code : U64 → Option U32} {log : InstLog} {m m' : Unit}

theorem Fetched.code_eq (h : Fetched (fun a m => (code a, m)) m log m') :
    ∀ i ∈ log, code i.1 = some i.2 := by
  induction log with
  | nil => exact fun i hi => absurd hi List.not_mem_nil
  | cons j log ih =>
    intro i hi
    rcases List.mem_cons.mp hi with rfl | hi
    · exact h.1
    · exact ih h.2 i hi

/-- The log is what the block executes. -/
theorem Translation.Consists.executed_eq {y : Translation Unit} {startPc : U64}
    (h : Translation.Consists L (fun a m => (code a, m)) startPc () y log) :
    executed code y = log ∧ ∀ i ∈ log, code i.1 = some i.2 := by
  obtain ⟨m, hm⟩ := h.words
  have hcode := hm.code_eq
  refine ⟨?_, hcode⟩
  have hpcs : executed code y =
      (y.insts.map TranslatedInst.pc).map fun pc => (pc, (code pc).getD 0) := by
    rw [List.map_map]
    rfl
  rw [hpcs, h.pcs, List.map_map]
  refine (List.map_congr_left fun i hi => ?_).trans (List.map_id log)
  show (i.1, (code i.1).getD 0) = i
  rw [hcode i hi]
  rfl

/-- A run in slices executes the guest code one instruction after another. -/
theorem Sliced.path {resolve : InstLog → U64} {hist : InstLog} {pc : U64}
    (h : Sliced L code resolve hist pc log) : L.Path code resolve hist pc log := by
  induction h with
  | done hist pc => trivial
  | block h hrest ih =>
    rename_i hist pc b opts y rest
    obtain ⟨logₑ, hend⟩ := Translation.translate_ending L (fun a m => (code a, m)) opts pc ()
    rw [Translation.translateBlockInto_eq] at h
    obtain ⟨log, -, hs⟩ := hend.finish h
    obtain ⟨hex, hcode⟩ := hs.consists.executed_eq
    rw [hex] at ih ⊢
    exact hs.flow.path hcode ih

/-- **Translation is slicing-invariant**, and so is every run in slices of any sizes. -/
theorem slicing_invariant (L : Lowering) :
    (∀ (σ : Type) (fetch : U64 → σ → Option U32 × σ) (memory : σ) (startPc : U64) (block : Block)
        (multiblock : Bool) (m n : U32) (y : Translation σ), 1 ≤ m → m ≤ n →
        translateBlockInto L.translator block startPc fetch memory ⟨n, multiblock⟩ = (y, .ok ()) →
        ∃ x, translateBlockInto L.translator block startPc fetch memory ⟨m, multiblock⟩ =
            (x, .ok ()) ∧
          (Translation.IsSlice L fetch startPc memory x y ∨
            Translation.IsSlice L fetch startPc memory y x)) ∧
      ∀ (code : U64 → Option U32) (resolve : InstLog → U64) (pc : U64) (log log' : InstLog),
        Sliced L code resolve [] pc log → Sliced L code resolve [] pc log' →
          log <+: log' ∨ log' <+: log :=
  ⟨fun _ _ _ _ _ _ _ _ _ hm hmn h => Translation.translate_slices hm hmn h,
    fun _ _ _ _ _ h h' => h.path.comparable h'.path⟩

theorem slicing_invariant_jumpAhead :
    ∃ x, translateBlockInto Lowering.branches.translator (Block.new 0) 0x1000
        (fun pc m => (Translation.jumpAhead pc, m)) () ⟨1, true⟩ = (x, .ok ()) ∧
      (Translation.IsSlice Lowering.branches (fun pc m => (Translation.jumpAhead pc, m)) 0x1000 () x
          (translateBlockInto Lowering.branches.translator (Block.new 0) 0x1000
            (fun pc m => (Translation.jumpAhead pc, m)) () ⟨3, true⟩).1 ∨
        Translation.IsSlice Lowering.branches (fun pc m => (Translation.jumpAhead pc, m)) 0x1000 ()
          (translateBlockInto Lowering.branches.translator (Block.new 0) 0x1000
            (fun pc m => (Translation.jumpAhead pc, m)) () ⟨3, true⟩).1 x) :=
  (slicing_invariant Lowering.branches).1 _ _ _ _ _ true 1 3 _ (by decide) (by decide)
    (Prod.ext rfl (by rfl))

end Runs

end Rustarmic
