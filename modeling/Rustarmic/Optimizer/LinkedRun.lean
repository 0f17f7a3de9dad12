import Rustarmic.Optimizer.PassLinks

/-!
# The live list after the optimizer

`CleanRun` follows the forward walk and asks every iteration to be clean; `LinkedWalk` asks the list
to be linked after every iteration.  They are the same, and the rest of the pass, which only takes
nodes out of a linked list, keeps it linked (`optimize_linked_iff`).

An iteration is not clean when it changes the predecessor of the node that it is at, by inserting a
constant in front of it or by taking a dead write out: the node is written back from a copy, and the
copy still has the old link.  `step_linked_iff` in `Optimizer.PassLinks` says that of one iteration,
and that a clean one keeps the list.  What is added here is the run.

* **An iteration that is not clean is noticed at once**, since the links are wrong right after it.
  It may not be noticed at the end: a node with wrong links can be dropped by the backward walk
  later.  So the property is about the list after *every* iteration and at the end, and for that the
  condition is exact.
* **The condition is on the state before each iteration**, and refers to nothing that the pass
  computes later.

At the end of the file is what the pass leaves alone altogether: where the guest code starts, its
ranges and its count.  Cycles are paid by that count, so an optimizer that changed it would change
how long a guest runs.
-/

set_option autoImplicit false

namespace Rustarmic

namespace Optimizer

open Block

variable {s : WalkState} {b b₀ : Block} {l l₁ l₂ done rest : List ValueRef} {vr : ValueRef}
  {n : Nat}

/-- The block still has a linked list, and the cleared nodes in it, if any, were live nodes of `b₀`
already. -/
def StillLinked (b₀ b : Block) : Prop :=
  ∃ l, b.Linked l ∧ ∀ w ∈ l, (b.get w).op = .void → w ∈ b₀.iterLive ∧ (b₀.get w).op = .void

/-- The list is linked after every iteration of the walk from `vr`. -/
def LinkedWalk (b₀ : Block) : Nat → WalkState → ValueRef → Prop
  | 0, _, _ => True
  | n + 1, s, vr => vr = linkNone ∨
      (StillLinked b₀ (step s vr).block ∧ LinkedWalk b₀ n (step s vr) (s.block.get vr).next)

/-- Every iteration of the walk from `vr` is clean. -/
def CleanWalk : Nat → WalkState → ValueRef → Prop
  | 0, _, _ => True
  | n + 1, s, vr => vr = linkNone ∨
      (CleanAt s vr ∧ CleanWalk n (step s vr) (s.block.get vr).next)

/-- Every iteration of the pass is clean. -/
def CleanRun (b : Block) : Prop := CleanWalk b.code.size (.init b) b.head

namespace StillLinked

theorem unlink (h : b.Linked (l₁ ++ vr :: l₂))
    (hv : ∀ w ∈ l₁ ++ vr :: l₂, (b.get w).op = .void → w ∈ b₀.iterLive ∧ (b₀.get w).op = .void) :
    ∀ w ∈ l₁ ++ l₂, ((b.unlink vr).get w).op = .void →
      w ∈ b₀.iterLive ∧ (b₀.get w).op = .void := by
  intro w hw hop
  have hne : w ≠ vr := by
    have hnd := h.nodup
    rw [List.nodup_middle, List.nodup_cons] at hnd
    exact fun he => hnd.1 (he ▸ hw)
  refine hv w (mem_cons_right vr hw) ?_
  rwa [← Armlet.bare_op, ← get_unlink_bare hne, Armlet.bare_op]

end StillLinked

/-! ## The forward walk -/

theorem Tracks.stillLinked (h : Tracks b₀ s done rest) : StillLinked b₀ s.block :=
  ⟨_, h.linked, h.of_void⟩

/-- **The forward walk.**  The list is linked all along iff every iteration is clean, and then it
is linked at the end. -/
theorem forwardWalk_linked (h : Tracks b₀ s done rest) :
    (LinkedWalk b₀ n s (rest.headD linkNone) ↔ CleanWalk n s (rest.headD linkNone)) ∧
      (CleanWalk n s (rest.headD linkNone) →
        StillLinked b₀ (forwardWalk n s (rest.headD linkNone)).block) := by
  induction n generalizing s done rest with
  | zero => exact ⟨Iff.rfl, fun _ => h.stillLinked⟩
  | succ n ih =>
    cases rest with
    | nil => exact ⟨iff_of_true (.inl rfl) (.inl rfl), fun _ => by
        simpa only [forwardWalk, List.headD_nil, if_pos] using h.stillLinked⟩
    | cons vr rest =>
      have hne : vr ≠ linkNone := h.linked.ne_none (by simp)
      have hnext : (s.block.get vr).next = rest.headD linkNone := h.linked.next_eq
      rw [List.headD_cons, LinkedWalk, CleanWalk, forwardWalk, if_neg hne, hnext]
      by_cases hc : CleanAt s vr
      · obtain ⟨done', h'⟩ := h.step hc
        obtain ⟨hiff, hend⟩ := ih h'
        rw [hiff]
        exact ⟨or_congr_right (and_congr_left fun _ => iff_of_true h'.stillLinked hc),
          fun hw => hend (hw.resolve_left hne).2⟩
      · have hbroken : ¬ StillLinked b₀ (step s vr).block := fun ⟨l, hl, _⟩ =>
          hc ((step_linked_iff h.linked h.pending).mp ⟨l, hl⟩)
        exact ⟨iff_of_false (fun hw => hbroken (hw.resolve_left hne).1)
          (fun hw => hc (hw.resolve_left hne).1), fun hw => absurd (hw.resolve_left hne).1 hc⟩

/-! ## The terminal and the backward walk -/

theorem simplifyTerminal_linked (h : StillLinked b₀ b) (consts : Consts) :
    StillLinked b₀ (simplifyTerminal b consts) := by
  unfold simplifyTerminal
  split
  · exact h
  · rename_i t _
    obtain ⟨l, hl, hv⟩ := h
    have hl' : ({ b with terminal := t } : Block).Linked l := ⟨hl.ring, hl.bound⟩
    dsimp only
    split
    · exact ⟨l, hl', hv⟩
    · rename_i tail ht
      split
      · have htail : b.tail = tail := by
          simp only [tailVr] at ht
          split at ht
          · exact Option.some.inj ht
          · cases ht
        have hne : tail ≠ linkNone := by
          simp only [tailVr] at ht
          split at ht
          · rename_i h0
            exact htail ▸ h0
          · cases ht
        have hlast : b.tail = l.reverse.headD linkNone := hl.ring.backward.1
        obtain ⟨k, rfl⟩ : ∃ k, l = k ++ [tail] := by
          cases hlr : l using List.reverseRecOn with
          | nil =>
            rw [hlr] at hlast
            exact absurd (htail.symm.trans hlast) hne
          | append_singleton k z =>
            rw [hlr, List.reverse_concat, List.headD_cons, htail] at hlast
            exact ⟨k, by rw [hlast]⟩
        exact ⟨k ++ [], hl'.unlink, StillLinked.unlink hl' hv⟩
      · exact ⟨l, hl', hv⟩

/-- The backward walk takes nodes out of a linked list. -/
theorem dropDead_linked (uses : Uses) (hl : b.Linked (l₁ ++ l₂))
    (hv : ∀ w ∈ l₁ ++ l₂, (b.get w).op = .void → w ∈ b₀.iterLive ∧ (b₀.get w).op = .void) :
    StillLinked b₀ (dropDead n b uses (l₁.getLastD linkNone)) := by
  induction n generalizing b uses l₁ l₂ with
  | zero => exact ⟨_, hl, hv⟩
  | succ n ih =>
    rw [dropDead]
    split
    · exact ⟨_, hl, hv⟩
    · rename_i hne
      obtain ⟨k, z, rfl⟩ : ∃ k z, l₁ = k ++ [z] :=
        ⟨_, _, (List.dropLast_append_getLast (fun h => hne (by rw [h]; rfl))).symm⟩
      rw [List.getLastD_concat]
      rw [List.append_assoc, List.singleton_append] at hl hv
      rw [hl.prev_eq]
      split
      · exact ih uses hl hv
      · exact ih _ hl.unlink (StillLinked.unlink hl hv)

/-! ## The pass -/

theorem tracks_init (h : b.Linked l) : Tracks b (.init b) [] l where
  linked := h
  pending k hk := absurd (by cases k <;> rfl) hk
  of_void w hw hop := ⟨by rwa [h.iterLive_eq], hop⟩

/-- What the pass does after the forward walk. -/
theorem optimize_stillLinked
    (h : StillLinked b (forwardWalk b.code.size (.init b) b.head).block) (hb : StillLinked b b) :
    StillLinked b (optimize b) := by
  rw [optimize]
  split
  · exact hb
  · obtain ⟨l, hl, hv⟩ := simplifyTerminal_linked h
      (forwardWalk b.code.size (.init b) b.head).consts
    have htail : (simplifyTerminal (forwardWalk b.code.size (.init b) b.head).block
        (forwardWalk b.code.size (.init b) b.head).consts).tail = l.getLastD linkNone := by
      have hlast := hl.ring.backward.1
      rw [prevAt, if_pos rfl] at hlast
      rw [hlast]
      cases l using List.reverseRecOn with
      | nil => rfl
      | append_singleton k z => rw [List.reverse_concat, List.getLastD_concat, List.headD_cons]
    dsimp only
    rw [htail]
    rw [← List.append_nil l] at hl hv
    exact dropDead_linked _ hl hv

/-- **The live list after `optimize`.**  From a linked list, the list is linked after every
iteration and at the end of the pass, forward and backward walks mirroring each other and no cleared
node in it, iff every iteration is clean. -/
theorem optimize_linked_iff (h : b.Linked l) :
    (LinkedWalk b b.code.size (.init b) b.head ∧ StillLinked b (optimize b) ∧
      (optimize b).iterLiveRev = (optimize b).iterLive.reverse) ↔ CleanRun b := by
  have htr := tracks_init h
  obtain ⟨hiff, hend⟩ := forwardWalk_linked (n := b.code.size) htr
  rw [← h.head_eq] at hiff hend
  rw [hiff]
  refine ⟨fun h => h.1, fun hc => ⟨hc, ?_⟩⟩
  have hs : StillLinked b (optimize b) := optimize_stillLinked (hend hc) htr.stillLinked
  obtain ⟨l', hl', -⟩ := id hs
  exact ⟨hs, by rw [hl'.iterLive_eq, hl'.iterLiveRev_eq]⟩

/-- `ADD X0, X1, #1` on a value that is stored, the plain case of the theorem. -/
theorem optimize_linked_iff_add :
    let b := (Block.new 0).pushAll [(Armlet.new .getX .u64).withImm 1,
      (Armlet.new .constU64 .u64).withImm 1, (Armlet.new .add64 .u64).withArgs [1, 2],
      (Armlet.new .setX .void).withArgs [3]]
    (LinkedWalk b b.code.size (.init b) b.head ∧ StillLinked b (optimize b) ∧
      (optimize b).iterLiveRev = (optimize b).iterLive.reverse) ↔ CleanRun b :=
  optimize_linked_iff ((Linked.new 0).pushAll (by decide) _)

/-- `X0 := (X1 + 1) + 2`. -/
def addTwice : Block :=
  (Block.new 0).pushAll [(Armlet.new .getX .u64).withImm 1, (Armlet.new .constU64 .u64).withImm 1,
    (Armlet.new .add64 .u64).withArgs [1, 2], (Armlet.new .constU64 .u64).withImm 2,
    (Armlet.new .add64 .u64).withArgs [3, 4], (Armlet.new .setX .void).withArgs [5]]

/-- Combining the two constants leaves the sum with the link to a node that is gone: the walk
backwards from the tail ends at that node. -/
theorem addTwice_not_mirrored :
    addTwice.Linked [1, 2, 3, 4, 5, 6] ∧ (optimize addTwice).iterLive = [1, 7, 5, 6] ∧
      (optimize addTwice).iterLiveRev = [6, 5, 4] ∧ ((optimize addTwice).get 4).op = .void :=
  ⟨(Linked.new 0).pushAll (by decide) _, by decide, by decide, by decide⟩

/-! ## What the pass leaves alone -/

/-- Where the guest code of a block starts, its ranges, and the number of its instructions. -/
def guestPart (b : Block) : U64 × List (U64 × U64) × U32 := (b.startPc, b.ranges, b.cycles)

@[simp] theorem guestPart_set (v : ValueRef) (a : Armlet) :
    guestPart (b.set v a) = guestPart b := rfl

@[simp] theorem guestPart_linkNext (v m : ValueRef) : guestPart (b.linkNext v m) = guestPart b := by
  rw [linkNext]
  split <;> rfl

@[simp] theorem guestPart_linkPrev (v m : ValueRef) : guestPart (b.linkPrev v m) = guestPart b := by
  rw [linkPrev]
  split <;> rfl

@[simp] theorem guestPart_unlink (v : ValueRef) : guestPart (b.unlink v) = guestPart b := by
  rw [unlink]
  simp

@[simp] theorem guestPart_insertBefore (v : ValueRef) (a : Armlet) :
    guestPart (b.insertBefore v a).1 = guestPart b := by
  rw [insertBefore]
  dsimp only
  rw [guestPart_set, guestPart_linkNext]
  rfl

@[simp] theorem guestPart_dropStore (v : ValueRef) : guestPart (dropStore b v) = guestPart b := by
  rw [dropStore]
  split
  · exact guestPart_unlink v
  · rfl

theorem visitOp_guestPart (s : WalkState) (vr : ValueRef) (a : Armlet) :
    guestPart (visitOp s vr a).1.block = guestPart s.block := by
  rcases visitOp_cases s vr a with hq | ⟨-, -, -, -, c, -, hb⟩
  · rw [hq.block_eq, guestPart_dropStore]
  · rw [hb, guestPart_insertBefore]

theorem visitMulFold_guestPart (s : WalkState) (vr : ValueRef) (a : Armlet) :
    guestPart (visitMulFold s vr a).1.block = guestPart s.block := by
  rcases visitMulFold_cases s vr a with ⟨-, h⟩ | ⟨-, -, -, c, m, -, -, hb⟩
  · rw [h]
  · rw [hb, guestPart_insertBefore, guestPart_insertBefore]

theorem visitAffine_guestPart (s : WalkState) (vr : ValueRef) (a : Armlet) :
    guestPart (visitAffine s vr a).1.block = guestPart s.block := by
  rcases visitAffine_cases s vr a with ⟨h, -⟩ | ⟨-, c, -, hb, -⟩
  · rw [h]
  · rw [hb, guestPart_insertBefore]

/-- **One iteration.** -/
theorem step_guestPart (s : WalkState) (vr : ValueRef) :
    guestPart (step s vr).block = guestPart s.block := by
  have hvisit : guestPart (visit s vr).1.block = guestPart s.block := by
    rw [visit, visitAffine_guestPart]
    obtain ⟨consts, hconsts⟩ := recordConst_frame
      (visitMulFold (visitOp (resetV s (loadNode s vr).op) vr (loadNode s vr)).1 vr
        (visitOp (resetV s (loadNode s vr).op) vr (loadNode s vr)).2).1 vr
      (visitMulFold (visitOp (resetV s (loadNode s vr).op) vr (loadNode s vr)).1 vr
        (visitOp (resetV s (loadNode s vr).op) vr (loadNode s vr)).2).2
    obtain ⟨reachV, hreset⟩ := resetV_frame s (loadNode s vr).op
    rw [hconsts, visitMulFold_guestPart, visitOp_guestPart, hreset]
  rw [step, guestPart_set, hvisit]

theorem forwardWalk_guestPart (s : WalkState) (vr : ValueRef) :
    guestPart (forwardWalk n s vr).block = guestPart s.block := by
  induction n generalizing s vr with
  | zero => rfl
  | succ n ih =>
    rw [forwardWalk]
    split
    · rfl
    · rw [ih, step_guestPart]

theorem simplifyTerminal_guestPart (b : Block) (consts : Consts) :
    guestPart (simplifyTerminal b consts) = guestPart b := by
  rw [simplifyTerminal]
  split
  · rfl
  · dsimp only
    split
    · rfl
    · split
      · rw [guestPart_unlink]
        rfl
      · rfl

theorem dropDead_guestPart (b : Block) (uses : Uses) (vr : ValueRef) :
    guestPart (dropDead n b uses vr) = guestPart b := by
  induction n generalizing b uses vr with
  | zero => rfl
  | succ n ih =>
    rw [dropDead]
    split
    · rfl
    · dsimp only
      split
      · exact ih _ _ _
      · rw [ih, guestPart_unlink]

/-- **The optimizer keeps the guest part of a block.** -/
theorem optimize_guestPart (b : Block) : guestPart (optimize b) = guestPart b := by
  rw [optimize]
  split
  · rfl
  · dsimp only
    rw [dropDead_guestPart, simplifyTerminal_guestPart, forwardWalk_guestPart]
    rfl

theorem optimize_startPc (b : Block) : (optimize b).startPc = b.startPc :=
  congrArg Prod.fst (optimize_guestPart b)

theorem optimize_cycles (b : Block) : (optimize b).cycles = b.cycles :=
  congrArg (fun p => p.2.2) (optimize_guestPart b)

end Optimizer

end Rustarmic
