import Rustarmic.Ir.LinkedBlock
import Rustarmic.Optimizer.Combine
import Rustarmic.Optimizer.Pass

/-!
# What the optimizer does to the live list

The forward walk works on a copy of the node and writes the copy back, links included.  Where the
iteration has changed the node's predecessor in the meantime, the copy brings the old one back:

* `tryCombineConst` and `tryMulFold` insert nodes in front of the node;
* a dead write that is taken out may be the very predecessor of the node.

The affine replacement inserts a node too, but reloads the link.  `CleanAt` says that none of the
former happens in an iteration; `step_linked_iff` shows that these are the iterations that keep the
list linked, and `optimize_linked_iff` follows the whole pass.
-/

set_option autoImplicit false

namespace Rustarmic

namespace Optimizer

open Block

variable {s : WalkState} {vr v : ValueRef} {a a' : Armlet} {b b₀ : Block}
  {l l₀ done rest : List ValueRef}

/-! ## Copies of a node -/

/-- The copy still has the links of the node and is no cleared node unless the node was one. -/
structure Kept (a a' : Armlet) : Prop where
  prev_eq : a'.prev = a.prev
  next_eq : a'.next = a.next
  of_void : a'.op = .void → a.op = .void

namespace Kept

theorem refl (a : Armlet) : Kept a a := ⟨rfl, rfl, id⟩

theorem trans {a'' : Armlet} (h : Kept a a') (h' : Kept a' a'') : Kept a a'' :=
  ⟨h'.prev_eq.trans h.prev_eq, h'.next_eq.trans h.next_eq, fun hv => h.of_void (h'.of_void hv)⟩

theorem becomeIdentity (a : Armlet) (w : ValueRef) : Kept a (a.becomeIdentity w) :=
  ⟨rfl, rfl, fun h => by cases h⟩

theorem becomeConst (a : Armlet) (c : U64) : Kept a (becomeConst a c) := by
  unfold Optimizer.becomeConst
  split
  · exact ⟨rfl, rfl, fun h => by cases h⟩
  · exact ⟨rfl, rfl, fun h => by cases h⟩
  · exact refl a

theorem forwardArgs (b : Block) (a : Armlet) : Kept a (forwardArgs b a) := ⟨rfl, rfl, id⟩

end Kept

/-! ## What each arm does -/

/-- The node is combined with the constant of its operand. -/
def combines (s : WalkState) (a : Armlet) : Bool :=
  a.op.isPure && (tryFold a.op a s.consts).isNone && (tryStrengthReduce a.op a s.consts).isNone
    && (tryCombineConst a s.block s.consts).isSome

/-- The node is a sum of multiples that is folded. -/
def folds (s : WalkState) (a : Armlet) : Bool :=
  isSum a.op && (tryMulFold a s.block s.consts).isSome

/-- The operations that write a general register. -/
def isGprStore (op : Op) : Prop := op = .setX ∨ op = .setW

/-- No affine map is recognized in the node. -/
def Scalar (a : Armlet) : Prop := ∀ b consts vectors, recognizeMap a b consts vectors = none

/-- The operations two nested operations are combined to. -/
def combinedOps : List Op :=
  [.add32, .add64, .and32, .and64, .or32, .or64, .eor32, .eor64, .mul32, .mul64, .lsl32, .lsl64,
   .lsr32, .lsr64, .asr32, .asr64, .ror32, .ror64]

theorem combineOps_mem {outer inner : Op} {i o : U64} {bits : Nat} {r : U64 × Op}
    (h : combineOps outer inner i o bits = some r) : r.2 ∈ combinedOps := by
  revert h
  fun_cases combineOps outer inner i o bits
  case case25 =>
    intro h
    cases h
  all_goals
    intro h
    first
    | (cases h; simp [combinedOps])
    | (obtain ⟨-, h⟩ := Option.ite_none_left_eq_some.mp h
       cases h
       simp [combinedOps])

theorem ne_void_of_combined {op : Op} (h : op ∈ combinedOps) : op ≠ .void := by
  rintro rfl
  exact absurd h (by decide)

theorem scalar_of_combined (h : a.op ∈ combinedOps) : Scalar a := by
  intro b consts vectors
  simp only [combinedOps, List.mem_cons, List.not_mem_nil, or_false] at h
  rcases h with h | h | h | h | h | h | h | h | h | h | h | h | h | h | h | h | h | h <;>
    simp only [recognizeMap, h]

theorem tryCombineConst_spec {consts : Consts} {r : ValueRef × U64 × Op}
    (h : tryCombineConst a b consts = some r) :
    ∃ inner i o, combineOps a.op inner i o a.op.sizeBits = some r.2 := by
  simp only [tryCombineConst, Option.bind_eq_some_iff] at h
  obtain ⟨o, -, h⟩ := h
  split at h
  · cases h
  obtain ⟨inner, -, h⟩ := Option.bind_eq_some_iff.mp h
  obtain ⟨i, -, h⟩ := Option.bind_eq_some_iff.mp h
  split at h
  · cases h
  obtain ⟨r', hr, rfl⟩ := Option.map_eq_some_iff.mp h
  exact ⟨_, i, o, hr⟩

theorem combines_of_not_pure (h : a.op.isPure = false) : combines s a = false := by
  rw [combines, h]
  rfl

theorem combines_of_no_combineOps (h : ∀ inner i o, combineOps a.op inner i o a.op.sizeBits = none) :
    combines s a = false := by
  cases hc : tryCombineConst a s.block s.consts with
  | none => simp [combines, hc]
  | some r =>
    obtain ⟨inner, i, o, hr⟩ := tryCombineConst_spec hc
    rw [h] at hr
    cases hr

/-- What is asked of an arm that leaves the block as it is but for the dead write. -/
structure Quiet (s : WalkState) (a : Armlet) (r : WalkState × Armlet) : Prop where
  combines_eq : combines s a = false
  block_eq : r.1.block = dropStore s.block (deadStore s a)
  kept : Kept a r.2
  of_store : (deadStore s a).isSome → r.2 = a

theorem visitPure_cases (s : WalkState) (vr : ValueRef) (hpure : a.op.isPure = true) :
    (combines s a = false ∧ (visitPure s vr a).1.block = s.block ∧ Kept a (visitPure s vr a).2) ∨
      (combines s a = true ∧ Kept a (visitPure s vr a).2 ∧ Scalar (visitPure s vr a).2 ∧
        ∃ c, c.op ≠ .void ∧ (visitPure s vr a).1.block = (s.block.insertBefore vr c).1) := by
  unfold visitPure combines
  rw [hpure]
  cases tryFold a.op a s.consts with
  | some c => exact .inl ⟨rfl, rfl, .becomeConst a c⟩
  | none =>
    cases tryStrengthReduce a.op a s.consts with
    | some r =>
      cases r with
      | toConst c => exact .inl ⟨rfl, rfl, .becomeConst a c⟩
      | toIdentity w => exact .inl ⟨rfl, rfl, .becomeIdentity a w⟩
    | none =>
      cases hc : tryCombineConst a s.block s.consts with
      | none => exact .inl ⟨rfl, rfl, .refl a⟩
      | some r =>
        obtain ⟨inner, i, o, hr⟩ := tryCombineConst_spec hc
        refine .inr ⟨rfl, ⟨rfl, rfl, fun h => absurd h (ne_void_of_combined (combineOps_mem hr))⟩,
          scalar_of_combined (combineOps_mem hr), _, ?_, rfl⟩
        show (if r.2.2.sizeBits = 32 then _ else _ : Armlet).op ≠ .void
        split <;> simp [Armlet.new]

theorem visitSetGpr_block (reach : ValueRef) (h : isGprStore a.op) :
    (visitSetGpr s vr a reach).block = dropStore s.block (deadStore s a) := by
  have hd : deadStore s a =
      if a.imm.toNat < numGprs then s.lastSetx a.imm.toNat else ValueRef.none := by
    rcases h with h | h <;> simp only [deadStore, h]
  by_cases hreg : a.imm.toNat < numGprs
  · simp [visitSetGpr, hreg]
  · simp [visitSetGpr, hreg, hd, dropStore]

theorem visitSetV_block : (visitSetV s a).block = s.block := by
  by_cases hreg : a.imm.toNat < 32
  · simp [visitSetV, hreg, WalkState.observe]
  · simp [visitSetV, hreg, WalkState.observe]

theorem visitGetX_cases : (visitGetX s vr a).1.block = s.block ∧ Kept a (visitGetX s vr a).2 := by
  unfold visitGetX
  dsimp only
  split_ifs
  · exact ⟨rfl, .becomeIdentity a _⟩
  · exact ⟨rfl, .becomeIdentity a _⟩
  · exact ⟨rfl, .refl a⟩
  · exact ⟨rfl, .refl a⟩

theorem visitGetW_cases : (visitGetW s a).1.block = s.block ∧ Kept a (visitGetW s a).2 := by
  unfold visitGetW
  dsimp only
  split_ifs
  · exact ⟨rfl, rfl, rfl, fun h => by cases h⟩
  · exact ⟨rfl, .refl a⟩
  · exact ⟨rfl, .refl a⟩

/-- The arms of an operation that writes no register and combines with nothing. -/
theorem quiet_of_frame {r : WalkState × Armlet} (hpure : a.op.isPure = false)
    (hd : deadStore s a = ValueRef.none) (h : r.1.block = s.block ∧ Kept a r.2) : Quiet s a r :=
  ⟨combines_of_not_pure hpure, by rw [hd]; exact h.1, h.2, fun h' => by rw [hd] at h'; cases h'⟩

/-- The arms of a store. -/
theorem quiet_of_store {r : WalkState × Armlet} (hpure : a.op.isPure = false) (h2 : r.2 = a)
    (hb : r.1.block = dropStore s.block (deadStore s a)) : Quiet s a r :=
  ⟨combines_of_not_pure hpure, hb, h2 ▸ .refl a, fun _ => h2⟩

/-- **What the large case distinction does.**  Either it takes out the write that the node makes
dead and keeps the links of the copy, or it puts a constant in front of the node. -/
theorem visitOp_cases (s : WalkState) (vr : ValueRef) (a : Armlet) :
    Quiet s a (visitOp s vr a) ∨
      (combines s a = true ∧ deadStore s a = ValueRef.none ∧ Kept a (visitOp s vr a).2 ∧
        Scalar (visitOp s vr a).2 ∧
        ∃ c, c.op ≠ .void ∧ (visitOp s vr a).1.block = (s.block.insertBefore vr c).1) := by
  unfold visitOp
  split
  case h_1 h => exact .inl (quiet_of_frame (h ▸ rfl) (by simp only [deadStore, h]) visitGetX_cases)
  case h_2 h => exact .inl (quiet_of_frame (h ▸ rfl) (by simp only [deadStore, h]) visitGetW_cases)
  case h_3 h =>
    refine .inl (quiet_of_frame (h ▸ rfl) (by simp only [deadStore, h]) ?_)
    split
    · exact ⟨rfl, .becomeIdentity a _⟩
    · exact ⟨rfl, .refl a⟩
  case h_4 h =>
    refine .inl (quiet_of_frame (h ▸ rfl) (by simp only [deadStore, h]) ?_)
    split
    · exact ⟨rfl, .becomeIdentity a _⟩
    · exact ⟨rfl, .refl a⟩
  case h_5 h =>
    exact .inl (quiet_of_frame (h ▸ rfl) (by simp only [deadStore, h]) ⟨visitSetV_block, .refl a⟩)
  case h_6 h => exact .inl (quiet_of_store (h ▸ rfl) rfl (visitSetGpr_block _ (.inl h)))
  case h_7 h => exact .inl (quiet_of_store (h ▸ rfl) rfl (visitSetGpr_block _ (.inr h)))
  case h_22 h =>
    exact .inl ⟨combines_of_no_combineOps (by simp [h, combineOps]), by simp only [deadStore, h]; rfl,
      .refl a, fun _ => rfl⟩
  case h_23 h =>
    exact .inl ⟨combines_of_no_combineOps (by simp [h, combineOps]), by simp only [deadStore, h]; rfl,
      .refl a, fun _ => rfl⟩
  case h_24 =>
    have hd : deadStore s a = ValueRef.none := by
      unfold deadStore
      split <;> first | rfl | simp_all
    split
    case isTrue hpure =>
      rcases visitPure_cases s vr hpure with ⟨hc, hb, hk⟩ | ⟨hc, hk, hs, hb⟩
      · exact .inl ⟨hc, by rw [hd]; exact hb, hk, fun h' => by rw [hd] at h'; cases h'⟩
      · exact .inr ⟨hc, hd, hk, hs, hb⟩
    case isFalse hpure =>
      have hpure := Bool.eq_false_iff.mpr hpure
      split
      · exact .inl (quiet_of_frame hpure hd ⟨rfl, .refl a⟩)
      · exact .inl (quiet_of_frame hpure hd ⟨rfl, .refl a⟩)
  all_goals
    rename_i h
    exact .inl (quiet_of_store (h ▸ rfl) rfl rfl)

/-- The folded node is an identity of the last of two nodes put in front of it. -/
theorem visitMulFold_cases (s : WalkState) (vr : ValueRef) (a : Armlet) :
    (folds s a = false ∧ visitMulFold s vr a = (s, a)) ∨
      (folds s a = true ∧ Kept a (visitMulFold s vr a).2 ∧ Scalar (visitMulFold s vr a).2 ∧
        ∃ c m, c.op ≠ .void ∧ m.op ≠ .void ∧ (visitMulFold s vr a).1.block =
          ((s.block.insertBefore vr c).1.insertBefore vr m).1) := by
  unfold visitMulFold folds
  cases isSum a.op with
  | false => exact .inl ⟨rfl, rfl⟩
  | true =>
    cases tryMulFold a s.block s.consts with
    | none => exact .inl ⟨rfl, rfl⟩
    | some r =>
      have hops : ∀ (p : Prop) [Decidable p],
          (if p then (Op.constU32, Op.mul32) else (Op.constU64, Op.mul64)).1 ≠ .void ∧
            (if p then (Op.constU32, Op.mul32) else (Op.constU64, Op.mul64)).2 ≠ .void := by
        intro p _
        split <;> simp
      dsimp only
      generalize hp : (if a.op.sizeBits = 32 then (Op.constU32, Op.mul32)
        else (Op.constU64, Op.mul64)) = ops
      have h := hops (a.op.sizeBits = 32)
      rw [hp] at h
      exact .inr ⟨rfl, .becomeIdentity a _, fun _ _ _ => rfl, _, _, h.1, h.2, rfl⟩

theorem recordConst_frame (s : WalkState) (vr : ValueRef) (a : Armlet) :
    ∃ consts, recordConst s vr a = { s with consts } := by
  unfold recordConst
  split
  · exact ⟨_, rfl⟩
  · exact ⟨_, rfl⟩
  · split
    · exact ⟨_, rfl⟩
    · exact ⟨s.consts, rfl⟩
  · exact ⟨s.consts, rfl⟩

theorem affineNode_spec (s : WalkState) (vr : ValueRef) (a : Armlet) (map : ByteMap) :
    ∃ c : Armlet, c.op ≠ .void ∧
      (affineNode s vr a map).1.block = (s.block.insertBefore vr c).1 ∧
      (affineNode s vr a map).2.op = .vecBitAffine ∧ (affineNode s vr a map).2.next = a.next ∧
      (affineNode s vr a map).2.prev = ((s.block.insertBefore vr c).1.get vr).prev := by
  rw [affineNode]
  dsimp only
  generalize hc : ({ (Armlet.new .constU64 .u64).withImm map.matrix with pc := a.pc } : Armlet) = c
  refine ⟨c, ?_, rfl, rfl, rfl, rfl⟩
  rw [← hc]
  exact nofun

/-- An affine replacement reloads the predecessor of the node. -/
theorem visitAffine_cases (s : WalkState) (vr : ValueRef) (a : Armlet) :
    ((visitAffine s vr a).1.block = s.block ∧ (visitAffine s vr a).2 = a) ∨
      (¬ Scalar a ∧ ∃ c, c.op ≠ .void ∧
        (visitAffine s vr a).1.block = (s.block.insertBefore vr c).1 ∧
        (visitAffine s vr a).2.op = .vecBitAffine ∧ (visitAffine s vr a).2.next = a.next ∧
        (visitAffine s vr a).2.prev = ((s.block.insertBefore vr c).1.get vr).prev) := by
  unfold visitAffine
  dsimp only
  split
  case h_1 map hmap =>
    split
    case h_1 composed _ =>
      split
      · obtain ⟨c, hc, hblock, hop, hnext, hprev⟩ := affineNode_spec
          { s with vectors := Function.update s.vectors vr _ } vr a composed
        refine .inr ⟨fun hs => ?_, c, hc, hblock, hop, hnext, hprev⟩
        rw [recognize] at hmap
        split at hmap
        · cases hmap
        · rw [hs] at hmap
          cases hmap
      · exact .inl ⟨rfl, rfl⟩
    case h_2 => exact .inl ⟨rfl, rfl⟩
  case h_2 =>
    split
    · exact .inl ⟨rfl, rfl⟩
    · split <;> exact .inl ⟨rfl, rfl⟩

/-! ## Pending writes -/

/-- The places whose last unread write the walk remembers. -/
inductive Slot where
  | gpr (reg : Nat)
  | sp
  | nzcv
  deriving DecidableEq

namespace Slot

/-- The node is a plain write of the place. -/
def writes : Slot → Armlet → Prop
  | gpr reg, a => isGprStore a.op ∧ a.imm.toNat = reg
  | sp, a => a.op = .setSp
  | nzcv, a => a.op = .setNzcv

theorem writes_inj {k k' : Slot} (h : k.writes a) (h' : k'.writes a) : k = k' := by
  cases k <;> cases k' <;> simp only [writes, isGprStore] at h h'
  all_goals first
    | rfl
    | (rw [← h.2, ← h'.2])
    | (rw [h] at h'; simp at h')
    | (rw [h'] at h; simp at h)

theorem writes_bare {k : Slot} (h : a'.bare = a.bare) : k.writes a' ↔ k.writes a := by
  have hop : a'.bare.op = a.bare.op := congrArg Armlet.op h
  have himm : a'.bare.imm = a.bare.imm := congrArg Armlet.imm h
  simp only [Armlet.bare_op, Armlet.bare_imm] at hop himm
  cases k <;> simp only [writes, hop, himm]

end Slot

/-- The last unread write of a place. -/
def WalkState.last (s : WalkState) : Slot → ValueRef
  | .gpr reg => s.lastSetx reg
  | .sp => s.lastSetSp
  | .nzcv => s.lastSetNzcv

/-- The place a node overwrites. -/
def killed (a : Armlet) : Option Slot :=
  match a.op with
  | .setX | .setW => if a.imm.toNat < numGprs then some (.gpr a.imm.toNat) else none
  | .setSp => some .sp
  | .setNzcv | .addsFlags32 | .addsFlags64 | .subsFlags32 | .subsFlags64 | .logicFlags32
  | .logicFlags64 | .adcs32 | .adcs64 | .sbcs32 | .sbcs64 | .fcmp32 | .fcmp64 => some .nzcv
  | _ => none

theorem deadStore_eq (s : WalkState) (a : Armlet) :
    deadStore s a = (killed a).elim ValueRef.none s.last := by
  cases h : a.op
  case setX | setW =>
    simp only [deadStore, killed, h]
    split <;> rfl
  all_goals
    simp only [deadStore, killed, h]
    rfl

/-- After an arm a place has no unread write, or that of this very node, or the one it had. -/
def Updates (s : WalkState) (vr : ValueRef) (a : Armlet) (r : WalkState × Armlet) : Prop :=
  ∀ k, r.1.last k = ValueRef.none ∨ (r.1.last k = vr ∧ k.writes a ∧ r.2 = a) ∨
    (r.1.last k = s.last k ∧ killed a ≠ some k)

theorem updates_of_frame {r : WalkState × Armlet} (hk : killed a = none)
    (h : ∀ k, r.1.last k = ValueRef.none ∨ r.1.last k = s.last k) : Updates s vr a r := fun k =>
  (h k).imp id fun h => .inr ⟨h, by rw [hk]; simp⟩

theorem visitGetX_last (k : Slot) :
    (visitGetX s vr a).1.last k = ValueRef.none ∨ (visitGetX s vr a).1.last k = s.last k := by
  unfold visitGetX
  dsimp only
  split_ifs
  case neg =>
    cases k with
    | gpr reg =>
      by_cases hr : reg = a.imm.toNat
      · exact .inl (by rw [hr]; exact Function.update_self ..)
      · exact .inr (Function.update_of_ne hr _ _)
    | sp => exact .inr rfl
    | nzcv => exact .inr rfl
  all_goals exact .inr rfl

theorem visitGetW_last (k : Slot) :
    (visitGetW s a).1.last k = ValueRef.none ∨ (visitGetW s a).1.last k = s.last k := by
  unfold visitGetW
  dsimp only
  split_ifs
  case neg =>
    cases k with
    | gpr reg =>
      by_cases hr : reg = a.imm.toNat
      · exact .inl (by rw [hr]; exact Function.update_self ..)
      · exact .inr (Function.update_of_ne hr _ _)
    | sp => exact .inr rfl
    | nzcv => exact .inr rfl
  all_goals exact .inr rfl

theorem observe_last (k : Slot) : s.observe.last k = ValueRef.none := by cases k <;> rfl

theorem visitSetGpr_last (reach : ValueRef) (h : isGprStore a.op) :
    Updates s vr a (visitSetGpr s vr a reach, a) := by
  have hk : killed a = if a.imm.toNat < numGprs then some (.gpr a.imm.toNat) else none := by
    rcases h with h | h <;> simp only [killed, h]
  intro k
  unfold visitSetGpr
  dsimp only
  split_ifs with hreg
  · rw [hk, if_pos hreg]
    cases k with
    | gpr reg =>
      by_cases hr : reg = a.imm.toNat
      · exact .inr (.inl ⟨by rw [hr]; exact Function.update_self .., ⟨h, hr.symm⟩, rfl⟩)
      · refine .inr (.inr ⟨Function.update_of_ne hr _ _, fun he => hr ?_⟩)
        injection he with he
        injection he with he
        exact he.symm
    | sp => exact .inr (.inr ⟨rfl, by simp⟩)
    | nzcv => exact .inr (.inr ⟨rfl, by simp⟩)
  · exact .inr (.inr ⟨rfl, by rw [hk, if_neg hreg]; simp⟩)

theorem last_eq {s s' : WalkState} (hx : s'.lastSetx = s.lastSetx)
    (hsp : s'.lastSetSp = s.lastSetSp) (hn : s'.lastSetNzcv = s.lastSetNzcv) (k : Slot) :
    s'.last k = s.last k := by
  cases k with
  | gpr reg => exact congrFun hx reg
  | sp => exact hsp
  | nzcv => exact hn

theorem visitPure_last (k : Slot) : (visitPure s vr a).1.last k = s.last k := by
  unfold visitPure
  split
  · rfl
  · split
    · rfl
    · rfl
    · split
      · refine last_eq ?_ ?_ ?_ k <;> rfl
      · rfl

theorem visitOp_last (s : WalkState) (vr : ValueRef) (a : Armlet) :
    Updates s vr a (visitOp s vr a) := by
  unfold visitOp
  split
  case h_1 h => exact updates_of_frame (by simp only [killed, h]) visitGetX_last
  case h_2 h => exact updates_of_frame (by simp only [killed, h]) visitGetW_last
  case h_3 h =>
    refine updates_of_frame (by simp only [killed, h]) fun k => ?_
    split
    · exact .inr rfl
    · cases k <;> first | exact .inl rfl | exact .inr rfl
  case h_4 h =>
    refine updates_of_frame (by simp only [killed, h]) fun k => ?_
    split
    · exact .inr rfl
    · cases k <;> first | exact .inl rfl | exact .inr rfl
  case h_5 => exact fun k => .inl (observe_last k)
  case h_6 h => exact visitSetGpr_last _ (.inl h)
  case h_7 h => exact visitSetGpr_last _ (.inr h)
  case h_8 h =>
    have hk : killed a = some .sp := by simp only [killed, h]
    intro k
    cases k with
    | gpr reg => exact .inr (.inr ⟨rfl, by simp [hk]⟩)
    | sp => exact .inr (.inl ⟨rfl, h, rfl⟩)
    | nzcv => exact .inr (.inr ⟨rfl, by simp [hk]⟩)
  case h_9 h =>
    have hk : killed a = some .nzcv := by simp only [killed, h]
    intro k
    cases k with
    | gpr reg => exact .inr (.inr ⟨rfl, by simp [hk]⟩)
    | sp => exact .inr (.inr ⟨rfl, by simp [hk]⟩)
    | nzcv => exact .inr (.inl ⟨rfl, h, rfl⟩)
  case h_22 h => exact updates_of_frame (by simp only [killed, h]) fun k => .inr (by cases k <;> rfl)
  case h_23 h => exact updates_of_frame (by simp only [killed, h]) fun k => .inr (by cases k <;> rfl)
  case h_24 =>
    have hk : killed a = none := by
      unfold killed
      split <;> first | rfl | simp_all
    refine updates_of_frame hk fun k => ?_
    split
    · exact .inr (visitPure_last k)
    · split
      · exact .inl (observe_last k)
      · exact .inr rfl
  all_goals
    rename_i h
    have hk : killed a = some .nzcv := by simp only [killed, h]
    intro k
    cases k with
    | gpr reg => exact .inr (.inr ⟨rfl, by simp [hk]⟩)
    | sp => exact .inr (.inr ⟨rfl, by simp [hk]⟩)
    | nzcv => exact .inl rfl

theorem visitMulFold_frame (s : WalkState) (vr : ValueRef) (a : Armlet) :
    ∃ block consts, (visitMulFold s vr a).1 = { s with block, consts } := by
  rw [visitMulFold]
  split
  · split
    · exact ⟨_, _, rfl⟩
    · exact ⟨s.block, s.consts, rfl⟩
  · exact ⟨s.block, s.consts, rfl⟩

theorem visitMulFold_last (k : Slot) : (visitMulFold s vr a).1.last k = s.last k := by
  obtain ⟨block, consts, h⟩ := visitMulFold_frame s vr a
  rw [h]
  refine last_eq ?_ ?_ ?_ k <;> rfl

theorem recordConst_last (k : Slot) : (recordConst s vr a).last k = s.last k := by
  obtain ⟨consts, h⟩ := recordConst_frame s vr a
  rw [h]
  refine last_eq ?_ ?_ ?_ k <;> rfl

theorem visitAffine_last (k : Slot) : (visitAffine s vr a).1.last k = s.last k := by
  rw [visitAffine]
  dsimp only
  split
  · split
    · split <;> refine last_eq ?_ ?_ ?_ k <;> rfl
    · refine last_eq ?_ ?_ ?_ k <;> rfl
  · split
    · refine last_eq ?_ ?_ ?_ k <;> rfl
    · split <;> refine last_eq ?_ ?_ ?_ k <;> rfl

/-! ## The nodes in front of the cursor -/

/-- In front of `vr` the live nodes have changed from `done` to `done'`: of the old ones only
`dead` is gone, the new ones are no cleared nodes, and old nodes differ in their links only. -/
structure Edited (b b' : Block) (dead vr : ValueRef) (done done' rest : List ValueRef) : Prop where
  linked : b'.Linked (done' ++ vr :: rest)
  keeps : ∀ w ∈ done, w ≠ dead → w ∈ done'
  old : ∀ w ∈ done', (w ∈ done ∧ w ≠ dead) ∨ (b.code.size ≤ w ∧ (b'.get w).op ≠ .void)
  frame : ∀ w < b.code.size, w ≠ linkNone → w ≠ dead → (b'.get w).bare = (b.get w).bare
  size_le : b.code.size ≤ b'.code.size

namespace Edited

variable {b' b'' : Block} {dead : ValueRef} {done' done'' : List ValueRef} {c : Armlet}

theorem trans (h : Edited b b' dead vr done done' rest)
    (h' : Edited b' b'' ValueRef.none vr done' done'' rest) :
    Edited b b'' dead vr done done'' rest where
  linked := h'.linked
  keeps w hw hd := by
    have hw' := h.keeps w hw hd
    exact h'.keeps w hw' (h.linked.ne_none (List.mem_append_left _ hw'))
  old w hw := by
    rcases h'.old w hw with ⟨hw', hne⟩ | ⟨hlt, hop⟩
    · rcases h.old w hw' with hold | ⟨hlt, hop⟩
      · exact .inl hold
      · refine .inr ⟨hlt, ?_⟩
        have hlive := List.mem_append_left (vr :: rest) hw'
        have hf := h'.frame w (h.linked.bound w hlive) (h.linked.ne_none hlive) hne
        rwa [← Armlet.bare_op, hf, Armlet.bare_op]
    · exact .inr ⟨h.size_le.trans hlt, hop⟩
  frame w hw h0 hd := by rw [h'.frame w (hw.trans_le h.size_le) h0 h0, h.frame w hw h0 hd]
  size_le := h.size_le.trans h'.size_le

theorem refl (h : b.Linked (done ++ vr :: rest)) :
    Edited b b ValueRef.none vr done done rest where
  linked := h
  keeps _ hw _ := hw
  old _ hw := .inl ⟨hw, h.ne_none (List.mem_append_left _ hw)⟩
  frame _ _ _ _ := rfl
  size_le := Nat.le_refl _

theorem insert (h : b.Linked (done ++ vr :: rest)) (hc : c.op ≠ .void) :
    Edited b (b.insertBefore vr c).1 ValueRef.none vr done (done ++ [b.code.size]) rest where
  linked := by
    rw [List.append_assoc]
    exact h.insertBefore c
  keeps _ hw _ := List.mem_append_left _ hw
  old w hw := by
    rcases List.mem_append.mp hw with hw | hw
    · exact .inl ⟨hw, h.ne_none (List.mem_append_left _ hw)⟩
    · rw [List.mem_singleton.mp hw, ← Armlet.bare_op, get_insertBefore_new (h.ne_none (by simp))]
      exact .inr ⟨Nat.le_refl _, hc⟩
  frame _ hw _ _ := get_insertBefore_bare (h.ne_none (by simp)) hw.ne
  size_le := by simp

theorem drop (h : b.Linked (done ++ vr :: rest)) (hd : dead.isSome → dead ∈ done) :
    Edited b (dropStore b dead) dead vr done (done.erase dead) rest := by
  unfold dropStore
  split
  case isTrue hs =>
    obtain ⟨k, m, hkm⟩ := List.append_of_mem (hd hs)
    have hnd : done.Nodup := (List.nodup_append.mp h.nodup).1
    have hk : dead ∉ k := by
      rw [hkm, List.nodup_middle, List.nodup_cons] at hnd
      exact fun hm => hnd.1 (List.mem_append_left m hm)
    have herase : done.erase dead = k ++ m := by
      rw [hkm, List.erase_append_right _ hk, List.erase_cons_head]
    refine ⟨?_, fun w hw hne => (List.mem_erase_of_ne hne).mpr hw, fun w hw => ?_,
      fun w _ _ hne => get_unlink_bare hne, by simp⟩
    · rw [hkm, List.append_assoc, List.cons_append] at h
      rw [herase, List.append_assoc]
      exact h.unlink
    · exact .inl ⟨List.mem_of_mem_erase hw, fun he => hnd.not_mem_erase (he ▸ hw)⟩
  case isFalse hs =>
    have h0 : dead = ValueRef.none := by simpa using hs
    have hnm : dead ∉ done := fun hm => h.ne_none (List.mem_append_left _ hm) h0
    rw [h0] at hnm ⊢
    rw [List.erase_of_not_mem hnm]
    exact refl h

end Edited

/-- The node before the cursor. -/
theorem getLastD_lt (h : b.Linked (done ++ vr :: rest)) :
    done.getLastD linkNone < b.code.size := h.prev_eq ▸ h.prev_lt (by simp)

/-- Taking a node out changes the last one iff it is the last one. -/
theorem getLastD_erase {dead : ValueRef} (hnd : done.Nodup) (h0 : linkNone ∉ done)
    (hd : dead.isSome → dead ∈ done) :
    (done.erase dead).getLastD linkNone = done.getLastD linkNone ↔
      (dead.isSome → dead ≠ done.getLastD linkNone) := by
  cases hs : dead.isSome with
  | false =>
    have hdn : dead = linkNone := by simpa using hs
    rw [List.erase_of_not_mem (hdn ▸ h0)]
    simp
  | true =>
    obtain ⟨k, z, rfl⟩ : ∃ k z, done = k ++ [z] :=
      ⟨_, _, (List.dropLast_append_getLast (List.ne_nil_of_mem (hd hs))).symm⟩
    rw [List.getLastD_concat]
    obtain ⟨hk, -, hz⟩ := List.nodup_append.mp hnd
    by_cases hdz : dead = z
    · have hzk : z ∉ k := fun hm => hz z hm z List.mem_cons_self rfl
      rw [hdz, List.erase_append_right _ hzk, List.erase_cons_head, List.append_nil]
      refine iff_of_false (fun he => ?_) (by simp)
      cases hl : k using List.reverseRecOn with
      | nil =>
        rw [hl] at he
        exact h0 (by rw [← he]; simp)
      | append_singleton k' y =>
        rw [hl, List.getLastD_concat] at he
        exact hzk (by rw [hl, he]; simp)
    · have hm : dead ∈ k := by
        rcases List.mem_append.mp (hd hs) with hm | hm
        · exact hm
        · exact absurd (List.mem_singleton.mp hm) hdz
      rw [List.erase_append_left _ hm, List.getLastD_concat]
      simp [hdz]

/-! ## One iteration -/

/-- **The iterations that keep the list.**  The write that the node makes dead is not its
predecessor, and neither a constant nor a multiple is put in front of the node. -/
structure CleanAt (s : WalkState) (vr : ValueRef) : Prop where
  store : (deadStore s (loadNode s vr)).isSome →
    deadStore s (loadNode s vr) ≠ (s.block.get vr).prev
  combine : combines s (loadNode s vr) = false
  fold : folds (visitOp (resetV s (loadNode s vr).op) vr (loadNode s vr)).1
    (visitOp (resetV s (loadNode s vr).op) vr (loadNode s vr)).2 = false

/-- The unread writes are live writes in `done`. -/
def Pending (s : WalkState) (done : List ValueRef) : Prop :=
  ∀ k, s.last k ≠ ValueRef.none → s.last k ∈ done ∧ k.writes (s.block.get (s.last k))

theorem resetV_frame (s : WalkState) (op : Op) : ∃ reachV, resetV s op = { s with reachV } := by
  unfold resetV
  split
  · exact ⟨_, rfl⟩
  · exact ⟨s.reachV, rfl⟩

theorem Pending.deadStore_mem (h : Pending s done) (hs : (deadStore s a).isSome) :
    deadStore s a ∈ done := by
  rw [deadStore_eq] at hs ⊢
  cases hk : killed a with
  | none =>
    rw [hk] at hs
    cases hs
  | some k =>
    rw [hk] at hs
    exact (h k (by simpa using hs)).1

theorem Slot.writes_scalar {k : Slot} (h : k.writes a) : Scalar a ∧ isSum a.op = false := by
  have hop : isGprStore a.op ∨ a.op = .setSp ∨ a.op = .setNzcv := by
    cases k with
    | gpr reg => exact .inl h.1
    | sp => exact .inr (.inl h)
    | nzcv => exact .inr (.inr h)
  rcases hop with (h | h) | h | h <;> exact ⟨fun _ _ _ => by simp only [recognizeMap, h], h ▸ rfl⟩

theorem visit_of_writes {k : Slot} {t : WalkState} (h : k.writes a) :
    (visitAffine (recordConst (visitMulFold t vr a).1 vr (visitMulFold t vr a).2) vr
      (visitMulFold t vr a).2).2 = a := by
  obtain ⟨hs, hsum⟩ := Slot.writes_scalar h
  have hf : visitMulFold t vr a = (t, a) := by
    unfold visitMulFold
    rw [hsum]
    rfl
  rw [hf]
  rcases visitAffine_cases (recordConst t vr a) vr a with ⟨-, h⟩ | ⟨hn, -⟩
  · exact h
  · exact absurd hs hn

theorem scalar_of_killed {k : Slot} (h : killed a = some k) : Scalar a := by
  unfold killed at h
  intro b consts vectors
  split at h
  case h_17 => cases h
  all_goals
    rename_i hop
    simp only [recognizeMap, hop]

/-- The first stage of an iteration, on the copy `a`. -/
theorem visitOp_edited (op : Op) (hl : s.block.Linked (done ++ vr :: rest))
    (hd : (deadStore s a).isSome → deadStore s a ∈ done) :
    ∃ done', Edited s.block (visitOp (resetV s op) vr a).1.block (deadStore s a) vr done done' rest ∧
      Kept a (visitOp (resetV s op) vr a).2 ∧
      ((combines s a = false ∧ done' = done.erase (deadStore s a) ∧
          ((deadStore s a).isSome → (visitOp (resetV s op) vr a).2 = a)) ∨
        (combines s a = true ∧ Scalar (visitOp (resetV s op) vr a).2 ∧
          done' = done ++ [s.block.code.size])) := by
  obtain ⟨reachV, hreset⟩ := resetV_frame s op
  have hdead : deadStore (resetV s op) a = deadStore s a := by rw [hreset]; rfl
  have hcomb : combines (resetV s op) a = combines s a := by rw [hreset]; rfl
  have hblock : (resetV s op).block = s.block := by rw [hreset]
  rcases visitOp_cases (resetV s op) vr a with h | ⟨hc, hn, hk, hs, c, hop, hb⟩
  · have hb := h.block_eq
    rw [hdead, hblock] at hb
    exact ⟨_, hb ▸ .drop hl hd, h.kept, .inl ⟨hcomb ▸ h.combines_eq, rfl, hdead ▸ h.of_store⟩⟩
  · rw [hdead] at hn
    rw [hblock] at hb
    refine ⟨_, ?_, hk, .inr ⟨hcomb ▸ hc, hs, rfl⟩⟩
    rw [hb, hn]
    exact .insert hl hop

/-- The second stage. -/
theorem visitMulFold_edited (hl : s.block.Linked (done ++ vr :: rest)) :
    ∃ done', Edited s.block (visitMulFold s vr a).1.block ValueRef.none vr done done' rest ∧
      Kept a (visitMulFold s vr a).2 ∧
      ((folds s a = false ∧ (visitMulFold s vr a).2 = a ∧ done' = done) ∨
        (folds s a = true ∧ Scalar (visitMulFold s vr a).2 ∧
          s.block.code.size < done'.getLastD linkNone)) := by
  rcases visitMulFold_cases s vr a with ⟨hf, he⟩ | ⟨hf, hk, hs, c, m, hc, hm, hb⟩
  · rw [he]
    exact ⟨done, .refl hl, .refl a, .inl ⟨hf, rfl, rfl⟩⟩
  · have h₁ := Edited.insert hl hc
    have h₂ := Edited.insert h₁.linked hm
    rw [hb]
    refine ⟨_, h₁.trans h₂, hk, .inr ⟨hf, hs, ?_⟩⟩
    rw [List.getLastD_concat, size_insertBefore]
    exact Nat.lt_succ_self _

/-- The third stage. -/
theorem visitAffine_edited (hl : s.block.Linked (done ++ vr :: rest)) :
    ∃ done', Edited s.block (visitAffine s vr a).1.block ValueRef.none vr done done' rest ∧
      (visitAffine s vr a).2.next = a.next ∧
      ((visitAffine s vr a).2.op = .void → a.op = .void) ∧
      (((visitAffine s vr a).2 = a ∧ done' = done) ∨
        (¬ Scalar a ∧ (visitAffine s vr a).2.prev = done'.getLastD linkNone)) := by
  rcases visitAffine_cases s vr a with ⟨hb, he⟩ | ⟨hn, c, hc, hb, hop, hnext, hprev⟩
  · rw [hb, he]
    exact ⟨done, .refl hl, rfl, id, .inl ⟨rfl, rfl⟩⟩
  · have h₁ := Edited.insert hl hc
    refine ⟨_, hb ▸ h₁, hnext, fun h => ?_, .inr ⟨hn, ?_⟩⟩
    · rw [hop] at h
      cases h
    · rw [hprev]
      exact h₁.linked.prev_eq

/-- **What an iteration does** before the copy is written back: the list is kept, and the copy has
the predecessor of the list iff the iteration is clean. -/
theorem visit_edited (hl : s.block.Linked (done ++ vr :: rest)) (hp : Pending s done) :
    ∃ done', Edited s.block (visit s vr).1.block (deadStore s (loadNode s vr)) vr done done' rest ∧
      ((visit s vr).2.prev = done'.getLastD linkNone ↔ CleanAt s vr) ∧
      (visit s vr).2.next = (s.block.get vr).next ∧
      ((visit s vr).2.op = .void → (s.block.get vr).op = .void) := by
  have hload : Kept (s.block.get vr) (loadNode s vr) := .forwardArgs s.block _
  have hclean : CleanAt s vr ↔
      ((deadStore s (loadNode s vr)).isSome →
          deadStore s (loadNode s vr) ≠ done.getLastD linkNone) ∧
        combines s (loadNode s vr) = false ∧
        folds (visitOp (resetV s (loadNode s vr).op) vr (loadNode s vr)).1
          (visitOp (resetV s (loadNode s vr).op) vr (loadNode s vr)).2 = false :=
    ⟨fun h => ⟨hl.prev_eq ▸ h.store, h.combine, h.fold⟩,
      fun h => ⟨hl.prev_eq.symm ▸ h.1, h.2.1, h.2.2⟩⟩
  have hprev : (loadNode s vr).prev = done.getLastD linkNone := hl.prev_eq
  have hlt := getLastD_lt hl
  have hnd : done.Nodup := (List.nodup_append.mp hl.nodup).1
  have h0 : linkNone ∉ done := fun hm => hl.ne_none (List.mem_append_left _ hm) rfl
  have hd : (deadStore s (loadNode s vr)).isSome → deadStore s (loadNode s vr) ∈ done :=
    hp.deadStore_mem
  unfold visit
  rw [hclean]
  dsimp only
  generalize loadNode s vr = a at *
  obtain ⟨done₁, he₁, hk₁, hq₁⟩ := visitOp_edited a.op hl hd
  generalize visitOp (resetV s a.op) vr a = r₁ at *
  obtain ⟨done₂, he₂, hk₂, hq₂⟩ := visitMulFold_edited (a := r₁.2) he₁.linked
  generalize visitMulFold r₁.1 vr r₁.2 = r₂ at *
  obtain ⟨consts, hrec⟩ := recordConst_frame r₂.1 vr r₂.2
  rw [hrec]
  obtain ⟨done₃, he₃, hnext₃, hvoid₃, hq₃⟩ :=
    visitAffine_edited (s := { r₂.1 with consts }) (a := r₂.2) he₂.linked
  refine ⟨done₃, (he₁.trans he₂).trans he₃, ?_, ?_, fun h => ?_⟩
  · rcases hq₃ with ⟨ha₃, rfl⟩ | ⟨hn, hp₃⟩
    · rw [ha₃, hk₂.prev_eq, hk₁.prev_eq, hprev]
      rcases hq₂ with ⟨hf, -, rfl⟩ | ⟨hf, -, hlast⟩
      · rcases hq₁ with ⟨hc, rfl, -⟩ | ⟨hc, -, rfl⟩
        · rw [eq_comm, getLastD_erase hnd h0 hd]
          exact ⟨fun h => ⟨h, hc, hf⟩, fun h => h.1⟩
        · rw [List.getLastD_concat]
          exact iff_of_false hlt.ne fun h => by simp [hc] at h
      · have hlt₂ := hlt.trans_le (he₁.size_le.trans hlast.le)
        exact iff_of_false hlt₂.ne fun h => by simp [hf] at h
    · -- an affine operation neither combines nor folds nor makes a write dead
      refine iff_of_true hp₃ ?_
      rcases hq₂ with ⟨hf, h₂, -⟩ | ⟨-, hs, -⟩
      · rcases hq₁ with ⟨hc, -, hst⟩ | ⟨-, hs, -⟩
        · refine ⟨fun hsome => absurd ?_ hn, hc, hf⟩
          rw [h₂, hst hsome]
          rw [deadStore_eq] at hsome
          cases hk : killed a with
          | none =>
            rw [hk] at hsome
            cases hsome
          | some k => exact scalar_of_killed hk
        · exact absurd hs (h₂ ▸ hn)
      · exact absurd hs hn
  · rw [hnext₃, hk₂.next_eq, hk₁.next_eq]
    exact hload.next_eq
  · exact hload.of_void (hk₁.of_void (hk₂.of_void (hvoid₃ h)))

theorem step_block (s : WalkState) (vr : ValueRef) :
    (step s vr).block = (visit s vr).1.block.set vr (visit s vr).2 := rfl

theorem step_get_of_ne {w : ValueRef} (hw : w ≠ vr) :
    (step s vr).block.get w = (visit s vr).1.block.get w := by
  rw [step_block, get_set_of_ne hw]

/-- A write that the walk has to remember is written back as it is. -/
theorem visit_store {k : Slot} (h : k.writes (loadNode s vr))
    (ha : (visitOp (resetV s (loadNode s vr).op) vr (loadNode s vr)).2 = loadNode s vr) :
    (visit s vr).2 = loadNode s vr := by
  unfold visit
  dsimp only
  rw [ha]
  exact visit_of_writes h

theorem step_last (k : Slot) :
    (step s vr).last k = (visitOp (resetV s (loadNode s vr).op) vr (loadNode s vr)).1.last k := by
  have h : (step s vr).last k = (visit s vr).1.last k := by
    rw [step]
    generalize visit s vr = r
    refine last_eq ?_ ?_ ?_ k <;> rfl
  rw [h, visit, visitAffine_last, recordConst_last, visitMulFold_last]

/-- **An iteration keeps the list linked iff it is clean.** -/
theorem step_linked_iff (hl : s.block.Linked (done ++ vr :: rest)) (hp : Pending s done) :
    (∃ l, (step s vr).block.Linked l) ↔ CleanAt s vr := by
  obtain ⟨done', he, hprev, hnext, -⟩ := visit_edited hl hp
  rw [← hprev, ← he.linked.prev_eq]
  refine he.linked.set_iff (by simp) ?_
  rw [hnext, hl.next_eq, he.linked.next_eq]

/-- The list `done ++ rest` is linked, `done` has every unread write, and a cleared node in it was a
live node of `b₀` already. -/
structure Tracks (b₀ : Block) (s : WalkState) (done rest : List ValueRef) : Prop where
  linked : s.block.Linked (done ++ rest)
  pending : Pending s done
  of_void : ∀ w ∈ done ++ rest, (s.block.get w).op = .void →
    w ∈ b₀.iterLive ∧ (b₀.get w).op = .void

theorem mem_cons_right (vr : ValueRef) {w : ValueRef} (h : w ∈ done ++ rest) :
    w ∈ done ++ vr :: rest :=
  List.mem_append.mpr ((List.mem_append.mp h).imp_right (List.mem_cons_of_mem vr))

/-- A clean iteration goes on with the next node. -/
theorem Tracks.step (h : Tracks b₀ s done (vr :: rest)) (hc : CleanAt s vr) :
    ∃ done', Tracks b₀ (Optimizer.step s vr) done' rest := by
  obtain ⟨done', he, hprev, hnext, hvoid⟩ := visit_edited h.linked h.pending
  have hvr : vr ∈ done' ++ vr :: rest := by simp
  have hvlt := he.linked.bound vr hvr
  have hself : (Optimizer.step s vr).block.get vr = (visit s vr).2 := by
    rw [step_block, get_set_self hvlt]
  have hndone : vr ∉ done := by
    have hnd := h.linked.nodup
    rw [List.nodup_middle, List.nodup_cons] at hnd
    exact fun hm => hnd.1 (List.mem_append_left _ hm)
  have hdead : (deadStore s (loadNode s vr)).isSome → deadStore s (loadNode s vr) ∈ done :=
    h.pending.deadStore_mem
  have hold : ∀ w ∈ done ++ rest, w ≠ deadStore s (loadNode s vr) → w ≠ vr →
      ((Optimizer.step s vr).block.get w).bare = (s.block.get w).bare := by
    intro w hw hd hne
    have hw' := mem_cons_right vr hw
    rw [step_get_of_ne hne]
    exact he.frame w (h.linked.bound w hw') (h.linked.ne_none hw') hd
  refine ⟨done' ++ [vr], ?_, fun k hk => ?_, fun w hw hop => ?_⟩
  · rw [List.append_assoc]
    refine he.linked.set hvr ?_ ?_
    · rw [hnext, h.linked.next_eq, he.linked.next_eq]
    · rw [he.linked.prev_eq]
      exact hprev.mpr hc
  · obtain ⟨reachV, hreset⟩ := resetV_frame s (loadNode s vr).op
    have hlast : (resetV s (loadNode s vr).op).last k = s.last k := by
      rw [hreset]
      cases k <;> rfl
    rw [step_last] at hk ⊢
    rcases visitOp_last (resetV s (loadNode s vr).op) vr (loadNode s vr) k with
      hn | ⟨hl, hw, ha⟩ | ⟨hl, hkill⟩
    · exact absurd hn hk
    · rw [hl, hself]
      rw [visit_store hw ha]
      exact ⟨by simp, hw⟩
    · rw [hl, hlast] at hk ⊢
      obtain ⟨hm, hw⟩ := h.pending k hk
      have hd : s.last k ≠ deadStore s (loadNode s vr) := by
        rw [deadStore_eq]
        cases hk' : killed (loadNode s vr) with
        | none => exact hk
        | some k' =>
          intro he
          have he : s.last k = s.last k' := he
          have hw' := (h.pending k' (he ▸ hk)).2
          rw [← he] at hw'
          exact hkill (hk' ▸ congrArg some (Slot.writes_inj hw' hw))
      have hne : s.last k ≠ vr := fun he => hndone (he ▸ hm)
      refine ⟨List.mem_append_left _ (he.keeps _ hm hd), ?_⟩
      rwa [Slot.writes_bare (hold _ (List.mem_append_left _ hm) hd hne)]
  · by_cases hwv : w = vr
    · rw [hwv, hself] at hop
      rw [hwv]
      exact h.of_void vr (by simp) (hvoid hop)
    have hw' : w ∈ done' ∨ w ∈ rest := by
      rw [List.append_assoc, List.mem_append, List.singleton_append, List.mem_cons] at hw
      exact hw.imp_right fun h => h.resolve_left hwv
    have hkept : ∀ (hm : w ∈ done ++ rest), w ≠ deadStore s (loadNode s vr) →
        w ∈ b₀.iterLive ∧ (b₀.get w).op = .void := by
      intro hm hd
      refine h.of_void w (mem_cons_right vr hm) ?_
      · rwa [← Armlet.bare_op, ← hold w hm hd hwv, Armlet.bare_op]
    rcases hw' with hw' | hw'
    · rcases he.old w hw' with ⟨hm, hd⟩ | ⟨-, hne⟩
      · exact hkept (List.mem_append_left _ hm) hd
      · rw [step_get_of_ne hwv] at hop
        exact absurd hop hne
    · refine hkept (List.mem_append_right _ hw') fun hd => ?_
      have h0 : w ≠ linkNone := h.linked.ne_none (by simp [hw'])
      have hm : w ∈ done := hd ▸ hdead (by simpa [← hd] using h0)
      have hnd := h.linked.nodup
      exact (List.nodup_append.mp hnd).2.2 w hm w (List.mem_cons_of_mem vr hw') rfl

end Optimizer

end Rustarmic
