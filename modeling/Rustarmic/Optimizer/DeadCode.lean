import Rustarmic.Lib.RefCount
import Rustarmic.Optimizer.SsaWalk

/-!
# What the backward walk drops

The walk from the tail is a sweep with counted references: the live nodes and the terminal refer to
their operands, nodes with side effects are roots, and the counts are bytes.

* `dropDead_sweep`: what stays is what `RefCount.sweep` keeps, with its operations and arguments.
* `argsLive_optimize_iff`: after a clean forward walk, every argument of a live node is a live node
  in front of it iff no needed value has 255 references from nodes that are not needed.
* `manyUses_drops_used`: 256 references from dead nodes outweigh the one that counts.
-/

set_option autoImplicit false

namespace Rustarmic

namespace Optimizer

open Block

variable {b b' : Block} {l l₁ l₂ : List ValueRef} {v w x : ValueRef} {n : Nat}

/-- The operand of the terminal, if any. -/
def terminalRefs (b : Block) : List ValueRef := [terminalValue b.terminal].filter ValueRef.isSome

theorem mem_terminalRefs :
    x ∈ terminalRefs b ↔ x = terminalValue b.terminal ∧ (terminalValue b.terminal).isSome := by
  rw [terminalRefs, List.mem_filter, List.mem_singleton]
  exact and_congr_right fun h => by rw [h]

/-- Every argument of a live node is a live node in front of it that is not cleared, and so is the
operand of the terminal. -/
def ArgsLive (b : Block) : Prop :=
  b.Ssa b.iterLive ∧
    (∀ v ∈ b.iterLive, ∀ x ∈ argsOf (b.get v), (b.get x).op ≠ .void) ∧
    ∀ x ∈ terminalRefs b, x ∈ b.iterLive ∧ (b.get x).op ≠ .void

/-- The arguments of the nodes as references. -/
def refsOf (b : Block) (v : ValueRef) : List ValueRef := argsOf (b.get v)

/-- What stays live on its own account. -/
def isRoot (b : Block) (v : ValueRef) : Bool := (b.get v).op.hasSideEffects

/-- The block the backward walk starts from. -/
def beforeDead (b : Block) : Block :=
  let s := forwardWalk b.code.size (.init b) b.head
  simplifyTerminal s.block s.consts

/-- No value that has to stay has as many references from nodes that do not as a byte can count. -/
def CountsFit (b : Block) : Prop :=
  ∀ v ∈ RefCount.needed (refsOf b) (isRoot b) (terminalRefs b) b.iterLive.reverse, isRoot b v ∨
    (RefCount.wasted (refsOf b) (isRoot b) (terminalRefs b) b.iterLive.reverse).count v < 255

theorem optimize_eq (h : b.code.size ≠ 0) :
    optimize b = dropDead (beforeDead b).code.size (beforeDead b) (countUses (beforeDead b))
      (beforeDead b).tail := by
  rw [optimize, if_neg h]
  rfl

theorem Linked.tail_eq (h : b.Linked l) : b.tail = l.getLastD linkNone := by
  have hlast : b.tail = l.reverse.headD linkNone := h.ring.backward.1
  rw [hlast]
  cases l using List.reverseRecOn with
  | nil => rfl
  | append_singleton k z => rw [List.reverse_concat, List.getLastD_concat, List.headD_cons]

/-! ## The terminal -/

theorem tailVr_eq_some (h : b.Linked l) (ht : b.tailVr = some v) : ∃ k, l = k ++ [v] := by
  rw [tailVr] at ht
  obtain ⟨hne, heq⟩ := Option.ite_none_right_eq_some.mp ht
  have hlast := Linked.tail_eq h
  obtain rfl := Option.some.inj heq
  cases l using List.reverseRecOn with
  | nil => exact absurd hlast hne
  | append_singleton k z =>
    rw [List.getLastD_concat] at hlast
    exact ⟨k, by rw [hlast]⟩

/-- A direct terminal has no operand. -/
theorem constTerminal_refs {consts : Consts} {t t' : Terminal}
    (h : constTerminal consts t = some t') : terminalValue t' = ValueRef.none := by
  cases t with
  | compareBranchZero =>
    obtain ⟨_, -, rfl⟩ := Option.map_eq_some_iff.mp h
    rfl
  | testBranchBit =>
    obtain ⟨_, -, rfl⟩ := Option.map_eq_some_iff.mp h
    rfl
  | conditionalBranch =>
    rw [constTerminal] at h
    split at h
    · obtain rfl := Option.some.inj h
      rfl
    · obtain ⟨_, -, rfl⟩ := Option.map_eq_some_iff.mp h
      rfl
  | _ => cases h

/-- The list the backward walk starts from: the arguments come first, and the operand of the
terminal is in it. -/
structure Ready (b : Block) (l : List ValueRef) : Prop where
  linked : b.Linked l
  fed : Fed b (fun _ => False) l
  refs : ∀ x ∈ terminalRefs b, Held b l x

theorem Ready.simplifyTerminal (h : Ready b l) (consts : Consts) :
    ∃ l', Ready (simplifyTerminal b consts) l' := by
  rw [Optimizer.simplifyTerminal]
  split
  next => exact ⟨l, h⟩
  next t ht =>
    have hrefs : ∀ x, x ∉ terminalRefs { b with terminal := t } := by
      intro x hx
      have hs := (mem_terminalRefs.mp hx).2
      rw [constTerminal_refs ht] at hs
      cases hs
    have hl : ({ b with terminal := t } : Block).Linked l := ⟨h.linked.ring, h.linked.bound⟩
    have hfed : Fed { b with terminal := t } (fun _ => False) l := h.fed.congr fun _ _ => rfl
    dsimp only
    split
    next => exact ⟨l, hl, hfed, fun x hx => absurd hx (hrefs x)⟩
    next tail htail =>
      split
      · obtain ⟨k, rfl⟩ := tailVr_eq_some hl htail
        have hnd := hl.nodup
        rw [List.nodup_append] at hnd
        refine ⟨k ++ [], hl.unlink, ?_, fun x hx => absurd hx ?_⟩
        · rw [List.append_nil]
          refine (Fed.append.mp hfed).1.congr fun w hw => get_unlink_bare ?_
          exact hnd.2.2 w hw tail List.mem_cons_self
        · rw [terminalRefs, terminal_unlink]
          exact hrefs x
      · exact ⟨l, hl, hfed, fun x hx => absurd hx (hrefs x)⟩

theorem size_simplifyTerminal (consts : Consts) :
    (simplifyTerminal b consts).code.size = b.code.size := by
  rw [simplifyTerminal]
  split
  · rfl
  · dsimp only
    split
    · rfl
    · split
      · exact size_unlink
      · rfl

/-! ## The sweep -/

/-- **The backward walk as a sweep.** -/
theorem dropDead_sweep (hl : b.Linked (l₁ ++ l₂)) (hn : l₁.length ≤ n) (uses : Uses) :
    let kept := (RefCount.sweep (refsOf b) (isRoot b) uses l₁.reverse).reverse ++ l₂
    let b' := dropDead n b uses (l₁.getLastD linkNone)
    b'.Linked kept ∧ (∀ w ∈ kept, (b'.get w).bare = (b.get w).bare) ∧ b'.terminal = b.terminal := by
  dsimp only
  induction n generalizing b uses l₁ l₂ with
  | zero =>
    obtain rfl := List.eq_nil_of_length_eq_zero (Nat.le_zero.mp hn)
    exact ⟨hl, fun _ _ => rfl, rfl⟩
  | succ n ih =>
    cases l₁ using List.reverseRecOn with
    | nil =>
      rw [List.getLastD_nil, dropDead, if_pos rfl]
      exact ⟨hl, fun _ _ => rfl, rfl⟩
    | append_singleton k v =>
      rw [List.append_assoc, List.singleton_append] at hl
      have hne : v ≠ linkNone := hl.ne_none (by simp)
      have hk : k.length ≤ n := by simpa using hn
      rw [List.getLastD_concat, List.reverse_concat, dropDead, if_neg hne, RefCount.sweep]
      dsimp only
      rw [hl.prev_eq]
      by_cases hkeep : (b.get v).op.hasSideEffects = true ∨ uses v ≠ 0
      · have hkeep' : isRoot b v = true ∨ uses v ≠ 0 := hkeep
        rw [if_pos hkeep, if_pos hkeep', List.reverse_cons, List.append_assoc, List.singleton_append]
        exact ih hl hk uses
      · have hkeep' : ¬ (isRoot b v = true ∨ uses v ≠ 0) := hkeep
        rw [if_neg hkeep, if_neg hkeep']
        have hnd := hl.nodup
        rw [List.nodup_middle, List.nodup_cons] at hnd
        have hbare : ∀ w ∈ k ++ l₂, ((b.unlink v).get w).bare = (b.get w).bare := fun w hw =>
          get_unlink_bare fun he => hnd.1 (he ▸ hw)
        have hcongr : ∀ w ∈ k.reverse, refsOf b w = refsOf (b.unlink v) w ∧
            isRoot b w = isRoot (b.unlink v) w := fun w hw => by
          have hw := hbare w (List.mem_append_left _ (List.mem_reverse.mp hw))
          rw [refsOf, refsOf, isRoot, isRoot, argsOf_of_bare hw, op_of_bare hw]
          exact ⟨rfl, rfl⟩
        rw [RefCount.sweep_congr hcongr]
        obtain ⟨hlinked, hget, hterm⟩ := ih hl.unlink hk
          (((b.get v).args.toList.filter ValueRef.isSome).foldl Uses.discount uses)
        refine ⟨hlinked, fun w hw => (hget w hw).trans (hbare w ?_), hterm.trans (terminal_unlink v)⟩
        refine (List.mem_append.mp hw).elim (fun hw => List.mem_append_left _ ?_)
          fun hw => List.mem_append_right _ hw
        exact List.mem_reverse.mp ((RefCount.sweep_sublist _ _).subset (List.mem_reverse.mp hw))

/-! ## The counts -/

theorem usersFirst_reverse (h : Fed b (fun _ => False) l) (hnd : l.Nodup) :
    RefCount.UsersFirst (refsOf b) l.reverse := by
  induction l using List.reverseRecOn with
  | nil => trivial
  | append_singleton k v ih =>
    obtain ⟨hv, hk⟩ := List.nodup_cons.mp (List.nodup_append_comm.mp hnd)
    obtain ⟨hfed, hself, -⟩ := Fed.append.mp h
    rw [List.reverse_concat]
    refine ⟨fun hm => hv (List.mem_reverse.mp hm), fun w hw hx => ?_, ih hfed hk⟩
    rcases List.mem_cons.mp hw with rfl | hw
    · exact hv ((hself _ hx).resolve_left id).1
    · exact hv (hfed.held_args (List.mem_reverse.mp hw) v hx).1

theorem countUses_apply (hl : b.Linked l) (x : ValueRef) :
    countUses b x = min 255
      ((terminalRefs b).count x + (l.reverse.flatMap (refsOf b)).count x) := by
  have hrefs : (b.iterLive.flatMap (fun v => (b.get v).args.toList) ++
      [terminalValue b.terminal]).filter ValueRef.isSome =
      l.flatMap (refsOf b) ++ terminalRefs b := by
    rw [hl.iterLive_eq, List.filter_append, List.filter_flatMap]
    rfl
  have hperm : (l.reverse.flatMap (refsOf b)).Perm (l.flatMap (refsOf b)) :=
    (List.reverse_perm l).flatMap_right _
  have hcount := RefCount.foldl_count 255 (l.flatMap (refsOf b) ++ terminalRefs b) x
  rw [List.count_append, ← hperm.count_eq, Nat.add_comm] at hcount
  rw [countUses, hrefs]
  exact hcount

/-- **What the pass keeps.** -/
theorem Ready.dropDead (h : Ready b l) :
    ArgsLive (dropDead b.code.size b (countUses b) b.tail) ↔ CountsFit b := by
  have huf := usersFirst_reverse h.fed h.linked.nodup
  have hl : b.Linked (l ++ []) := by rw [List.append_nil]; exact h.linked
  obtain ⟨hlinked, hget, hterm⟩ := dropDead_sweep hl h.linked.length_le (countUses b)
  have hsweep : RefCount.sweep (refsOf b) (isRoot b) (countUses b) l.reverse =
      RefCount.capped (refsOf b) (isRoot b) 255 (terminalRefs b) [] l.reverse :=
    RefCount.sweep_eq_capped huf fun x _ => by
      rw [countUses_apply h.linked, List.count_nil, Nat.add_zero, Nat.sub_zero]
  have hsub : (RefCount.sweep (refsOf b) (isRoot b) (countUses b) l.reverse).reverse.Sublist l := by
    simpa using (RefCount.sweep_sublist l.reverse (countUses b)).reverse
  rw [← Linked.tail_eq h.linked] at hlinked hget hterm
  rw [List.append_nil] at hlinked hget
  rw [hsweep] at hlinked hget hsub
  generalize Optimizer.dropDead b.code.size b (countUses b) b.tail = b' at *
  have hiff : RefCount.Closed (refsOf b) (terminalRefs b)
      (RefCount.capped (refsOf b) (isRoot b) 255 (terminalRefs b) [] l.reverse) l.reverse ↔ _ :=
    RefCount.closed_capped_iff huf
  generalize RefCount.capped (refsOf b) (isRoot b) 255 (terminalRefs b) [] l.reverse = kept at *
  have hrefs : terminalRefs b' = terminalRefs b := by rw [terminalRefs, hterm, terminalRefs]
  have hargs : ∀ w ∈ kept, argsOf (b'.get w) = refsOf b w := fun w hw =>
    argsOf_of_bare (hget w (List.mem_reverse.mpr hw))
  rw [CountsFit, h.linked.iterLive_eq]
  simp only [List.count_nil, Nat.add_zero] at hiff
  rw [← hiff, ArgsLive, hlinked.iterLive_eq, hrefs]
  constructor
  · rintro ⟨hssa, -, hlive⟩ x - hx
    rcases hx with hx | hx
    · exact List.mem_reverse.mp (hlive x hx).1
    · obtain ⟨w, hw, hx⟩ := List.mem_flatMap.mp hx
      obtain ⟨k₁, k₂, hk⟩ := List.append_of_mem (List.mem_reverse.mpr hw)
      rw [← hargs w hw] at hx
      have hmem := hssa k₁ w k₂ hk x (mem_argsOf.mp hx).1 (mem_argsOf.mp hx).2
      rw [← List.mem_reverse, hk]
      exact List.mem_append_left _ hmem
  · intro hc
    have hfed : Fed b' (fun _ => False) kept.reverse := by
      refine Fed.congr (h.fed.sublist hsub h.linked.nodup fun w hw x hx hm => ?_) hget
      refine List.mem_reverse.mpr (hc x (List.mem_reverse.mpr hm) (Or.inr ?_))
      exact List.mem_flatMap.mpr ⟨w, List.mem_reverse.mp hw, hx⟩
    have hvoid : ∀ {x}, computes (b'.get x).op → (b'.get x).op ≠ .void := fun hx he => by
      rw [he] at hx
      cases hx
    refine ⟨hfed.ssa, fun v hv x hx => hvoid (hfed.held_args hv x hx).2, fun x hx => ?_⟩
    obtain ⟨hm, hcomp⟩ := h.refs x hx
    have hkept := List.mem_reverse.mpr (hc x (List.mem_reverse.mpr hm) (Or.inl hx))
    rw [← op_of_bare (hget x hkept)] at hcomp
    exact ⟨hkept, hvoid hcomp⟩

/-! ## The pass -/

theorem Ready.forwardWalk (h : Ready b l) (hc : CleanRun b) :
    ∃ l', Ready (forwardWalk b.code.size (.init b) b.head).block l' := by
  rw [CleanRun, h.linked.head_eq] at hc
  obtain ⟨l', hl', hfed, hheld, hterm⟩ :=
    forwardWalk_fed (threaded_init h.fed) (tracks_init h.linked) hc
  rw [← h.linked.head_eq] at hl' hfed hheld hterm
  refine ⟨l', hl', hfed, fun x hx => hheld x (h.refs x ?_)⟩
  rwa [terminalRefs, hterm] at hx

theorem Ready.beforeDead (h : Ready b l) (hc : CleanRun b) : ∃ l', Ready (beforeDead b) l' := by
  obtain ⟨l', hl'⟩ := h.forwardWalk hc
  exact hl'.simplifyTerminal _

/-- **What is left after `optimize`.**  From a list in SSA form, and a forward walk that keeps it
linked, every argument of a live node and the operand of the terminal are live and come first iff no
needed value has 255 references from nodes that are not needed. -/
theorem argsLive_optimize_iff (hl : b.Linked l) (hssa : b.Ssa l)
    (hargs : ∀ v ∈ l, ∀ x ∈ argsOf (b.get v), computes (b.get x).op)
    (hterm : ∀ x ∈ terminalRefs b, x ∈ l ∧ computes (b.get x).op) (hc : CleanRun b) :
    ArgsLive (optimize b) ↔ CountsFit (beforeDead b) := by
  obtain ⟨l', hready⟩ := Ready.beforeDead ⟨hl, fed_of_ssa hssa hargs, hterm⟩ hc
  by_cases h0 : b.code.size = 0
  · have hnil : ∀ {b' : Block}, b'.code.size = 0 → b'.iterLive = [] := fun h => by
      rw [iterLive, h]
      rfl
    have hsize : (beforeDead b).code.size = 0 := by
      rw [beforeDead, size_simplifyTerminal, h0]
      exact h0
    have hempty : l = [] := hl.iterLive_eq.symm.trans (hnil h0)
    rw [optimize, if_pos h0, ArgsLive, CountsFit, hnil h0, hnil hsize]
    refine iff_of_true ⟨by simp [Ssa], fun v hv => absurd hv List.not_mem_nil, fun x hx => ?_⟩
      fun v hv => absurd hv List.not_mem_nil
    have hm := (hterm x hx).1
    rw [hempty] at hm
    cases hm
  · rw [optimize_eq h0]
    exact hready.dropDead

theorem cleanAt_iff {s : WalkState} : CleanAt s v ↔
    ((deadStore s (loadNode s v)).isSome →
      deadStore s (loadNode s v) ≠ (s.block.get v).prev) ∧
    combines s (loadNode s v) = false ∧
    folds (visitOp (resetV s (loadNode s v).op) v (loadNode s v)).1
      (visitOp (resetV s (loadNode s v).op) v (loadNode s v)).2 = false :=
  ⟨fun h => ⟨h.store, h.combine, h.fold⟩, fun h => ⟨h.1, h.2.1, h.2.2⟩⟩

instance {s : WalkState} : Decidable (CleanAt s v) := decidable_of_iff' _ cleanAt_iff

instance decidableCleanWalk : ∀ (n : Nat) (s : WalkState) (v : ValueRef),
    Decidable (CleanWalk n s v)
  | 0, _, _ => .isTrue trivial
  | n + 1, s, v =>
    have := decidableCleanWalk n (step s v) (s.block.get v).next
    inferInstanceAs (Decidable (_ ∨ _))

instance : Decidable (CleanRun b) := decidableCleanWalk _ _ _

/-- `X2 := X1 + X1`, and `X1` is tested. -/
def testedSum : Block :=
  { (Block.new 0).pushAll [(Armlet.new .getX .u64).withImm 1,
      (Armlet.new .add64 .u64).withArgs [1, 1], ((Armlet.new .setX .void).withArgs [2]).withImm 2]
    with terminal := .compareBranchZero 1 false true 0x10 0x20 }

theorem argsLive_optimize_testedSum :
    ArgsLive (optimize testedSum) ↔ CountsFit (beforeDead testedSum) :=
  @argsLive_optimize_iff testedSum [1, 2, 3] ⟨((Linked.new 0).pushAll (by decide) _).ring, by decide⟩
    (by decide) (by decide) (by decide) (by decide)

/-- The live nodes, each with what it refers to. -/
def listing (b : Block) : List (ValueRef × List ValueRef) :=
  b.iterLive.map fun v => (v, argsOf (b.get v))

theorem not_argsLive_of_listing {k : List (ValueRef × List ValueRef)}
    (h : listing b = (v, [x]) :: k) : ¬ ArgsLive b := by
  intro hlive
  rw [listing] at h
  obtain ⟨w, l, hl, hw, -⟩ := List.map_eq_cons_iff.mp h
  obtain ⟨rfl, hargs⟩ := Prod.mk.inj hw
  obtain ⟨hx, hs⟩ := mem_argsOf.mp (hargs ▸ List.mem_singleton_self x)
  exact List.not_mem_nil (hlive.1 [] w l hl x hx hs)

/-- `V2 := V1` after 64 table lookups, each with `V1` as its four tables, whose results go
nowhere. -/
def manyUses : Block :=
  (Block.new 0).pushAll ([(Armlet.new .getV .u128).withImm 1] ++
    List.replicate 64 ((Armlet.new .vecTbl3 .u128).withArgs [1, 1, 1, 1]) ++
    [((Armlet.new .setV .void).withArgs [1]).withImm 2])

set_option maxRecDepth 100000 in
theorem listing_manyUses : listing (optimize manyUses) = [(66, [1])] := by
  decide +kernel

/-- The write stays and what it writes is dropped: the count stops at 255, and 256 references are
taken from it. -/
theorem manyUses_drops_used :
    listing (optimize manyUses) = [(66, [1])] ∧ ¬ ArgsLive (optimize manyUses) :=
  ⟨listing_manyUses, not_argsLive_of_listing listing_manyUses⟩

end Optimizer

end Rustarmic
