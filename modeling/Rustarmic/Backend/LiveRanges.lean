import Mathlib.Order.Bounds.Basic
import Rustarmic.Backend.Regalloc
import Rustarmic.Ir.Ssa

/-!
# Live ranges

The register allocator walks the live list once, and what it needs to know of a value is when its
register is free again.  `compute_live_ranges_with` numbers the nodes of the list and records for
every value the first and the last position at which it is alive.

* `Numbered` — positions identify nodes: the range of a live value starts at its index.
* `positionsOf` — where a value has to be live: where it is defined, where it is used, and at the
  tail if the terminal reads it.
* `computeLiveRangesWith_exact` — its range runs from the first of these to the last.

A range that is too short lets two values share a register, and one that is too long wastes one.  So
the theorem is about both ends, as the greatest lower and the least upper bound of `positionsOf`,
which is a set that refers to nothing the function computes.

* **The terminal** is no node.  What it reads is alive until the tail, which is the last position.
* **Arguments come first** (`Block.Ssa`).  Without it a use could be before the definition, and the
  range would begin there; it is what makes the first position the node's own.
* **Sizes.**  A range keeps a position and a length in sixteen bits, and extending it clips.  A
  block has fewer than `maxNodes` nodes, so that nothing is clipped.
-/

set_option autoImplicit false

namespace Rustarmic

/-! ## Positions -/

theorem numberFrom_of_notMem {v : ValueRef} {live : List ValueRef} (h : v ∉ live) (t : Nat)
    (acc : (Nat → Nat) × Ranges) : (numberFrom t live acc).2 v = acc.2 v := by
  induction live generalizing t acc with
  | nil => rfl
  | cons w live ih =>
    rw [List.mem_cons, not_or] at h
    rw [numberFrom, ih h.2]
    exact Function.update_of_ne h.1 ..

theorem numberFrom_getElem {live : List ValueRef} (hnodup : live.Nodup) {k : Nat} {v : ValueRef}
    (hk : live[k]? = some v) (t : Nat) (acc : (Nat → Nat) × Ranges) :
    (numberFrom t live acc).2 v = LiveRange.point (t + k) := by
  induction live generalizing t k acc with
  | nil => cases hk
  | cons w live ih =>
    obtain ⟨hw, hnodup⟩ := List.nodup_cons.mp hnodup
    rw [numberFrom]
    cases k with
    | zero =>
      obtain rfl : w = v := by simpa using hk
      rw [numberFrom_of_notMem hw]
      exact Function.update_self ..
    | succ k =>
      rw [ih hnodup (by simpa using hk), Nat.add_assoc, Nat.add_comm 1]

/-- The range of every value that has one starts at the value's index among the live nodes. -/
def Numbered (live : List ValueRef) (ranges : Ranges) : Prop :=
  ∀ v, (ranges v).isDead = false → live[(ranges v).first]? = some v

theorem Numbered.numberFrom {live : List ValueRef} (hnodup : live.Nodup)
    (hlen : live.length ≤ Block.maxNodes) (pos : Nat → Nat) :
    Numbered live (numberFrom 0 live (pos, fun _ => LiveRange.dead)).2 := by
  intro v hv
  by_cases hmem : v ∈ live
  · obtain ⟨k, hk, hget⟩ := List.getElem_of_mem hmem
    have hget' : live[k]? = some v := List.getElem?_eq_some_iff.mpr ⟨hk, hget⟩
    rw [numberFrom_getElem hnodup hget', LiveRange.first, LiveRange.point, BitVec.toNat_ofNat,
      Nat.mod_eq_of_lt (by rw [Block.maxNodes] at hlen; omega), Nat.zero_add]
    exact hget'
  · rw [numberFrom_of_notMem hmem] at hv
    cases hv

theorem Numbered.extendUse {live : List ValueRef} {ranges : Ranges} (h : Numbered live ranges)
    (n newEnd : Nat) (v : ValueRef) : Numbered live (extendUse n newEnd ranges v) := by
  rw [Rustarmic.extendUse]
  split
  · rename_i hcond
    intro w hw
    by_cases hwv : w = v
    · subst hwv
      rw [Function.update_self, LiveRange.extendTo]
      simp only [Bool.and_eq_true, Bool.not_eq_true'] at hcond
      split <;> exact h w hcond.1.2
    · rw [Function.update_of_ne hwv] at hw ⊢
      exact h w hw
  · exact h

theorem Numbered.foldl_extendUse {live : List ValueRef} (n newEnd : Nat) (uses : List ValueRef)
    {ranges : Ranges} (h : Numbered live ranges) :
    Numbered live (uses.foldl (Rustarmic.extendUse n newEnd) ranges) := by
  induction uses generalizing ranges with
  | nil => exact h
  | cons v uses ih => exact ih (h.extendUse n newEnd v)

/-- **Positions identify values.** -/
theorem numbered_computeLiveRangesWith {b : Block} {live : List ValueRef}
    (hwalk : b.Walk b.head live) (hsize : b.code.size ≤ Block.maxNodes)
    (terminalUses : List ValueRef) : Numbered live (computeLiveRangesWith b terminalUses) := by
  rw [computeLiveRangesWith]
  dsimp only
  rw [hwalk.iterLive_eq]
  generalize hnum : numberFrom 0 live (fun _ => 0, fun _ => LiveRange.dead) = acc
  obtain ⟨pos, ranges⟩ := acc
  dsimp only
  have hstart : Numbered live ranges := by
    have h := Numbered.numberFrom hwalk.nodup (hwalk.length_le.trans hsize) fun _ => 0
    rwa [hnum] at h
  have hall (l : List ValueRef) (r : Ranges) (hr : Numbered live r) : Numbered live
      (l.foldl (fun ranges v => (b.get v).args.toList.foldl
        (Rustarmic.extendUse b.code.size (pos v)) ranges) r) := by
    induction l generalizing r with
    | nil => exact hr
    | cons v l ih => exact ih _ (hr.foldl_extendUse _ _ _)
  exact hall live _ (hstart.foldl_extendUse _ _ _)

/-! ## Where a range ends -/

namespace LiveRange

variable {r : LiveRange} {newEnd : Nat}

/-- `contains` in the source. -/
def contains (r : LiveRange) (idx : Nat) : Bool := !r.isDead && r.first ≤ idx && idx ≤ r.last

theorem count_pos (h : r.isDead = false) : 0 < r.count.toNat := by
  rw [isDead, beq_eq_false_iff_ne] at h
  exact Nat.pos_of_ne_zero fun h0 => h (BitVec.eq_of_toNat_eq h0)

/-- Nothing is clipped below the largest length. -/
theorem extendTo_eq (h : r.isDead = false) (hlt : r.last < newEnd) (hmax : newEnd < 0xFFFF) :
    (r.extendTo newEnd).isDead = false ∧ (r.extendTo newEnd).first = r.first ∧
      (r.extendTo newEnd).last = newEnd := by
  have hpos := count_pos h
  rw [last] at hlt
  have hspan : r.count.toNat < newEnd - r.start.toNat + 1 := by omega
  rw [extendTo, if_pos hspan, Nat.min_eq_left (by omega)]
  have hcount : (BitVec.ofNat 16 (newEnd - r.start.toNat + 1)).toNat =
      newEnd - r.start.toNat + 1 := by
    rw [BitVec.toNat_ofNat, Nat.mod_eq_of_lt (by omega)]
  refine ⟨?_, rfl, ?_⟩
  · rw [isDead, beq_eq_false_iff_ne]
    intro h0
    have h0' := congrArg BitVec.toNat h0
    rw [hcount] at h0'
    cases h0'
  · change r.start.toNat + ((BitVec.ofNat 16 (newEnd - r.start.toNat + 1)).toNat - 1) = newEnd
    omega

end LiveRange

/-- The ranges of the nodes in `live` start at their indices and end at the last of `ends`; the
other nodes have none. -/
structure Ranged (live : List ValueRef) (ends : ValueRef → Set Nat) (ranges : Ranges) : Prop where
  isDead : ∀ v ∈ live, (ranges v).isDead = false
  first : ∀ k v, live[k]? = some v → (ranges v).first = k
  last : ∀ v ∈ live, IsGreatest (ends v) (ranges v).last
  dead : ∀ v ∉ live, ranges v = LiveRange.dead

namespace Ranged

variable {live : List ValueRef} {ends : ValueRef → Set Nat} {ranges : Ranges} {n newEnd : Nat}

/-- One more use. -/
theorem extendUse (h : Ranged live ends ranges) (hlive : ∀ v ∈ live, v.isSome ∧ v < n)
    (hmax : newEnd < 0xFFFF) (x : ValueRef) :
    Ranged live (fun v => {q | q ∈ ends v ∨ v = x ∧ q = newEnd})
      (extendUse n newEnd ranges x) := by
  have hother {v : ValueRef} (hv : v ∈ live) (hne : v ≠ x) {r : LiveRange}
      (hr : IsGreatest (ends v) r.last) : IsGreatest {q | q ∈ ends v ∨ v = x ∧ q = newEnd} r.last :=
    ⟨.inl hr.1, fun q hq => hr.2 (hq.resolve_right fun hx => hne hx.1)⟩
  rw [Rustarmic.extendUse]
  by_cases hx : x ∈ live
  swap
  · -- A node outside the list has no range to extend.
    rw [if_neg (by rw [h.dead x hx]; simp [LiveRange.isDead, LiveRange.dead])]
    exact ⟨h.isDead, h.first, fun v hv => hother hv (ne_of_mem_of_not_mem hv hx) (h.last v hv), h.dead⟩
  obtain ⟨hsome, hltn⟩ := hlive x hx
  have hdead := h.isDead x hx
  by_cases hlt : (ranges x).last < newEnd
  · rw [if_pos (by simp [hsome, hltn, hdead, hlt])]
    obtain ⟨hd, hf, hl⟩ := LiveRange.extendTo_eq hdead hlt hmax
    refine ⟨fun v hv => ?_, fun k v hk => ?_, fun v hv => ?_, fun v hv => ?_⟩
    · by_cases hvx : v = x
      · rwa [hvx, Function.update_self]
      · rw [Function.update_of_ne hvx]
        exact h.isDead v hv
    · by_cases hvx : v = x
      · subst hvx
        rw [Function.update_self, hf]
        exact h.first k v hk
      · rw [Function.update_of_ne hvx]
        exact h.first k v hk
    · by_cases hvx : v = x
      · subst hvx
        rw [Function.update_self, hl]
        refine ⟨.inr ⟨rfl, rfl⟩, fun q hq => ?_⟩
        rcases hq with hq | ⟨-, rfl⟩
        · exact ((h.last v hv).2 hq).trans hlt.le
        · exact le_rfl
      · rw [Function.update_of_ne hvx]
        exact hother hv hvx (h.last v hv)
    · rw [Function.update_of_ne (ne_of_mem_of_not_mem hx hv).symm]
      exact h.dead v hv
  · rw [if_neg (by simp [hlt])]
    refine ⟨h.isDead, h.first, fun v hv => ⟨.inl (h.last v hv).1, fun q hq => ?_⟩, h.dead⟩
    rcases hq with hq | ⟨rfl, rfl⟩
    · exact (h.last v hv).2 hq
    · exact not_lt.mp hlt

theorem congr {ends' : ValueRef → Set Nat} (h : Ranged live ends ranges)
    (heq : ∀ v ∈ live, ends v = ends' v) : Ranged live ends' ranges :=
  ⟨h.isDead, h.first, fun v hv => heq v hv ▸ h.last v hv, h.dead⟩

/-- The uses of one node, or of the terminal. -/
theorem foldl_extendUse (h : Ranged live ends ranges) (hlive : ∀ v ∈ live, v.isSome ∧ v < n)
    (hmax : newEnd < 0xFFFF) (uses : List ValueRef) :
    Ranged live (fun v => {q | q ∈ ends v ∨ v ∈ uses ∧ q = newEnd})
      (uses.foldl (Rustarmic.extendUse n newEnd) ranges) := by
  induction uses generalizing ends ranges with
  | nil => exact h.congr fun v _ => by simp
  | cons x uses ih =>
    refine (ih (h.extendUse hlive hmax x)).congr fun v _ => ?_
    ext q
    simp only [Set.mem_ofPred_eq, List.mem_cons, or_and_right, or_assoc]

/-- The uses of the nodes in `users`, each at its position. -/
theorem foldl_users (h : Ranged live ends ranges) (hlive : ∀ v ∈ live, v.isSome ∧ v < n)
    (args : ValueRef → List ValueRef) (pos : ValueRef → Nat) (users : List ValueRef)
    (hmax : ∀ u ∈ users, pos u < 0xFFFF) :
    Ranged live (fun v => {q | q ∈ ends v ∨ ∃ u ∈ users, v ∈ args u ∧ q = pos u})
      (users.foldl (fun ranges u => (args u).foldl (Rustarmic.extendUse n (pos u)) ranges)
        ranges) := by
  induction users generalizing ends ranges with
  | nil => exact h.congr fun v _ => by simp
  | cons u users ih =>
    obtain ⟨hu, hmax⟩ := List.forall_mem_cons.mp hmax
    refine (ih (h.foldl_extendUse hlive hu (args u)) hmax).congr fun v _ => ?_
    ext q
    simp only [Set.mem_ofPred_eq, List.mem_cons, or_and_right, exists_or, exists_eq_left, or_assoc]

end Ranged

/-! ## The positions of a block -/

theorem numberFrom_pos_of_notMem {v : ValueRef} {live : List ValueRef} (h : v ∉ live) (t : Nat)
    (acc : (Nat → Nat) × Ranges) : (numberFrom t live acc).1 v = acc.1 v := by
  induction live generalizing t acc with
  | nil => rfl
  | cons w live ih =>
    rw [List.mem_cons, not_or] at h
    rw [numberFrom, ih h.2]
    exact Function.update_of_ne h.1 ..

theorem numberFrom_pos {live : List ValueRef} (hnodup : live.Nodup) {k : Nat} {v : ValueRef}
    (hk : live[k]? = some v) (t : Nat) (acc : (Nat → Nat) × Ranges) :
    (numberFrom t live acc).1 v = t + k := by
  induction live generalizing t k acc with
  | nil => cases hk
  | cons w live ih =>
    obtain ⟨hw, hnodup⟩ := List.nodup_cons.mp hnodup
    rw [numberFrom]
    cases k with
    | zero =>
      obtain rfl : w = v := by simpa using hk
      rw [numberFrom_pos_of_notMem hw]
      exact Function.update_self ..
    | succ k =>
      rw [ih hnodup (by simpa using hk), Nat.add_assoc, Nat.add_comm 1]

/-- The fresh ranges: every node at its own position. -/
theorem ranged_numberFrom {live : List ValueRef} (hnodup : live.Nodup) (hlen : live.length ≤ 0xFFFF)
    (pos : Nat → Nat) :
    Ranged live (fun v => {q | live[q]? = some v})
      (numberFrom 0 live (pos, fun _ => LiveRange.dead)).2 := by
  have hget {k : Nat} {v : ValueRef} (hk : live[k]? = some v) :
      (numberFrom 0 live (pos, fun _ => LiveRange.dead)).2 v = LiveRange.point k ∧
        (LiveRange.point k).first = k := by
    have hlt : k < live.length := (List.getElem?_eq_some_iff.mp hk).1
    rw [numberFrom_getElem hnodup hk, Nat.zero_add, LiveRange.first, LiveRange.point,
      BitVec.toNat_ofNat, Nat.mod_eq_of_lt (by omega)]
    exact ⟨rfl, rfl⟩
  refine ⟨fun v hv => ?_, fun k v hk => ?_, fun v hv => ?_, fun v hv => ?_⟩
  · obtain ⟨k, hk⟩ := List.mem_iff_getElem?.mp hv
    rw [(hget hk).1]
    rfl
  · rw [(hget hk).1, (hget hk).2]
  · obtain ⟨k, hk⟩ := List.mem_iff_getElem?.mp hv
    have hlast : (LiveRange.point k).last = k := (hget hk).2
    rw [(hget hk).1, hlast]
    refine ⟨hk, fun q hq => ?_⟩
    have hlt : k < live.length := (List.getElem?_eq_some_iff.mp hk).1
    exact ((List.getElem?_inj hlt hnodup).mp (hk.trans (Eq.symm hq))).ge
  · rw [numberFrom_of_notMem hv]

/-- The positions at which `v` has to be live: its own, those of the nodes that use it, and the last
one if the terminal reads it. -/
def positionsOf (b : Block) (live terminalUses : List ValueRef) (v : ValueRef) : Set Nat :=
  {q | live[q]? = some v ∨ (∃ u, live[q]? = some u ∧ v ∈ (b.get u).args.toList) ∨
    q = live.length - 1 ∧ v ∈ b.terminal.uses ++ terminalUses}

theorem length_le_of_walk {b : Block} {live : List ValueRef} (hwalk : b.Walk b.head live)
    (hsize : b.code.size < Block.maxNodes) : live.length ≤ 0xFFFF :=
  hwalk.length_le.trans (Nat.le_of_lt_succ hsize)

/-- The position of the tail is the last one. -/
theorem tail_position {b : Block} {live : List ValueRef} {tail : ValueRef}
    (htail : b.tail = live.getLastD linkNone) (h : b.tailVr = some tail) :
    live[live.length - 1]? = some tail := by
  rw [Block.tailVr, htail] at h
  obtain ⟨hne, h⟩ := Option.ite_none_right_eq_some.mp h
  cases live using List.reverseRecOn with
  | nil => exact absurd rfl hne
  | append_singleton l v =>
    rw [List.getLastD_concat] at h
    rw [← h]
    simp

theorem nil_of_no_tail {b : Block} {live : List ValueRef} (hne : ∀ v ∈ live, v ≠ linkNone)
    (htail : b.tail = live.getLastD linkNone) (h : b.tailVr = none) : live = [] := by
  rw [Block.tailVr, htail] at h
  cases live using List.reverseRecOn with
  | nil => rfl
  | append_singleton l v =>
    rw [List.getLastD_concat, if_pos (hne v (by simp))] at h
    cases h

theorem ranged_computeLiveRangesWith {b : Block} {live : List ValueRef}
    (hwalk : b.Walk b.head live) (htail : b.tail = live.getLastD linkNone)
    (hsize : b.code.size < Block.maxNodes) (terminalUses : List ValueRef) :
    Ranged live (positionsOf b live terminalUses) (computeLiveRangesWith b terminalUses) := by
  have hlen := length_le_of_walk hwalk hsize
  have hbounds (v : ValueRef) (hv : v ∈ live) : v ≠ linkNone ∧ v < b.code.size :=
    hwalk.mem_bounds hv
  have hlive : ∀ v ∈ live, v.isSome ∧ v < b.code.size := fun v hv =>
    ⟨bne_iff_ne.mpr (hbounds v hv).1, (hbounds v hv).2⟩
  rw [computeLiveRangesWith]
  dsimp only
  rw [hwalk.iterLive_eq]
  have hstart := ranged_numberFrom hwalk.nodup hlen fun _ => 0
  have hpos (k : Nat) (v : ValueRef) (hk : live[k]? = some v) :
      (numberFrom 0 live (fun _ => 0, fun _ => LiveRange.dead)).1 v = k := by
    rw [numberFrom_pos hwalk.nodup hk, Nat.zero_add]
  generalize numberFrom 0 live (fun _ => 0, fun _ => LiveRange.dead) = acc at hstart hpos ⊢
  obtain ⟨pos, ranges⟩ := acc
  dsimp only at hstart hpos ⊢
  have hmax (u : ValueRef) (hu : u ∈ live) : pos u < 0xFFFF := by
    obtain ⟨k, hk⟩ := List.mem_iff_getElem?.mp hu
    have hlt : k < live.length := (List.getElem?_eq_some_iff.mp hk).1
    rw [hpos k u hk]
    omega
  have hall (lastLive : Nat) (hlast : lastLive = live.length - 1) :
      Ranged live (positionsOf b live terminalUses) (live.foldl
        (fun ranges v => (b.get v).args.toList.foldl (extendUse b.code.size (pos v)) ranges)
        ((b.terminal.uses ++ terminalUses).foldl (extendUse b.code.size lastLive) ranges)) := by
    refine ((hstart.foldl_extendUse hlive (by omega) _).foldl_users hlive
      (fun u => (b.get u).args.toList) pos live hmax).congr fun v _ => ?_
    ext q
    simp only [positionsOf, Set.mem_ofPred_eq]
    constructor
    · rintro ((hq | ⟨hv, hq⟩) | ⟨u, hu, hv, rfl⟩)
      · exact .inl hq
      · exact .inr (.inr ⟨hq.trans hlast, hv⟩)
      · obtain ⟨k, hk⟩ := List.mem_iff_getElem?.mp hu
        exact .inr (.inl ⟨u, by rw [hpos k u hk, hk], hv⟩)
    · rintro (hq | ⟨u, hu, hv⟩ | ⟨hq, hv⟩)
      · exact .inl (.inl hq)
      · exact .inr ⟨u, List.mem_of_getElem? hu, hv, (hpos q u hu).symm⟩
      · exact .inl (.inr ⟨hv, hq.trans hlast.symm⟩)
  cases htv : b.tailVr with
  | some tail => exact hall (pos tail) (hpos _ _ (tail_position htail htv))
  | none =>
    refine hall 0 ?_
    rw [nil_of_no_tail (fun v hv => (hbounds v hv).1) htail htv]
    rfl

/-- A node is live where it is defined and nowhere before. -/
theorem le_of_mem_positionsOf {b : Block} {live terminalUses : List ValueRef} (hnodup : live.Nodup)
    (hsome : ∀ v ∈ live, v.isSome) (hssa : b.Ssa live) {p q : Nat} {v : ValueRef}
    (hp : live[p]? = some v) (hq : q ∈ positionsOf b live terminalUses v) : p ≤ q := by
  have hlt : p < live.length := (List.getElem?_eq_some_iff.mp hp).1
  rcases hq with hq | ⟨u, hu, hv⟩ | ⟨hq, -⟩
  · exact ((List.getElem?_inj hlt hnodup).mp (hp.trans hq.symm)).le
  · obtain ⟨hlt', rfl⟩ := List.getElem?_eq_some_iff.mp hu
    have hmem := Block.ssa_iff.mp hssa ⟨q, hlt'⟩ v hv (hsome v (List.mem_of_getElem? hp))
    obtain ⟨k, hk, hget⟩ := List.getElem_of_mem hmem
    rw [List.length_take] at hk
    have hkv : live[k]? = some v := by
      rw [List.getElem_take] at hget
      exact List.getElem?_eq_some_iff.mpr ⟨by omega, hget⟩
    obtain rfl := (List.getElem?_inj hlt hnodup).mp (hp.trans hkv.symm)
    simp only at hk
    omega
  · omega

/-- **Live ranges are exact.**  In a live list in which arguments come first, with fewer than 65536
nodes, the range of a live node starts at the index of the node, contains every position at which
the node has to be live and ends at the last of them; a node outside the list has no range. -/
theorem computeLiveRangesWith_exact {b : Block} {live : List ValueRef}
    (hwalk : b.Walk b.head live) (htail : b.tail = live.getLastD linkNone) (hssa : b.Ssa live)
    (hsize : b.code.size < Block.maxNodes) (terminalUses : List ValueRef) :
    (∀ p v, live[p]? = some v →
      (computeLiveRangesWith b terminalUses v).first = p ∧
      (∀ q ∈ positionsOf b live terminalUses v,
        (computeLiveRangesWith b terminalUses v).contains q) ∧
      IsGreatest (positionsOf b live terminalUses v)
        (computeLiveRangesWith b terminalUses v).last) ∧
    ∀ v ∉ live, computeLiveRangesWith b terminalUses v = LiveRange.dead := by
  have h := ranged_computeLiveRangesWith hwalk htail hsize terminalUses
  refine ⟨fun p v hp => ?_, h.dead⟩
  have hv : v ∈ live := List.mem_of_getElem? hp
  refine ⟨h.first p v hp, fun q hq => ?_, h.last v hv⟩
  have hle := le_of_mem_positionsOf hwalk.nodup
    (fun v hv => bne_iff_ne.mpr (hwalk.mem_bounds hv).1) hssa hp hq
  simp only [LiveRange.contains, h.isDead v hv, h.first p v hp, hle, (h.last v hv).2 hq, decide_true,
    Bool.not_false, Bool.and_self]

/-- `X0 := X1 + X1`, with the sum read again by the terminal. -/
def doubleBlock : Block := (Block.new 0x1000).pushAll
  [(Armlet.new .getX .u64).withImm 1, (Armlet.new .add64 .u64).withArgs [1, 1],
    (Armlet.new .setX .void).withArgs [2]]

theorem computeLiveRangesWith_exact_doubleBlock :
    (computeLiveRangesWith doubleBlock [2] 1).last = 1 ∧
      IsGreatest (positionsOf doubleBlock [1, 2, 3] [2] 2)
        (computeLiveRangesWith doubleBlock [2] 2).last ∧
      computeLiveRangesWith doubleBlock [2] 0 = LiveRange.dead := by
  have hlinked : doubleBlock.Linked [1, 2, 3] := (Block.Linked.new 0x1000).pushAll (by decide) _
  obtain ⟨hlive, hdead⟩ := computeLiveRangesWith_exact hlinked.walk (by decide) (by decide)
    (by decide) [2]
  exact ⟨by decide, (hlive 1 2 rfl).2.2, hdead 0 (by decide)⟩

end Rustarmic
