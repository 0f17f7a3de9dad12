import Rustarmic.Backend.AllocSafety
import Rustarmic.Backend.VectorShift

/-!
# Vector operations and their registers

What linear scan promises to the lowerings of vector operations: a vector is in a register of the
pool or in a slot, and never where a value is that is still needed when it is made.  So the operands
of a comparison are apart from its result, but the result can be in a register that the comparison
of 64-bit lanes restores.

* `VectorInv` — the invariant of the scan, next to `ScanInv`.
* `vectorAt_linearScan`, `ne_operand_linearScan` — what a lowering is told.
* `compare64_exact_iff` — for which registers the 64-bit comparisons are exact.
-/

set_option autoImplicit false

namespace Rustarmic

open LinearScan VectorCode

/-- The node `i` makes a vector. -/
def IsVector (b : Block) (i : Nat) : Prop :=
  (b.get i).ty = .u128 ∧ (b.get i).op ≠ .constU32 ∧ (b.get i).op ≠ .constU64

instance (b : Block) (i : Nat) : Decidable (IsVector b i) := inferInstanceAs (Decidable (_ ∧ _))

/-! ## The scan -/

theorem interiorMask_nil (r : LiveRange) : interiorMask [] r = 0 := by
  have hfold (l : List Nat) : l.foldl (fun mask i => mask ||| ([] : List U16).getD i 0) 0 = 0 := by
    induction l with
    | nil => rfl
    | cons i l ih =>
      rw [List.foldl_cons, List.getD_nil, BitVec.or_self]
      exact ih
  rw [interiorMask]
  split
  · rfl
  · exact hfold _

/-- Without clobber tables no register is clobbered. -/
theorem covers_nil (inp : ScanInput) : inp.Covers [] := by
  intro r x h
  rw [interiorMask_nil] at h
  simp at h

theorem not_inheritsClobbered_nil (inp : ScanInput) (s : Scan) (i : Nat) :
    ¬ InheritsClobbered (inp.withXmmMasks []) s i := by
  rintro ⟨-, -, src, x, -, -, h⟩
  rw [ScanInput.withXmmMasks, interiorMask_nil] at h
  simp at h

/-- Vectors are in registers of the pool or in slots, and share nothing with a value that starts
before them and reaches them. -/
structure VectorInv (inp : ScanInput) (s : Scan) : Prop where
  free_pool : ∀ x, s.xmmFree.getLsbD x = true → x ∈ spillXmms
  pool : ∀ i x, s.locs i = .xmm x → x ∈ spillXmms
  placed : ∀ i, IsVector inp.block i → s.locs i ≠ .none → ∃ p, placeOf (s.locs i) = some p
  apart : ∀ i j, IsVector inp.block i → (inp.ranges j).first < (inp.ranges i).first →
    (inp.ranges i).first ≤ (inp.ranges j).last →
    ¬ (s.locs j).Shares (inp.block.get j).ty (s.locs i) (inp.block.get i).ty

namespace VectorInv

variable {inp : ScanInput} {pool : List Nat} {s s' : Scan} {lim i : Nat}

theorem start (pool : List Nat) : VectorInv inp (scanStart pool) where
  free_pool x hx := by
    have hlt : x < 16 := BitVec.lt_of_getLsbD hx
    have hall : ∀ x < 16, spillMask.getLsbD x = true → x ∈ spillXmms := by decide
    exact hall x hlt hx
  pool := by simp [scanStart]
  placed i _ h := absurd rfl h
  apart := by rintro i j - - - ⟨⟩

theorem expire (h : VectorInv inp s) (hs : ScanInv (inp.withXmmMasks []) pool s lim)
    (start : Nat) : VectorInv inp (s.expire start) where
  free_pool x hx := by
    rcases foldl_regBit_getLsbD _ _ _ hx with hx | ⟨a, ha, rfl⟩
    · exact h.free_pool x hx
    · exact h.pool _ _ (hs.xmms.entry a (List.mem_of_mem_filter ha)).1
  pool := h.pool
  placed := h.placed
  apart := h.apart

/-- The value `i` gets the location `loc`: what has to be shown. -/
theorem place_at (h : VectorInv inp s) (hs : ScanInv (inp.withXmmMasks []) pool s lim)
    (hi : (inp.ranges i).first = lim) {loc : Loc} (hlocs : s'.locs = Function.update s.locs i loc)
    (hfree : ∀ x, s'.xmmFree.getLsbD x = true → s.xmmFree.getLsbD x = true)
    (hpool : ∀ x, loc = .xmm x → x ∈ spillXmms)
    (hvector : IsVector inp.block i → (∃ p, placeOf loc = some p) ∧ ∀ j,
      (inp.ranges j).first < lim → lim ≤ (inp.ranges j).last →
        ¬ (s.locs j).Shares (inp.block.get j).ty loc (inp.block.get i).ty) : VectorInv inp s' where
  free_pool x hx := h.free_pool x (hfree x hx)
  pool j x hj := by
    rw [hlocs] at hj
    by_cases hji : j = i
    · rw [hji, Function.update_self] at hj
      exact hpool x hj
    · rw [Function.update_of_ne hji] at hj
      exact h.pool j x hj
  placed j hj hne := by
    rw [hlocs] at hne ⊢
    by_cases hji : j = i
    · rw [hji, Function.update_self]
      exact (hvector (hji ▸ hj)).1
    · rw [Function.update_of_ne hji] at hne ⊢
      exact h.placed j hj hne
  apart k j hk hlt hle := by
    rw [hlocs]
    by_cases hki : k = i
    · subst hki
      have hjk : j ≠ k := by
        rintro rfl
        exact Nat.lt_irrefl _ hlt
      rw [Function.update_self, Function.update_of_ne hjk]
      exact (hvector hk).2 j (hi ▸ hlt) (hi ▸ hle)
    · rw [Function.update_of_ne hki]
      by_cases hji : j = i
      · -- What is placed before `i` does not start after it.
        intro hshares
        have hbefore : (inp.ranges k).first < lim := hs.first_lt k hshares.ne_none
        rw [hji, hi] at hlt
        omega
      · rw [Function.update_of_ne hji]
        exact h.apart k j hk hlt hle

theorem takeSpill (h : VectorInv inp s) (hs : ScanInv (inp.withXmmMasks []) pool s lim)
    (hi : (inp.ranges i).first = lim) (last : Nat) (safe : XmmMask) {slot : Nat → Nat}
    (hslot : ∀ c, c + slotSize (inp.block.get i).ty ≤ slot c) :
    VectorInv inp (s.takeSpill i last safe slot) := by
  rw [Scan.takeSpill]
  split
  · rename_i x hx
    have hbits := lowestBit_eq_some hx
    rw [BitVec.getLsbD_and, Bool.and_eq_true] at hbits
    refine h.place_at hs hi rfl (fun y hy => ?_) ?_ fun _ => ⟨⟨_, rfl⟩, fun j hlt hle hshares => ?_⟩
    · rw [Scan.takeXmm, BitVec.getLsbD_and, Bool.and_eq_true] at hy
      exact hy.1
    · rintro y hy
      cases hy
      exact h.free_pool x hbits.1
    · generalize hj : s.locs j = loc at hshares
      cases hshares
      have hpast : (inp.ranges j).last < lim := hs.xmms.past hj hbits.1
      omega
  · refine h.place_at hs hi rfl (fun _ => id) (by rintro _ ⟨⟩)
      fun _ => ⟨⟨_, rfl⟩, fun j _ _ hshares => ?_⟩
    generalize hj : s.locs j = loc at hshares
    cases hshares with
    | spill h1 h2 h3 h4 =>
      have hle := hs.spill_le j _ hj
      have hroom := hslot s.spillCursor
      omega

theorem place (h : VectorInv inp s) (hs : ScanInv (inp.withXmmMasks []) pool s lim)
    (hi : (inp.ranges i).first = lim) (hty : (inp.block.get i).ty ≠ .u128) :
    VectorInv inp (s.place inp i) := by
  rw [Scan.place]
  dsimp only
  split
  · exact h.place_at hs hi rfl (fun _ => id) (by rintro _ ⟨⟩) fun hv => absurd hv.1 hty
  · refine h.takeSpill hs hi _ _ fun c => ?_
    rw [allocSpillSlot, slotSize, if_neg hty]
    omega

theorem inherit (h : VectorInv inp s) (hs : ScanInv (inp.withXmmMasks []) pool s lim)
    (hi : (inp.ranges i).first = lim) (hty : (inp.block.get i).ty ≠ .u128)
    (hinherit : s.inherit inp i = some s') : VectorInv inp s' := by
  rw [Scan.inherit] at hinherit
  split at hinherit
  · cases hinherit
  rename_i src hsrc
  split at hinherit
  · cases hinherit
    exact h.place_at hs hi rfl (fun _ => id) (by rintro _ ⟨⟩) fun hv => absurd hv.1 hty
  · rename_i x hx
    split_ifs at hinherit
    cases hinherit
    refine h.place_at hs hi rfl (fun _ => id) ?_ fun hv => absurd hv.1 hty
    rintro y hy
    cases hy
    exact h.pool src x hx
  · rename_i hxmm
    split_ifs at hinherit
    cases hinherit
    exact h.place_at hs hi rfl (fun _ => id) (fun x hx => absurd hx (hxmm x))
      fun hv => absurd hv.1 hty

/-- **A step of the scan.** -/
theorem step (h : VectorInv inp s) (hs : ScanInv (inp.withXmmMasks []) pool s lim)
    (hle : lim ≤ (inp.ranges i).first) : VectorInv inp (s.step inp i) := by
  have hs' := hs.expire hle
  have h' := h.expire hs (inp.ranges i).first
  rw [Scan.step, Scan.assign]
  split
  · rename_i hop
    exact h'.place_at hs' rfl rfl (fun _ => id) (by rintro _ ⟨⟩) fun hv => absurd hop hv.2.1
  · rename_i hop
    exact h'.place_at hs' rfl rfl (fun _ => id) (by rintro _ ⟨⟩) fun hv => absurd hop hv.2.2
  · split
    · rename_i hty
      refine h'.takeSpill hs' rfl _ _ fun c => ?_
      rw [allocSpillSlot16, slotSize, if_pos hty]
      omega
    · rename_i hty
      cases hinherit : (s.expire (inp.ranges i).first).inherit inp i with
      | none => exact h'.place hs' rfl hty
      | some s' => exact h'.inherit hs' rfl hty hinherit

/-- **A whole scan.** -/
theorem run {is : List Nat} (h : VectorInv inp s) (hs : ScanInv (inp.withXmmMasks []) pool s lim)
    (hsorted : is.Pairwise fun i j => (inp.ranges i).first < (inp.ranges j).first)
    (hlim : ∀ i ∈ is, lim ≤ (inp.ranges i).first) : VectorInv inp (is.foldl (Scan.step inp) s) := by
  induction is generalizing s lim with
  | nil => exact h
  | cons i is ih =>
    obtain ⟨hfirst, hsorted⟩ := List.pairwise_cons.mp hsorted
    exact ih (h.step hs (hlim i (.head _)))
      (hs.step_of_covers [] (covers_nil inp) (hlim i (.head _)) (not_inheritsClobbered_nil inp s i))
      hsorted hfirst

end VectorInv

/-! ## What the lowerings are told -/

section linearScan

variable {features : HostFeatures} {b : Block} {live : List ValueRef}
  {terminalUses : List ValueRef}

/-- The locations of the values of a block. -/
def locsOf (features : HostFeatures) (b : Block) (terminalUses : List ValueRef) : Nat → Loc :=
  (linearScan features b (computeLiveRangesWith b terminalUses) allocatableGprs).locs

theorem vectorInv_linearScan (hwalk : b.Walk b.head live) (hsize : b.code.size ≤ Block.maxNodes) :
    VectorInv (scanInput features b (computeLiveRangesWith b terminalUses))
      ((intervals b (computeLiveRangesWith b terminalUses)).foldl
        (Scan.step (scanInput features b (computeLiveRangesWith b terminalUses)))
        (scanStart allocatableGprs)) :=
  (VectorInv.start allocatableGprs).run (ScanInv.start (by decide))
    (intervals_pairwise (numbered_computeLiveRangesWith hwalk hsize terminalUses))
    fun _ _ => Nat.zero_le _

/-- A vector that is live has a location. -/
theorem locs_ne_none {inp : ScanInput} {is : List Nat} {i : Nat} (hi : i ∈ is) (hnodup : is.Nodup)
    (hv : IsVector inp.block i) (s : Scan) : (is.foldl (Scan.step inp) s).locs i ≠ .none := by
  induction is generalizing s with
  | nil => cases hi
  | cons j is ih =>
    obtain ⟨hj, hnodup⟩ := List.nodup_cons.mp hnodup
    rw [List.foldl_cons]
    rcases List.mem_cons.mp hi with rfl | hi
    · rw [foldl_step_locs hj, Scan.step, Scan.assign]
      split
      · rename_i hop
        exact absurd hop hv.2.1
      · rename_i hop
        exact absurd hop hv.2.2
      · rw [if_pos hv.1, Scan.takeSpill]
        split
        · simp [Scan.takeXmm, Scan.setLoc]
        · simp [Scan.takeSlot, Scan.setLoc]
    · exact ih hi hnodup _

/-- **A vector is in a register of the pool or in a slot.** -/
theorem vectorAt_linearScan (hwalk : b.Walk b.head live) (htail : b.tail = live.getLastD linkNone)
    (hsize : b.code.size < Block.maxNodes) {i : Nat} (hi : i ∈ live) (hv : IsVector b i) :
    ∃ p, VectorAt (locsOf features b terminalUses i) p := by
  have hinv := @vectorInv_linearScan features b live terminalUses hwalk hsize.le
  have hranged := ranged_computeLiveRangesWith hwalk htail hsize terminalUses
  have hperm := intervals_perm b (computeLiveRangesWith b terminalUses)
  have hmem : i ∈ intervals b (computeLiveRangesWith b terminalUses) := by
    refine hperm.mem_iff.mpr (List.mem_filter.mpr ⟨List.mem_range.mpr (hwalk.mem_bounds hi).2, ?_⟩)
    rw [hranged.isDead i hi, hv.1]
    rfl
  have hne := @locs_ne_none (scanInput features b (computeLiveRangesWith b terminalUses)) _ i hmem
    (hperm.nodup_iff.mpr (List.nodup_range.sublist List.filter_sublist)) hv
    (scanStart allocatableGprs)
  obtain ⟨p, hp⟩ := hinv.placed i hv hne
  refine ⟨p, hp, fun r hr => hinv.pool i r ?_⟩
  rcases placeOf_cases hp with ⟨x, hx, rfl⟩ | ⟨off, -, rfl⟩
  · cases hr
    exact hx
  · cases hr

theorem place_ne_of_not_shares {l l' : Loc} {ty ty' : Ty} (h : ¬ l.Shares ty l' ty') {p q : Place}
    (hp : placeOf l = some p) (hq : placeOf l' = some q) : p ≠ q := by
  rintro rfl
  refine h ?_
  rcases placeOf_cases hp with ⟨x, rfl, rfl⟩ | ⟨off, rfl, rfl⟩
  · rcases placeOf_cases hq with ⟨y, rfl, heq⟩ | ⟨off, -, heq⟩
    · cases heq
      exact .xmm
    · cases heq
  · rcases placeOf_cases hq with ⟨y, -, heq⟩ | ⟨off', rfl, heq⟩
    · cases heq
    · cases heq
      have hsize (ty : Ty) : 0 < slotSize ty := by
        rw [slotSize]
        split <;> decide
      exact .spill (Nat.lt_add_of_pos_right (hsize _)) le_rfl (Nat.lt_add_of_pos_right (hsize _))
        le_rfl

/-- **An operand is apart from the vector it is used for.** -/
theorem ne_operand_linearScan (hwalk : b.Walk b.head live)
    (htail : b.tail = live.getLastD linkNone) (hssa : b.Ssa live)
    (hsize : b.code.size < Block.maxNodes) {i : Nat} (hi : i ∈ live) (hv : IsVector b i)
    {k : Fin 4} (harg : ((b.get i).args.get k).isSome) {p q : Place}
    (hp : placeOf (locsOf features b terminalUses ((b.get i).args.get k)) = some p)
    (hq : placeOf (locsOf features b terminalUses i) = some q) : p ≠ q := by
  have hinv := @vectorInv_linearScan features b live terminalUses hwalk hsize.le
  have hranged := ranged_computeLiveRangesWith hwalk htail hsize terminalUses
  obtain ⟨l₁, l₂, hlive⟩ := List.append_of_mem hi
  subst hlive
  obtain ⟨m₁, m₂, hsplit, hlt⟩ := hssa.split_at_arg k harg
  have hget : (l₁ ++ i :: l₂)[l₁.length]? = some i := by simp
  have hget' : (l₁ ++ i :: l₂)[m₁.length]? = some ((b.get i).args.get k) := by
    rw [hsplit]
    simp
  have hfirst := hranged.first _ _ hget
  have hfirst' := hranged.first _ _ hget'
  have hreach := (hranged.last _ (List.mem_of_getElem? hget')).2 (.inr (.inl ⟨i, hget,
    Vector.mem_toList_iff.mpr (Vector.getElem_mem k.isLt)⟩))
  have hapart := hinv.apart i ((b.get i).args.get k) hv
    (hfirst'.trans_lt (hlt.trans_eq hfirst.symm)) (hfirst.trans_le hreach)
  exact place_ne_of_not_shares hapart hp hq

/-- **Different operands of a node are apart from each other.** -/
theorem ne_operands_linearScan (hwalk : b.Walk b.head live)
    (htail : b.tail = live.getLastD linkNone) (hssa : b.Ssa live)
    (hsize : b.code.size < Block.maxNodes) {i : Nat} (hi : i ∈ live) {k k' : Fin 4}
    (harg : ((b.get i).args.get k).isSome) (harg' : ((b.get i).args.get k').isSome)
    (hv : IsVector b ((b.get i).args.get k)) (hv' : IsVector b ((b.get i).args.get k'))
    (hne : (b.get i).args.get k ≠ (b.get i).args.get k') {p q : Place}
    (hp : placeOf (locsOf features b terminalUses ((b.get i).args.get k)) = some p)
    (hq : placeOf (locsOf features b terminalUses ((b.get i).args.get k')) = some q) : p ≠ q := by
  have hinv := @vectorInv_linearScan features b live terminalUses hwalk hsize.le
  have hranged := ranged_computeLiveRangesWith hwalk htail hsize terminalUses
  obtain ⟨l₁, l₂, hlive⟩ := List.append_of_mem hi
  subst hlive
  -- Both are defined before the node and last until it.
  have hdefined (k : Fin 4) (harg : ((b.get i).args.get k).isSome) : ∃ m : Nat, m < l₁.length ∧
      (l₁ ++ i :: l₂)[m]? = some ((b.get i).args.get k) := by
    obtain ⟨m₁, m₂, hsplit, hlt⟩ := hssa.split_at_arg k harg
    refine ⟨m₁.length, hlt, ?_⟩
    rw [hsplit]
    simp
  obtain ⟨m, hm, hget⟩ := hdefined k harg
  obtain ⟨m', hm', hget'⟩ := hdefined k' harg'
  have hnode : (l₁ ++ i :: l₂)[l₁.length]? = some i := by simp
  have hlast := (hranged.last _ (List.mem_of_getElem? hget)).2 (.inr (.inl ⟨i, hnode,
    Vector.mem_toList_iff.mpr (Vector.getElem_mem k.isLt)⟩))
  have hlast' := (hranged.last _ (List.mem_of_getElem? hget')).2 (.inr (.inl ⟨i, hnode,
    Vector.mem_toList_iff.mpr (Vector.getElem_mem k'.isLt)⟩))
  have hfirst := hranged.first _ _ hget
  have hfirst' := hranged.first _ _ hget'
  rcases Nat.lt_trichotomy m m' with hlt | heq | hlt
  · exact place_ne_of_not_shares (hinv.apart _ _ hv' (hfirst.trans_lt (hlt.trans_eq hfirst'.symm))
      ((hfirst'.trans_lt hm').le.trans hlast)) hp hq
  · subst heq
    exact absurd (Option.some.inj (hget.symm.trans hget')) hne
  · exact (place_ne_of_not_shares (hinv.apart _ _ hv (hfirst'.trans_lt (hlt.trans_eq hfirst.symm))
      ((hfirst.trans_lt hm).le.trans hlast')) hq hp).symm

end linearScan

/-! ## The result -/

/-- The registers the callers pass: scratch registers and those of the pool. -/
def callerXmms : List Nat := [0, 1, 2, 3] ++ spillXmms

/-- The comparison by halves leaves all ones in every lane of `dst` that is greater than that of
`src`, zeros in the others, and every other register as it was. -/
def PcmpgtqExact (dst src : Nat) (m : Contents) : Prop :=
  (∀ k < 2, Lanes.lane 64 (run (emitPcmpgtqSse41 dst src) m (.xmm dst)) k =
    if (Lanes.lane 64 (m (.xmm src)) k).toInt < (Lanes.lane 64 (m (.xmm dst)) k).toInt then
      BitVec.allOnes 64 else 0) ∧
    ∀ r, r ≠ dst → run (emitPcmpgtqSse41 dst src) m (.xmm r) = m (.xmm r)

/-- The code for the comparison `i` leaves the comparison of its operands in its place. -/
def CompareExact (locs : Nat → Loc) (b : Block) (i : Nat) : Prop :=
  ∃ code pa pb p, VectorCode.emitCompare locs (b.get i) i = some code ∧
    placeOf (locs ((b.get i).args.get 0)) = some pa ∧
    placeOf (locs ((b.get i).args.get 1)) = some pb ∧ placeOf (locs i) = some p ∧
    ∀ m, run code m p = vectorCompare (b.get i) (m pa) (m pb)

/-- The code for the signed shift `i` of 64-bit lanes leaves its operand shifted in its place. -/
def SshrExact (hasGfni : Bool) (locs : Nat → Loc) (b : Block) (i : Nat) : Prop :=
  ∃ code pa p, emitShift hasGfni locs (b.get i) i = some code ∧
    placeOf (locs ((b.get i).args.get 0)) = some pa ∧ placeOf (locs i) = some p ∧
    ∀ m, run code m p = Lanes.ofLanes 128 64 (Lanes.upTo (if qForm (b.get i) then 2 else 1)
      fun k => (Lanes.lane 64 (m pa) k).sshiftRight (shiftOf (b.get i)))

/-- The comparison by halves is exact if and only if its result is not a register it restores. -/
theorem pcmpgtqExact_iff {dst src : Nat} (hdst : dst ∈ callerXmms) (hsrc : src ∈ callerXmms) :
    (∀ m, PcmpgtqExact dst src m) ↔ dst ≠ 6 ∧ dst ≠ 7 := by
  have hsrc4 : ∀ src ∈ callerXmms, src ≠ 4 := by decide
  have hmem : ∀ dst ∈ callerXmms, dst ∈ savedXmms.map (·.2) ↔ dst = 6 ∨ dst = 7 := by decide
  have hrun (m : Contents) := @run_emitPcmpgtqSse41 dst src (hsrc4 src hsrc) m
  constructor
  · intro h
    rw [← not_or, ← hmem dst hdst]
    intro hsaved
    have hlow := (h fun _ => 1).1 0 (by decide)
    rw [(hrun _).1, gtq, if_pos hsaved, if_neg (lt_irrefl _)] at hlow
    revert hlow
    decide +kernel
  · intro hne m
    rw [← not_or, ← hmem dst hdst] at hne
    refine ⟨fun k hk => ?_, fun r hr =>
      (hrun m).2 _ (fun h => hr (Place.xmm.inj h)) (by rintro _ ⟨⟩)⟩
    rw [(hrun m).1, gtq, if_neg hne, Packed.lane_pcmpgt (by omega), Packed.fill, BitVec.slt]
    simp only [decide_eq_true_eq]

section nodes

variable {features : HostFeatures} {b : Block} {live : List ValueRef}
  {terminalUses : List ValueRef} {i : Nat}

/-- The first operands of a node are vectors. -/
def VectorArgs (b : Block) (i : Nat) (ks : List (Fin 4)) : Prop :=
  ∀ k ∈ ks, ((b.get i).args.get k).isSome ∧ IsVector b ((b.get i).args.get k)

instance (b : Block) (i : Nat) (ks : List (Fin 4)) : Decidable (VectorArgs b i ks) :=
  inferInstanceAs (Decidable (∀ k ∈ ks, _ ∧ _))

/-- The place of an operand. -/
theorem exists_operand (hwalk : b.Walk b.head live) (htail : b.tail = live.getLastD linkNone)
    (hssa : b.Ssa live) (hsize : b.code.size < Block.maxNodes) (hi : i ∈ live) (hv : IsVector b i)
    {ks : List (Fin 4)} (hargs : VectorArgs b i ks) {k : Fin 4} (hk : k ∈ ks) :
    ∃ q, VectorAt (locsOf features b terminalUses ((b.get i).args.get k)) q ∧
      ∀ p, VectorAt (locsOf features b terminalUses i) p → q ≠ p := by
  obtain ⟨hsome, hvector⟩ := hargs k hk
  obtain ⟨l₁, l₂, hlive⟩ := List.append_of_mem hi
  have hmem : (b.get i).args.get k ∈ live := by
    subst hlive
    exact List.mem_append_left _ (hssa.arg_mem k hsome)
  obtain ⟨q, hq⟩ := @vectorAt_linearScan features b live terminalUses hwalk htail hsize _ hmem
    hvector
  exact ⟨q, hq, fun p hp => ne_operand_linearScan hwalk htail hssa hsize hi hv hsome hq.place
    hp.place⟩

/-- A comparison of a block is exact if and only if its result is not in one of these registers. -/
theorem compareExact_iff (hwalk : b.Walk b.head live) (htail : b.tail = live.getLastD linkNone)
    (hssa : b.Ssa live) (hsize : b.code.size < Block.maxNodes) (hi : i ∈ live) (hv : IsVector b i)
    (hargs : VectorArgs b i [0, 1]) (hop : (b.get i).op ∈ compareOps) :
    CompareExact (locsOf features b terminalUses) b i ↔
      locsOf features b terminalUses i ≠ .xmm 6 ∧ locsOf features b terminalUses i ≠ .xmm 7 := by
  obtain ⟨p, hp⟩ := @vectorAt_linearScan features b live terminalUses hwalk htail hsize i hi hv
  obtain ⟨pa, ha, hpa⟩ := @exists_operand features b live terminalUses i hwalk htail hssa hsize hi hv _
    hargs 0 (by decide)
  obtain ⟨pb, hb, hpb⟩ := @exists_operand features b live terminalUses i hwalk htail hssa hsize hi hv _
    hargs 1 (by decide)
  obtain ⟨code, hcode, hrun⟩ := exists_emitCompare hop ha hb hp (hpa p hp) (hpb p hp)
  have hworking : workingXmmFor (locsOf features b terminalUses i) 0 ∈ savedXmms.map (·.2) ↔
      locsOf features b terminalUses i = .xmm 6 ∨ locsOf features b terminalUses i = .xmm 7 := by
    rcases placeOf_cases hp.place with ⟨x, hx, rfl⟩ | ⟨off, hoff, rfl⟩
    · have hmem : ∀ x ∈ spillXmms, x ∈ savedXmms.map (·.2) ↔ x = 6 ∨ x = 7 := by decide
      rw [hx, workingXmmFor, hmem x (hp.pool x rfl), Loc.xmm.injEq, Loc.xmm.injEq]
    · simp [hoff, savedXmms, workingXmmFor]
  rw [← not_or, ← hworking]
  constructor
  · rintro ⟨code', pa', pb', p', hcode', ha', hb', hp', hexact⟩ hsaved
    obtain rfl := Option.some.inj (hcode'.symm.trans hcode)
    obtain rfl := Option.some.inj (ha'.symm.trans ha.place)
    obtain rfl := Option.some.inj (hb'.symm.trans hb.place)
    obtain rfl := Option.some.inj (hp'.symm.trans hp.place)
    exact form_compareResult_ne hop hsaved ((hrun fun _ => 1).symm.trans (hexact fun _ => 1))
  · intro hsaved
    exact ⟨code, pa, pb, p, hcode, ha.place, hb.place, hp.place, fun m =>
      (hrun m).trans (form_compareResult hop hsaved _ _)⟩

/-- A signed shift of 64-bit lanes is exact. -/
theorem sshrExact (hasGfni : Bool) (hwalk : b.Walk b.head live)
    (htail : b.tail = live.getLastD linkNone) (hssa : b.Ssa live)
    (hsize : b.code.size < Block.maxNodes) (hi : i ∈ live) (hv : IsVector b i)
    (hargs : VectorArgs b i [0]) (hop : (b.get i).op = .vecSshrImm64)
    (hshift : shiftOf (b.get i) ≤ 64) :
    SshrExact hasGfni (locsOf features b terminalUses) b i := by
  obtain ⟨p, hp⟩ := @vectorAt_linearScan features b live terminalUses hwalk htail hsize i hi hv
  obtain ⟨pa, ha, -⟩ := @exists_operand features b live terminalUses i hwalk htail hssa hsize hi hv _
    hargs 0 (by decide)
  obtain ⟨code, hcode, hrun⟩ := exists_emitOpVecSshrImm hasGfni ha hp hshift
  have hlane : (b.get i).op.sizeLog2 = 3 := by
    rw [hop]
    decide
  refine ⟨code, pa, p, ?_, ha.place, hp.place, fun m => ?_⟩
  · rw [emitShift, hop]
    exact hcode
  · have hactive : (if qForm (b.get i) then 2 else 1) ≤ 2 := by split <;> decide
    rw [hrun, hlane, form_eq]
    refine congrArg (Lanes.ofLanes 128 64) (funext fun k => ?_)
    rw [Lanes.upTo, Lanes.upTo]
    generalize (if qForm (b.get i) then 2 else 1) = active at *
    split
    · rename_i hk
      rw [shiftLanes_long, Packed.lane_mapLanes _ (by omega)]
    · rfl

end nodes

/-- **The 64-bit comparisons are exact if and only if** their result is neither in `xmm6` nor in
`xmm7`: the comparison by halves of two registers, and every ordered comparison of 64-bit lanes of
every block, wherever linear scan puts its operands.  The signed shift of 64-bit lanes, which
compares into a scratch register, always is. -/
theorem compare64_exact_iff (features : HostFeatures) {b : Block} {live : List ValueRef}
    (hwalk : b.Walk b.head live) (htail : b.tail = live.getLastD linkNone) (hssa : b.Ssa live)
    (hsize : b.code.size < Block.maxNodes) (terminalUses : List ValueRef) :
    (∀ dst ∈ callerXmms, ∀ src ∈ callerXmms, dst ≠ src →
      ((∀ m, PcmpgtqExact dst src m) ↔ dst ≠ 6 ∧ dst ≠ 7)) ∧
    (∀ i ∈ live, IsVector b i → VectorArgs b i [0, 1] → (b.get i).op ∈ compareOps →
      (CompareExact (locsOf features b terminalUses) b i ↔
        locsOf features b terminalUses i ≠ .xmm 6 ∧ locsOf features b terminalUses i ≠ .xmm 7)) ∧
    ∀ i ∈ live, ∀ hasGfni, IsVector b i → VectorArgs b i [0] → (b.get i).op = .vecSshrImm64 →
      shiftOf (b.get i) ≤ 64 → SshrExact hasGfni (locsOf features b terminalUses) b i :=
  ⟨fun _ hdst _ hsrc _ => pcmpgtqExact_iff hdst hsrc,
    fun _ hi hv hargs hop => compareExact_iff hwalk htail hssa hsize hi hv hargs hop,
    fun _ hi hasGfni hv hargs hop hshift =>
      sshrExact hasGfni hwalk htail hssa hsize hi hv hargs hop hshift⟩

/-- `V2 := V0 > V0`, in lanes of 64 bits. -/
def compareSelf : Block := (Block.new 0x1000).pushAll
  [(Armlet.new .getV .u128).withImm 0, ((Armlet.new .vecCmGt64 .u128).withArgs [1, 1]).withImm 1,
    ((Armlet.new .setV .void).withArgs [2]).withImm 2]

/-- The register is in `xmm6` and the comparison is made in `xmm7`, from where it is restored: it
leaves the register itself. -/
theorem compareSelf_inexact :
    locsOf ⟨true, true⟩ compareSelf [] 1 = .xmm 6 ∧ locsOf ⟨true, true⟩ compareSelf [] 2 = .xmm 7 ∧
      ¬ PcmpgtqExact 7 6 (fun _ => 1) ∧
      ¬ CompareExact (locsOf ⟨true, true⟩ compareSelf []) compareSelf 2 := by
  have h1 : locsOf ⟨true, true⟩ compareSelf [] 1 = .xmm 6 := by decide +kernel
  have h2 : locsOf ⟨true, true⟩ compareSelf [] 2 = .xmm 7 := by decide +kernel
  refine ⟨h1, h2, fun h => ?_, fun h => ?_⟩
  · have hlow := h.1 0 (by decide)
    rw [(run_emitPcmpgtqSse41 (by decide) _).1, gtq, if_pos (by decide)] at hlow
    revert hlow
    decide +kernel
  · have hlinked : compareSelf.Linked [1, 2, 3] := (Block.Linked.new 0x1000).pushAll (by decide) _
    exact ((compareExact_iff hlinked.walk (by decide) (by decide) (by decide) (by decide)
      (by decide) (by decide) (by decide)).mp h).2 h2

/-- `V2 := V0 > V1`, in lanes of 64 bits. -/
def compareOthers : Block := (Block.new 0x1000).pushAll
  [(Armlet.new .getV .u128).withImm 0, (Armlet.new .getV .u128).withImm 1,
    ((Armlet.new .vecCmGt64 .u128).withArgs [1, 2]).withImm 1,
    ((Armlet.new .setV .void).withArgs [3]).withImm 2]

theorem compare64_exact_iff_others :
    (∀ m, PcmpgtqExact 8 6 m) ∧
      CompareExact (locsOf ⟨true, true⟩ compareOthers []) compareOthers 3 := by
  have hlinked : compareOthers.Linked [1, 2, 3, 4] :=
    (Block.Linked.new 0x1000).pushAll (by decide) _
  obtain ⟨hpairs, hnodes, -⟩ := compare64_exact_iff ⟨true, true⟩ hlinked.walk (by decide)
    (by decide) (by decide) []
  refine ⟨(hpairs 8 (by decide) 6 (by decide) (by decide)).mpr (by decide), ?_⟩
  refine (hnodes 3 (by decide) (by decide) (by decide) (by decide)).mpr ?_
  have h3 : locsOf ⟨true, true⟩ compareOthers [] 3 = .xmm 8 := by decide +kernel
  rw [h3]
  decide

end Rustarmic
