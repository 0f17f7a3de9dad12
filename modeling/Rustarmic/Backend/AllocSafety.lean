import Rustarmic.Backend.LiveRanges

/-!
# Allocations are safe

Two values that are in use at the same time must not share a register, a vector register or a byte
of a slot, and no operation strictly inside the range of a value may clobber its register.  The
first always holds.  The second can fail for an identity: it is handed the vector register of its
operand, and only the range of the operand was checked against the clobber table, not its own.

* `ScanInv` — the invariant of the scan; `ScanInv.step` keeps it unless an identity is handed a
  register that is clobbered inside its range.
* `allocation_sound_iff` — the result.

`Sound` says what an allocation is for and mentions neither the active lists nor the order of the
scan.  Sharing is a relation between two locations with their types, since slots have a length: a
vector takes sixteen bytes and another value eight, and a slot that is used again may be used by a
shorter value.

The three kinds of places are three instances of one argument, `Bank` from `Lib.LinearScan`: who is
active, what is free, and that whoever held a free place has ended.  A step that places a value
somewhere leaves the two other banks alone, which is what the lemmas called `keep` are for.

For the equivalence a scan is followed to its end in either case.  A step that hands on a clobbered
register does not break the *other* parts of the invariant, and the location it leaves is never
changed again; so the final allocation still shows the defect.
-/

set_option autoImplicit false

namespace Rustarmic

open LinearScan

/-! ## Masks -/

theorem foldl_or_getLsbD (masks : List U16) (x : Nat) (l : List Nat) (m : U16) :
    (l.foldl (fun mask i => mask ||| masks.getD i 0) m).getLsbD x = true ↔
      m.getLsbD x = true ∨ ∃ i ∈ l, (masks.getD i 0).getLsbD x = true := by
  induction l generalizing m with
  | nil => simp
  | cons i l ih =>
    rw [List.foldl_cons, ih, BitVec.getLsbD_or, Bool.or_eq_true, or_assoc]
    simp

/-- A bit of the interior mask comes from a position strictly inside the range. -/
theorem interiorMask_getLsbD {masks : List U16} {r : LiveRange} (hlive : r.isDead = false)
    {x : Nat} : (interiorMask masks r).getLsbD x = true ↔
      ∃ p, r.first < p ∧ p < r.last ∧ (masks.getD p 0).getLsbD x = true := by
  rw [interiorMask, if_neg (by simp [hlive]), foldl_or_getLsbD, or_iff_right (by simp)]
  simp only [List.mem_range'_1]
  refine exists_congr fun p => ?_
  constructor
  · rintro ⟨⟨h1, h2⟩, h3⟩
    exact ⟨by omega, by omega, h3⟩
  · rintro ⟨h1, h2, h3⟩
    exact ⟨⟨by omega, by omega⟩, h3⟩

theorem regBit_getLsbD (r x : Nat) : (regBit r).getLsbD x = true ↔ x = r ∧ x < 16 := by
  rw [regBit, BitVec.getLsbD_shiftLeft, BitVec.getLsbD_one]
  simp only [Bool.and_eq_true, decide_eq_true_eq, Bool.not_eq_true', decide_eq_false_iff_not]
  omega

theorem foldl_regBit_getLsbD (l : List (Active Nat Nat)) (m : U16) (x : Nat)
    (h : (l.foldl (fun m a => m ||| regBit a.2.1) m).getLsbD x = true) :
    m.getLsbD x = true ∨ ∃ a ∈ l, a.2.1 = x := by
  induction l generalizing m with
  | nil => exact .inl h
  | cons a l ih =>
    rcases ih _ h with h | ⟨b, hb, hx⟩
    · rw [BitVec.getLsbD_or, Bool.or_eq_true, regBit_getLsbD] at h
      rcases h with h | h
      · exact .inl h
      · exact .inr ⟨a, .head _, h.1.symm⟩
    · exact .inr ⟨b, .tail _ hb, hx⟩

theorem lowestBit_eq_some {mask : U16} {x : Nat} (h : lowestBit mask = some x) :
    mask.getLsbD x = true := List.find?_some h

theorem removeLast_eq_some {p : Nat → Bool} {l rest : List Nat} {r : Nat}
    (h : removeLast p l = some (r, rest)) : p r = true ∧ l.Perm (r :: rest) := by
  rw [removeLast] at h
  cases hfind : l.reverse.find? p with
  | none =>
    rw [hfind] at h
    cases h
  | some r' =>
    rw [hfind] at h
    cases h
    obtain ⟨hp, l₁, l₂, hsplit, hfirst⟩ := List.find?_eq_some_iff_append.mp hfind
    refine ⟨hp, ?_⟩
    have herase : l.reverse.eraseP p = l₁ ++ l₂ := by
      rw [hsplit]
      rw [List.eraseP_append_right _ fun a ha => by simpa using hfirst a ha,
        List.eraseP_cons_of_pos hp]
    rw [herase]
    refine (List.reverse_perm l).symm.trans ?_
    rw [hsplit]
    exact List.perm_middle.trans ((List.reverse_perm _).symm.cons _)

/-! ## What is wanted -/

/-- Bytes of a slot: those from its distance `off` up, as many as the value is long. -/
def slotSize (ty : Ty) : Nat := if ty = .u128 then 16 else 8

/-- Two values of the given locations and types share a register, a vector register, or the byte
at distance `d`. -/
inductive Loc.Shares : Loc → Ty → Loc → Ty → Prop where
  | reg {r : Nat} {ty ty' : Ty} : Shares (.reg r) ty (.reg r) ty'
  | xmm {x : Nat} {ty ty' : Ty} : Shares (.xmm x) ty (.xmm x) ty'
  | spill {off off' d : Nat} {ty ty' : Ty} (hlow : off < d + slotSize ty) (hhigh : d ≤ off)
      (hlow' : off' < d + slotSize ty') (hhigh' : d ≤ off') : Shares (.spill off) ty (.spill off') ty'

theorem Loc.Shares.symm {l l' : Loc} {ty ty' : Ty} (h : l.Shares ty l' ty') :
    l'.Shares ty' l ty := by
  cases h with
  | reg => exact .reg
  | xmm => exact .xmm
  | spill h1 h2 h3 h4 => exact .spill h3 h4 h1 h2

theorem Loc.Shares.ne_none {l l' : Loc} {ty ty' : Ty} (h : l.Shares ty l' ty') : l' ≠ .none := by
  cases h <;> simp

theorem Loc.Shares.ne_imm {l l' : Loc} {ty ty' : Ty} (h : l.Shares ty l' ty') (v : U64) :
    l' ≠ .imm v := by
  cases h <;> simp

/-- A shorter value at a location shares no more there than another one does. -/
theorem Loc.Shares.mono {l l' : Loc} {ty ty' ty'' : Ty} (h : l.Shares ty l' ty'')
    (hty : ty'' ≠ .u128) : l.Shares ty l' ty' := by
  cases h with
  | reg => exact .reg
  | xmm => exact .xmm
  | spill h1 h2 h3 h4 =>
    refine .spill h1 h2 ?_ h4
    rw [slotSize, if_neg hty] at h3
    rw [slotSize]
    split <;> omega

/-- **What an allocation should be.**  Values in use at one position share nothing, and no
operation strictly inside the range of a value clobbers the register it is in. -/
structure Allocation.Sound (features : HostFeatures) (b : Block) (ranges : Ranges)
    (alloc : Allocation) : Prop where
  apart : ∀ u v p, u ≠ v → (ranges u).first < p → (ranges v).first < p → p ≤ (ranges u).last →
    p ≤ (ranges v).last → ¬ (alloc.locs u).Shares (b.get u).ty (alloc.locs v) (b.get v).ty
  unclobbered : ∀ v p w, b.iterLive[p]? = some w → (ranges v).first < p → p < (ranges v).last →
    (∀ r, alloc.locs v = .reg r →
        (clobbersForOp features (b.get w).op).gpr.getLsbD r = false) ∧
      ∀ x, alloc.locs v = .xmm x → (clobbersForOp features (b.get w).op).xmm.getLsbD x = false

/-- The step at `i` would hand an identity a vector register that is clobbered inside its range. -/
def InheritsClobbered (inp : ScanInput) (s : Scan) (i : Nat) : Prop :=
  (inp.block.get i).op = .identity ∧ (inp.block.get i).ty ≠ .u128 ∧
    ∃ src x, Scan.dyingSource inp i = some src ∧ s.locs src = .xmm x ∧
      (interiorMask inp.xmmMasks (inp.ranges i)).getLsbD x = true

/-- No step of the scan does. -/
def CleanScan (inp : ScanInput) : Scan → List Nat → Prop
  | _, [] => True
  | s, i :: is => ¬ InheritsClobbered inp s i ∧ CleanScan inp (s.step inp i) is

/-! ## The invariant -/

/-- Everything placed so far, by a scan that is about to place values that start at `lim` or
later. -/
structure ScanInv (inp : ScanInput) (pool : List Nat) (s : Scan) (lim : Nat) : Prop where
  first_lt : ∀ i, s.locs i ≠ .none → (inp.ranges i).first < lim
  first_inj : ∀ i j, s.locs i ≠ .none → s.locs j ≠ .none →
    (inp.ranges i).first = (inp.ranges j).first → i = j
  gprs : Bank (fun i => (inp.ranges i).last) (fun i r => s.locs i = .reg r) (· ∈ s.free) s.active lim
  xmms : Bank (fun i => (inp.ranges i).last) (fun i x => s.locs i = .xmm x)
    (fun x => s.xmmFree.getLsbD x = true) s.xmmActive lim
  free_nodup : s.free.Nodup
  free_pool : ∀ r ∈ s.free, r ∈ pool
  reg_pool : ∀ i r, s.locs i = .reg r → r ∈ pool
  spill_le : ∀ i off, s.locs i = .spill off → off ≤ s.spillCursor
  apart : ∀ i j, (inp.ranges i).first < (inp.ranges j).first →
    (s.locs i).Shares (inp.block.get i).ty (s.locs j) (inp.block.get j).ty →
      ¬ Overlap (fun i => (inp.ranges i).first) (fun i => (inp.ranges i).last) i j
  safe : ∀ i x, s.locs i = .xmm x →
    (interiorMask inp.xmmMasks (inp.ranges i)).getLsbD x = false

/-- The scan with other clobber tables for the vector registers. -/
def ScanInput.withXmmMasks (inp : ScanInput) (masks : List XmmMask) : ScanInput :=
  { inp with xmmMasks := masks }

/-- The tables of a scan say at least as much as `masks`. -/
def ScanInput.Covers (inp : ScanInput) (masks : List XmmMask) : Prop :=
  ∀ r x, (interiorMask masks r).getLsbD x = true → (interiorMask inp.xmmMasks r).getLsbD x = true

/-- What the scan takes to be safe is safe. -/
theorem ScanInput.Covers.safe {inp : ScanInput} {masks : List XmmMask} (h : inp.Covers masks)
    {r : LiveRange} (x : Nat) (hx : (~~~interiorMask inp.xmmMasks r).getLsbD x = true) :
    (interiorMask masks r).getLsbD x = false := by
  rw [BitVec.getLsbD_not] at hx
  simp only [Bool.and_eq_true, Bool.not_eq_true'] at hx
  refine Bool.eq_false_iff.mpr fun hbit => ?_
  rw [h r x hbit] at hx
  exact absurd hx.2 (by decide)

namespace ScanInv

variable {inp : ScanInput} {pool : List Nat} {s s' : Scan} {lim i : Nat}

theorem start (hpool : pool.Nodup) : ScanInv inp pool (scanStart pool) 0 where
  first_lt i h := absurd rfl h
  first_inj i _ h := absurd rfl h
  gprs := Bank.empty.congr (by simp [scanStart]) fun _ _ => True.intro
  xmms := Bank.empty.congr (by simp [scanStart]) fun _ _ => True.intro
  free_nodup := List.nodup_reverse.mpr hpool
  free_pool r hr := List.mem_reverse.mp hr
  reg_pool := by simp [scanStart]
  spill_le := by simp [scanStart]
  apart := by rintro i j - ⟨⟩
  safe := by simp [scanStart]

/-- What ends before `start` is freed. -/
theorem expire (h : ScanInv inp pool s lim) {start : Nat} (hle : lim ≤ start) :
    ScanInv inp pool (s.expire start) start where
  first_lt i hi := (h.first_lt i hi).trans_le hle
  first_inj := h.first_inj
  gprs := (h.gprs.expire hle).congr (fun _ _ => Iff.rfl) fun r hr => by
    refine (List.mem_append.mp hr).imp_right fun hr => ?_
    obtain ⟨a, ha, rfl⟩ := List.mem_map.mp hr
    obtain ⟨ha, hlt⟩ := List.mem_filter.mp ha
    exact ⟨a, ha, of_decide_eq_true hlt, rfl⟩
  xmms := (h.xmms.expire hle).congr (fun _ _ => Iff.rfl) fun x hx => by
    refine (foldl_regBit_getLsbD _ _ _ hx).imp_right ?_
    rintro ⟨a, ha, rfl⟩
    obtain ⟨ha, hlt⟩ := List.mem_filter.mp ha
    exact ⟨a, ha, of_decide_eq_true hlt, rfl⟩
  free_nodup := by
    refine List.nodup_append.mpr ⟨h.free_nodup, ?_, ?_⟩
    · exact h.gprs.nodup.sublist ((List.filter_sublist).map _)
    · rintro r hr _ hr' rfl
      obtain ⟨a, ha, rfl⟩ := List.mem_map.mp hr'
      exact h.gprs.not_free a (List.mem_of_mem_filter ha) hr
  free_pool := by
    intro r hr
    rcases List.mem_append.mp hr with hr | hr
    · exact h.free_pool r hr
    · obtain ⟨a, ha, rfl⟩ := List.mem_map.mp hr
      exact h.reg_pool _ _ (h.gprs.entry a (List.mem_of_mem_filter ha)).1
  reg_pool := h.reg_pool
  spill_le := h.spill_le
  apart := h.apart
  safe := h.safe

/-- A value that starts at `lim` has no location yet. -/
theorem locs_eq_none (h : ScanInv inp pool s lim) (hi : (inp.ranges i).first = lim) :
    s.locs i = .none := by
  by_contra hne
  have := h.first_lt i hne
  omega

/-- Holding, after the value `i` got the location `loc`. -/
theorem update_eq_iff (h : ScanInv inp pool s lim) (hi : (inp.ranges i).first = lim)
    {loc loc' : Loc} (hloc' : loc' ≠ .none) (j : Nat) :
    Function.update s.locs i loc j = loc' ↔ s.locs j = loc' ∨ j = i ∧ loc = loc' := by
  by_cases hj : j = i
  · subst hj
    rw [Function.update_self, h.locs_eq_none hi]
    simp [hloc'.symm]
  · rw [Function.update_of_ne hj]
    simp [hj]

/-- The value `i` gets the location `loc`: what has to be shown. -/
theorem place_at (h : ScanInv inp pool s lim) (hi : (inp.ranges i).first = lim) {loc : Loc}
    (hlocs : s'.locs = Function.update s.locs i loc)
    (hgprs : Bank (fun i => (inp.ranges i).last)
      (fun j r => s.locs j = .reg r ∨ j = i ∧ loc = .reg r) (· ∈ s'.free) s'.active (lim + 1))
    (hxmms : Bank (fun i => (inp.ranges i).last)
      (fun j x => s.locs j = .xmm x ∨ j = i ∧ loc = .xmm x)
      (fun x => s'.xmmFree.getLsbD x = true) s'.xmmActive (lim + 1))
    (hfree : s'.free.Nodup) (hpool : ∀ r ∈ s'.free, r ∈ pool) (hreg : ∀ r, loc = .reg r → r ∈ pool)
    (hcursor : s.spillCursor ≤ s'.spillCursor)
    (hspill : ∀ off, loc = .spill off → off ≤ s'.spillCursor)
    (hapart : ∀ j, (inp.ranges j).first < (inp.ranges i).first →
      (s.locs j).Shares (inp.block.get j).ty loc (inp.block.get i).ty →
        ¬ Overlap (fun i => (inp.ranges i).first) (fun i => (inp.ranges i).last) j i)
    (hsafe : ∀ x, loc = .xmm x →
      (interiorMask inp.xmmMasks (inp.ranges i)).getLsbD x = false) :
    ScanInv inp pool s' (lim + 1) where
  first_lt j hj := by
    rw [hlocs] at hj
    by_cases hji : j = i
    · rw [hji, hi]
      exact Nat.lt_succ_self _
    · rw [Function.update_of_ne hji] at hj
      exact Nat.lt_succ_of_lt (h.first_lt j hj)
  first_inj j k hj hk hfirst := by
    rw [hlocs] at hj hk
    by_cases hji : j = i
    · by_cases hki : k = i
      · rw [hji, hki]
      · rw [Function.update_of_ne hki] at hk
        have hlt := h.first_lt k hk
        rw [hji, hi] at hfirst
        omega
    · rw [Function.update_of_ne hji] at hj
      by_cases hki : k = i
      · have hlt := h.first_lt j hj
        rw [hki, hi] at hfirst
        omega
      · rw [Function.update_of_ne hki] at hk
        exact h.first_inj j k hj hk hfirst
  gprs := by
    rw [hlocs]
    exact hgprs.congr (fun j r => h.update_eq_iff hi (by simp) j) fun _ hr => hr
  xmms := by
    rw [hlocs]
    exact hxmms.congr (fun j x => h.update_eq_iff hi (by simp) j) fun _ hx => hx
  free_nodup := hfree
  free_pool := hpool
  reg_pool j r hj := by
    rw [hlocs, h.update_eq_iff hi (by simp)] at hj
    exact hj.elim (h.reg_pool j r) fun hj => hreg r hj.2
  spill_le j off hj := by
    rw [hlocs, h.update_eq_iff hi (by simp)] at hj
    exact hj.elim (fun hj => (h.spill_le j off hj).trans hcursor) fun hj => hspill off hj.2
  apart j k hlt hshares := by
    rw [hlocs] at hshares
    by_cases hk : k = i
    · subst hk
      have hj : j ≠ k := by
        rintro rfl
        exact Nat.lt_irrefl _ hlt
      rw [Function.update_self, Function.update_of_ne hj] at hshares
      exact hapart j hlt hshares
    · rw [Function.update_of_ne hk] at hshares
      by_cases hj : j = i
      · -- Nothing placed before starts after `i`.
        have hbefore := h.first_lt k hshares.ne_none
        rw [hj, hi] at hlt
        omega
      · rw [Function.update_of_ne hj] at hshares
        exact h.apart j k hlt hshares
  safe j x hj := by
    rw [hlocs, h.update_eq_iff hi (by simp)] at hj
    rcases hj with hj | ⟨rfl, hj⟩
    · exact h.safe j x hj
    · exact hsafe x hj

/-- The registers, when the new location is not one of them. -/
theorem gprs_keep (h : ScanInv inp pool s lim) {loc : Loc} (hloc : ∀ r, loc ≠ .reg r) :
    Bank (fun i => (inp.ranges i).last) (fun j r => s.locs j = .reg r ∨ j = i ∧ loc = .reg r)
      (· ∈ s.free) s.active (lim + 1) :=
  (h.gprs.mono (Nat.le_succ lim)).congr (by simp [hloc]) fun _ hr => hr

theorem xmms_keep (h : ScanInv inp pool s lim) {loc : Loc} (hloc : ∀ x, loc ≠ .xmm x) :
    Bank (fun i => (inp.ranges i).last) (fun j x => s.locs j = .xmm x ∨ j = i ∧ loc = .xmm x)
      (fun x => s.xmmFree.getLsbD x = true) s.xmmActive (lim + 1) :=
  (h.xmms.mono (Nat.le_succ lim)).congr (by simp [hloc]) fun _ hx => hx

/-- A constant takes no room. -/
theorem setLoc_imm (h : ScanInv inp pool s lim) (hi : (inp.ranges i).first = lim) (v : U64) :
    ScanInv inp pool (s.setLoc i (.imm v)) (lim + 1) :=
  h.place_at hi rfl (h.gprs_keep (by simp)) (h.xmms_keep (by simp)) h.free_nodup h.free_pool
    (by simp) le_rfl (by simp) (fun _ _ hshares => absurd rfl (hshares.ne_imm v)) (by simp)

/-- A free vector register that is not clobbered inside the range. -/
theorem takeXmm (h : ScanInv inp pool s lim) (hi : (inp.ranges i).first = lim) {x : Nat}
    (hfree : s.xmmFree.getLsbD x = true)
    (hsafe : (interiorMask inp.xmmMasks (inp.ranges i)).getLsbD x = false) :
    ScanInv inp pool (s.takeXmm i (inp.ranges i).last x) (lim + 1) := by
  refine h.place_at hi rfl (h.gprs_keep (by simp)) ?_ h.free_nodup h.free_pool (by simp) le_rfl
    (by simp) ?_ ?_
  · refine ((h.xmms.take (v := i) hfree).mono (Nat.le_succ lim)).congr ?_ ?_
    · simp [eq_comm]
    · intro y hy
      rw [Scan.takeXmm, BitVec.getLsbD_and, BitVec.getLsbD_not, Bool.and_eq_true,
        Bool.and_eq_true, Bool.not_eq_true', decide_eq_true_eq] at hy
      refine ⟨hy.1, ?_⟩
      rintro rfl
      rw [(regBit_getLsbD y y).mpr ⟨rfl, hy.2.1⟩] at hy
      exact absurd hy.2.2 (by decide)
  · intro j hlt hshares
    generalize hj : s.locs j = loc at hshares
    cases hshares
    exact not_overlap_of_le (hi ▸ (h.xmms.past hj hfree).le)
  · rintro y hy
    cases hy
    exact hsafe

/-- A fresh slot, all of it past the cursor. -/
theorem takeSlot (h : ScanInv inp pool s lim) (hi : (inp.ranges i).first = lim) {off : Nat}
    (hoff : s.spillCursor + slotSize (inp.block.get i).ty ≤ off) :
    ScanInv inp pool (s.takeSlot i off) (lim + 1) := by
  refine h.place_at hi rfl (h.gprs_keep (by simp)) (h.xmms_keep (by simp)) h.free_nodup h.free_pool
    (by simp) ((Nat.le_add_right _ _).trans hoff) ?_ ?_ (by simp)
  · rintro off' hoff'
    cases hoff'
    exact le_rfl
  · intro j hlt hshares
    generalize hj : s.locs j = loc at hshares
    cases hshares with
    | spill h1 h2 h3 h4 =>
      have hle := h.spill_le j _ hj
      omega

theorem takeSpill (h : ScanInv inp pool s lim) (hi : (inp.ranges i).first = lim) {safe : XmmMask}
    (hsafe : ∀ x, safe.getLsbD x = true →
      (interiorMask inp.xmmMasks (inp.ranges i)).getLsbD x = false)
    {slot : Nat → Nat} (hslot : ∀ c, c + slotSize (inp.block.get i).ty ≤ slot c) :
    ScanInv inp pool (s.takeSpill i (inp.ranges i).last safe slot) (lim + 1) := by
  rw [Scan.takeSpill]
  split
  · rename_i x hx
    have hbits := lowestBit_eq_some hx
    rw [BitVec.getLsbD_and, Bool.and_eq_true] at hbits
    exact h.takeXmm hi hbits.1 (hsafe x hbits.2)
  · exact h.takeSlot hi (hslot _)

/-- A register, or what `takeSpill` finds. -/
theorem place {masks : List XmmMask} (h : ScanInv (inp.withXmmMasks masks) pool s lim)
    (hmasks : inp.Covers masks) (hi : (inp.ranges i).first = lim)
    (hty : (inp.block.get i).ty ≠ .u128) :
    ScanInv (inp.withXmmMasks masks) pool (s.place inp i) (lim + 1) := by
  rw [Scan.place]
  dsimp only
  split
  · rename_i r free hremove
    obtain ⟨-, hperm⟩ := removeLast_eq_some hremove
    have hfree : r ∈ s.free := hperm.mem_iff.mpr (.head _)
    obtain ⟨hnotMem, hnodup⟩ := List.nodup_cons.mp (hperm.nodup_iff.mp h.free_nodup)
    refine h.place_at hi rfl ?_ (h.xmms_keep (by simp)) hnodup
      (fun r' hr' => h.free_pool r' (hperm.mem_iff.mpr (.tail _ hr'))) ?_ le_rfl (by simp) ?_
      (by simp)
    · refine ((h.gprs.take (v := i) hfree).mono (Nat.le_succ lim)).congr ?_ ?_
      · simp [eq_comm]
      · intro r' hr'
        refine ⟨hperm.mem_iff.mpr (.tail _ hr'), ?_⟩
        rintro rfl
        exact hnotMem hr'
    · rintro r' hr'
      cases hr'
      exact h.free_pool r hfree
    · intro j hlt hshares
      generalize hj : s.locs j = loc at hshares
      cases hshares
      exact not_overlap_of_le (hi ▸ (h.gprs.past hj hfree).le)
  · refine h.takeSpill hi hmasks.safe fun c => ?_
    have hty' : ((inp.withXmmMasks masks).block.get i).ty ≠ .u128 := hty
    rw [allocSpillSlot, slotSize, if_neg hty']
    omega

/-- What a dying source is. -/
theorem dyingSource_eq_some {src : Nat} (h : Scan.dyingSource inp i = some src) :
    (inp.ranges src).last = (inp.ranges i).first := by
  rw [Scan.dyingSource] at h
  dsimp only at h
  split_ifs at h with h1 h2
  cases h
  simp only [Bool.and_eq_true, decide_eq_true_eq] at h2
  exact h2.2

/-- A location that is handed over is shared with nothing that reaches past the source. -/
theorem apart_handOver (h : ScanInv inp pool s lim) (hi : (inp.ranges i).first = lim) {src : Nat}
    (hends : (inp.ranges src).last = (inp.ranges i).first)
    (hty : (inp.block.get i).ty ≠ .u128) {j : Nat}
    (hj : (inp.ranges j).first < (inp.ranges i).first)
    (hshares : (s.locs j).Shares (inp.block.get j).ty (s.locs src) (inp.block.get i).ty) :
    ¬ Overlap (fun i => (inp.ranges i).first) (fun i => (inp.ranges i).last) j i := by
  have hsrc := h.first_lt src hshares.ne_none
  have hshares' : (s.locs j).Shares (inp.block.get j).ty (s.locs src) (inp.block.get src).ty :=
    hshares.mono hty
  rcases Nat.lt_trichotomy (inp.ranges j).first (inp.ranges src).first with hlt | heq | hgt
  · exact not_overlap_handOver (h.apart j src hlt hshares') hends hj (hi ▸ hsrc)
  · obtain rfl := h.first_inj j src hshares.symm.ne_none hshares.ne_none heq
    exact not_overlap_of_le hends.le
  · have hapart := h.apart src j hgt hshares'.symm
    exact not_overlap_handOver (fun ho => hapart (overlap_comm.mp ho)) hends hj (hi ▸ hsrc)

/-- **Handing over a location** keeps the invariant, unless it is a vector register that is
clobbered inside the new range. -/
theorem inherit (h : ScanInv inp pool s lim) (hi : (inp.ranges i).first = lim)
    (hty : (inp.block.get i).ty ≠ .u128) (hclean : ¬ InheritsClobbered inp s i)
    (hinherit : s.inherit inp i = some s') : ScanInv inp pool s' (lim + 1) := by
  rw [Scan.inherit] at hinherit
  split at hinherit
  · cases hinherit
  rename_i src hsrc
  have hends := dyingSource_eq_some hsrc
  have hapart := fun j hj => h.apart_handOver hi hends hty (j := j) hj
  split at hinherit
  · rename_i r hr
    cases hinherit
    rw [hr] at hapart
    refine h.place_at hi rfl ?_ (h.xmms_keep (by simp)) h.free_nodup h.free_pool ?_ le_rfl (by simp)
      hapart (by simp)
    · refine (h.gprs.handOver (v := i) hr (hends.trans hi)).congr ?_ fun _ hr' => hr'
      simp [eq_comm]
    · rintro r' hr'
      cases hr'
      exact h.reg_pool src r hr
  · rename_i x hx
    split_ifs at hinherit with hid
    cases hinherit
    rw [hx] at hapart
    refine h.place_at hi rfl (h.gprs_keep (by simp)) ?_ h.free_nodup h.free_pool (by simp) le_rfl
      (by simp) hapart ?_
    · refine (h.xmms.handOver (v := i) hx (hends.trans hi)).congr ?_ fun _ hx' => hx'
      simp [eq_comm]
    · rintro y hy
      cases hy
      by_contra hbit
      exact hclean ⟨hid, hty, src, x, hsrc, hx, Bool.eq_true_of_not_eq_false hbit⟩
  · rename_i loc hreg hxmm
    split_ifs at hinherit with hid
    cases hinherit
    exact h.place_at hi rfl (h.gprs_keep hreg) (h.xmms_keep hxmm) h.free_nodup h.free_pool
      (fun r hr => absurd hr (hreg r)) le_rfl (fun off hoff => h.spill_le src off hoff) hapart
      fun x hx => absurd hx (hxmm x)

/-- A step of the scan keeps the invariant for tables that say less, unless it hands over a register
that is clobbered by these. -/
theorem step_of_covers (masks : List XmmMask) (h : ScanInv (inp.withXmmMasks masks) pool s lim)
    (hmasks : inp.Covers masks) (hle : lim ≤ (inp.ranges i).first)
    (hclean : ¬ InheritsClobbered (inp.withXmmMasks masks) s i) :
    ScanInv (inp.withXmmMasks masks) pool (s.step inp i) ((inp.ranges i).first + 1) := by
  have he := h.expire hle
  have hclean' : ¬ InheritsClobbered (inp.withXmmMasks masks) (s.expire (inp.ranges i).first) i :=
    hclean
  rw [Scan.step, Scan.assign]
  split
  · exact he.setLoc_imm rfl _
  · exact he.setLoc_imm rfl _
  · split
    · rename_i hty
      have hty' : ((inp.withXmmMasks masks).block.get i).ty = .u128 := hty
      refine he.takeSpill rfl hmasks.safe fun c => ?_
      rw [allocSpillSlot16, slotSize, if_pos hty']
      omega
    · rename_i hty
      cases hinherit : (s.expire (inp.ranges i).first).inherit inp i with
      | none => exact he.place hmasks rfl hty
      | some s' => exact he.inherit rfl hty hclean' hinherit

/-- **A step of the scan** keeps the invariant, unless it hands over a clobbered register. -/
theorem step (h : ScanInv inp pool s lim) (hle : lim ≤ (inp.ranges i).first)
    (hclean : ¬ InheritsClobbered inp s i) :
    ScanInv inp pool (s.step inp i) ((inp.ranges i).first + 1) :=
  step_of_covers inp.xmmMasks h (fun _ _ => id) hle hclean

end ScanInv

/-! ## Whole scans -/

theorem intervals_perm (b : Block) (ranges : Ranges) : (intervals b ranges).Perm
    ((List.range b.code.size).filter fun i => !(ranges i).isDead && (b.get i).ty != .void) :=
  List.perm_insertionSort _ _

/-- The scan visits the values in strictly increasing order of their positions. -/
theorem intervals_pairwise {b : Block} {ranges : Ranges} {live : List ValueRef}
    (h : Numbered live ranges) :
    (intervals b ranges).Pairwise fun i j => (ranges i).first < (ranges j).first := by
  have hperm := intervals_perm b ranges
  have hnodup : (intervals b ranges).Nodup :=
    hperm.nodup_iff.mpr (List.nodup_range.sublist List.filter_sublist)
  have hlive (i : Nat) (hi : i ∈ intervals b ranges) : (ranges i).isDead = false := by
    have hcond := (List.mem_filter.mp (hperm.mem_iff.mp hi)).2
    simp only [Bool.and_eq_true, Bool.not_eq_true'] at hcond
    exact hcond.1
  have hle : (intervals b ranges).Pairwise fun i j => (ranges i).start ≤ (ranges j).start := by
    have htotal : Std.Total fun i j => (ranges i).start ≤ (ranges j).start :=
      ⟨fun i j => Nat.le_total _ _⟩
    have htrans : IsTrans Nat fun i j => (ranges i).start ≤ (ranges j).start :=
      ⟨fun i j k => Nat.le_trans⟩
    exact List.pairwise_insertionSort _ _
  refine (hle.and hnodup).imp_of_mem fun {i j} hi hj hij => ?_
  refine Nat.lt_of_le_of_ne hij.1 fun heq => hij.2 ?_
  have hget := h i (hlive i hi)
  rw [heq] at hget
  exact Option.some.inj (hget.symm.trans (h j (hlive j hj)))

/-- **A clean scan keeps the invariant.** -/
theorem ScanInv.run {inp : ScanInput} {pool : List Nat} {s : Scan} {lim : Nat} {is : List Nat}
    (h : ScanInv inp pool s lim)
    (hsorted : is.Pairwise fun i j => (inp.ranges i).first < (inp.ranges j).first)
    (hlim : ∀ i ∈ is, lim ≤ (inp.ranges i).first) (hclean : CleanScan inp s is) :
    ∃ lim', ScanInv inp pool (is.foldl (Scan.step inp) s) lim' := by
  induction is generalizing s lim with
  | nil => exact ⟨lim, h⟩
  | cons i is ih =>
    obtain ⟨hfirst, hsorted⟩ := List.pairwise_cons.mp hsorted
    exact ih (h.step (hlim i (.head _)) hclean.1) hsorted hfirst hclean.2

/-- A step gives a location to its own value only. -/
theorem step_locs (inp : ScanInput) (s : Scan) (i : Nat) :
    ∃ loc, (s.step inp i).locs = Function.update s.locs i loc := by
  have hspill (s' : Scan) (last : Nat) (safe : XmmMask) (slot : Nat → Nat) :
      ∃ loc, (s'.takeSpill i last safe slot).locs = Function.update s'.locs i loc := by
    rw [Scan.takeSpill]
    split <;> exact ⟨_, rfl⟩
  rw [Scan.step, Scan.assign]
  split
  · exact ⟨_, rfl⟩
  · exact ⟨_, rfl⟩
  · split
    · exact hspill _ _ _ _
    · cases hinherit : (s.expire (inp.ranges i).first).inherit inp i with
      | none =>
        rw [Option.getD_none, Scan.place]
        dsimp only
        split
        · exact ⟨_, rfl⟩
        · exact hspill _ _ _ _
      | some s' =>
        rw [Option.getD_some]
        rw [Scan.inherit] at hinherit
        split at hinherit
        · cases hinherit
        · split at hinherit
          · cases hinherit
            exact ⟨_, rfl⟩
          · split_ifs at hinherit
            cases hinherit
            exact ⟨_, rfl⟩
          · split_ifs at hinherit
            cases hinherit
            exact ⟨_, rfl⟩

theorem foldl_step_locs {inp : ScanInput} {is : List Nat} {i : Nat} (h : i ∉ is) (s : Scan) :
    (is.foldl (Scan.step inp) s).locs i = s.locs i := by
  induction is generalizing s with
  | nil => rfl
  | cons j is ih =>
    rw [List.mem_cons, not_or] at h
    obtain ⟨loc, hloc⟩ := step_locs inp s j
    rw [List.foldl_cons, ih h.2, hloc, Function.update_of_ne h.1]

/-- The step that hands over a clobbered register does so. -/
theorem InheritsClobbered.locs {inp : ScanInput} {s : Scan} {i : Nat}
    (h : InheritsClobbered inp s i) : ∃ x, (s.step inp i).locs i = .xmm x ∧
      (interiorMask inp.xmmMasks (inp.ranges i)).getLsbD x = true := by
  obtain ⟨hid, hty, src, x, hsrc, hx, hbit⟩ := h
  refine ⟨x, ?_, hbit⟩
  have hx' : (s.expire (inp.ranges i).first).locs src = .xmm x := hx
  have hinherit : (s.expire (inp.ranges i).first).inherit inp i = some
      { (s.expire (inp.ranges i).first).setLoc i (.xmm x) with
        xmmActive := Scan.handOver (s.expire (inp.ranges i).first).xmmActive
          (inp.ranges i).last x src i } := by
    rw [Scan.inherit, hsrc]
    dsimp only
    rw [hx']
    dsimp only
    rw [if_pos hid]
  rw [Scan.step, Scan.assign, hid]
  dsimp only
  rw [if_neg hty, hinherit]
  exact Function.update_self ..

/-- A scan whose result has no vector register clobbered inside a range was clean. -/
theorem cleanScan_of_safe {inp : ScanInput} {is : List Nat} (hnodup : is.Nodup) {s : Scan}
    (hsafe : ∀ i x, (is.foldl (Scan.step inp) s).locs i = .xmm x → i ∈ is →
      (interiorMask inp.xmmMasks (inp.ranges i)).getLsbD x = false) : CleanScan inp s is := by
  induction is generalizing s with
  | nil => exact True.intro
  | cons i is ih =>
    obtain ⟨hi, hnodup⟩ := List.nodup_cons.mp hnodup
    refine ⟨fun hbad => ?_, ih hnodup fun j x hj hmem => hsafe j x hj (.tail _ hmem)⟩
    obtain ⟨x, hx, hbit⟩ := hbad.locs
    have hlast : ((i :: is).foldl (Scan.step inp) s).locs i = .xmm x := by
      rw [List.foldl_cons, foldl_step_locs hi, hx]
    rw [hsafe i x hlast (.head _)] at hbit
    cases hbit

/-! ## The result -/

/-- What the mask of a position says is what the table says of the operation there. -/
theorem xmmMask_getLsbD {features : HostFeatures} {b : Block} {ranges : Ranges} {p x : Nat} :
    ((scanInput features b ranges).xmmMasks.getD p 0).getLsbD x = true ↔
      ∃ w, b.iterLive[p]? = some w ∧
        (clobbersForOp features (b.get w).op).xmm.getLsbD x = true := by
  rw [scanInput]
  dsimp only
  rw [List.getD_eq_getElem?_getD, List.getElem?_map]
  cases hp : b.iterLive[p]? with
  | none => simp
  | some w =>
    simp only [Option.map_some, Option.getD_some, Option.some.injEq, exists_eq_left']
    rw [nodeClobbers]
    split
    · rename_i helim
      rw [show (b.get w).op = .void from beq_iff_eq.mp helim]
      rfl
    · rfl

theorem pool_unclobbered (features : HostFeatures) (op : Op) {r : Nat} (hr : r ∈ allocatableGprs) :
    (clobbersForOp features op).gpr.getLsbD r = false := by
  have hsub := congrArg (·.getLsbD r) (clobbersForOp_gpr features op)
  have hpool : ∀ r ∈ allocatableGprs, callerSavedGprs.getLsbD r = false ∧ r < 16 := by decide
  obtain ⟨hcaller, hlt⟩ := hpool r hr
  rw [BitVec.getLsbD_and, BitVec.getLsbD_not, hcaller] at hsub
  simpa [hlt] using hsub

/-- **Allocations are safe if and only if** no step of the scan hands an identity a vector register
that an operation strictly inside the identity's own range clobbers. -/
theorem allocation_sound_iff (features : HostFeatures) {b : Block} {live : List ValueRef}
    (hwalk : b.Walk b.head live) (hsize : b.code.size ≤ Block.maxNodes)
    (terminalUses : List ValueRef) :
    (linearScan features b (computeLiveRangesWith b terminalUses) allocatableGprs).Sound features b
        (computeLiveRangesWith b terminalUses) ↔
      CleanScan (scanInput features b (computeLiveRangesWith b terminalUses))
        (scanStart allocatableGprs) (intervals b (computeLiveRangesWith b terminalUses)) := by
  have hnumbered := numbered_computeLiveRangesWith hwalk hsize terminalUses
  generalize computeLiveRangesWith b terminalUses = ranges at *
  have hsorted := intervals_pairwise (b := b) hnumbered
  constructor
  · intro hsound
    refine cleanScan_of_safe (hsorted.imp fun hlt heq => ?_) fun i x hx hi => ?_
    · rw [heq] at hlt
      exact Nat.lt_irrefl _ hlt
    · by_contra hbit
      have hlive : (ranges i).isDead = false := by
        have hcond := (List.mem_filter.mp ((intervals_perm b ranges).mem_iff.mp hi)).2
        simp only [Bool.and_eq_true, Bool.not_eq_true'] at hcond
        exact hcond.1
      obtain ⟨p, h1, h2, hp⟩ :=
        (interiorMask_getLsbD hlive).mp (Bool.eq_true_of_not_eq_false hbit)
      obtain ⟨w, hw, hclobber⟩ := xmmMask_getLsbD.mp hp
      rw [(hsound.unclobbered i p w hw h1 h2).2 x hx] at hclobber
      cases hclobber
  · intro hclean
    have hstart : ScanInv (scanInput features b ranges) allocatableGprs
        (scanStart allocatableGprs) 0 := .start (by decide)
    obtain ⟨lim, hinv⟩ := hstart.run hsorted (fun _ _ => Nat.zero_le _) hclean
    refine ⟨?_, ?_⟩
    · intro u v p hne hu hv hu' hv' hshares
      have hoverlap : Overlap (fun i => (ranges i).first) (fun i => (ranges i).last) u v :=
        (max_lt hu hv).trans_le (le_min hu' hv')
      rcases Nat.lt_trichotomy (ranges u).first (ranges v).first with hlt | heq | hgt
      · exact hinv.apart u v hlt hshares hoverlap
      · exact hne (hinv.first_inj u v hshares.symm.ne_none hshares.ne_none heq)
      · exact hinv.apart v u hgt hshares.symm (overlap_comm.mp hoverlap)
    · intro v p w hw h1 h2
      refine ⟨fun r hr => pool_unclobbered features _ (hinv.reg_pool v r hr), fun x hx => ?_⟩
      have hlive : (ranges v).isDead = false := by
        by_contra hdead
        rw [Bool.not_eq_false, LiveRange.isDead, beq_iff_eq] at hdead
        rw [LiveRange.last, hdead] at h2
        rw [LiveRange.first] at h1
        simp at h2
        omega
      by_contra hclobber
      have hbit : (interiorMask (scanInput features b ranges).xmmMasks (ranges v)).getLsbD x = true :=
        (interiorMask_getLsbD hlive).mpr ⟨p, h1, h2, xmmMask_getLsbD.mpr
          ⟨w, hw, Bool.eq_true_of_not_eq_false hclobber⟩⟩
      have hsafe := hinv.safe v x hx
      exact absurd (hsafe.symm.trans hbit) (by decide)

/-- Five registers are read and the fifth is copied, with a load between the copy and its use. -/
def crowdedBlock : Block := (Block.new 0x1000).pushAll
  [(Armlet.new .getX .u64).withImm 0, (Armlet.new .getX .u64).withImm 1,
    (Armlet.new .getX .u64).withImm 2, (Armlet.new .getX .u64).withImm 3,
    (Armlet.new .getX .u64).withImm 4, (Armlet.new .identity .u64).withArgs [5],
    (Armlet.new .load64 .u64).withArgs [1], (Armlet.new .setX .void).withArgs [6],
    ((Armlet.new .setX .void).withArgs [2]).withImm 1,
    ((Armlet.new .setX .void).withArgs [3]).withImm 2,
    ((Armlet.new .setX .void).withArgs [4]).withImm 3]

/-- The copy is handed `xmm6` and the load, which may call out, is inside its range. -/
theorem copy_is_clobbered :
    crowdedBlock.iterLive = [1, 2, 3, 4, 5, 6, 7, 8, 9, 10, 11] ∧
      (linearScan ⟨true, true⟩ crowdedBlock (computeLiveRangesWith crowdedBlock [])
        allocatableGprs).locs 6 = .xmm 6 ∧
      computeLiveRangesWith crowdedBlock [] 6 = ⟨5, 3⟩ ∧
      ¬ (linearScan ⟨true, true⟩ crowdedBlock (computeLiveRangesWith crowdedBlock [])
        allocatableGprs).Sound ⟨true, true⟩ crowdedBlock
          (computeLiveRangesWith crowdedBlock []) := by
  have hloc : (linearScan ⟨true, true⟩ crowdedBlock (computeLiveRangesWith crowdedBlock [])
      allocatableGprs).locs 6 = .xmm 6 := by decide +kernel
  have hrange : computeLiveRangesWith crowdedBlock [] 6 = ⟨5, 3⟩ := by decide +kernel
  refine ⟨by decide +kernel, hloc, hrange, fun h => ?_⟩
  have hsafe := (h.unclobbered 6 6 7 (by decide +kernel) (by rw [hrange]; decide)
    (by rw [hrange]; decide)).2 6 hloc
  revert hsafe
  decide +kernel

/-- A register is read, copied and written back. -/
def copyBlock : Block := (Block.new 0x1000).pushAll
  [Armlet.new .getX .u64, (Armlet.new .identity .u64).withArgs [1],
    ((Armlet.new .setX .void).withArgs [2]).withImm 1]

theorem allocation_sound_copyBlock :
    (linearScan ⟨false, false⟩ copyBlock (computeLiveRangesWith copyBlock [])
      allocatableGprs).Sound ⟨false, false⟩ copyBlock (computeLiveRangesWith copyBlock []) := by
  have hwalk : copyBlock.Walk copyBlock.head [1, 2, 3] :=
    .cons (by decide) (by decide) (.cons (by decide) (by decide)
      (.cons (by decide) (by decide) .nil))
  refine (allocation_sound_iff ⟨false, false⟩ hwalk (by decide) []).mpr ?_
  have hintervals : intervals copyBlock (computeLiveRangesWith copyBlock []) = [1, 2] := by
    decide +kernel
  rw [hintervals]
  refine ⟨?_, ?_, True.intro⟩
  · rintro ⟨hid, -⟩
    revert hid
    decide +kernel
  · rintro ⟨-, -, src, x, hsrc, hx, -⟩
    have h1 : Scan.dyingSource (scanInput ⟨false, false⟩ copyBlock
        (computeLiveRangesWith copyBlock [])) 2 = some 1 := by decide +kernel
    obtain rfl : 1 = src := Option.some.inj (h1.symm.trans hsrc)
    have h3 : ((scanStart allocatableGprs).step (scanInput ⟨false, false⟩ copyBlock
        (computeLiveRangesWith copyBlock [])) 1).locs 1 = .reg 3 := by decide +kernel
    rw [h3] at hx
    cases hx

end Rustarmic
