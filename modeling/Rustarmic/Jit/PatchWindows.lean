import Rustarmic.Jit.CacheOps

/-!
# The windows of a flush

`flush_patches` opens one window of pages after another for writing.  What matters is that every
patch falls into the window that is open when it is written, and that no window shuts the pages of
another.

* `FlushEvent`, `flushEvents` — what a flush does, in order: pages are made writable, patches are
  written, the pages are made executable again.
* `Permitted` — along the events, all bytes of every site are writable when it is written.
* `flushPatches_exact` — the result, for every queue and every order of equal sites.
-/

set_option autoImplicit false

namespace Rustarmic

open ByteMemory

namespace CodeCache

variable {page : Nat} {g cur : PatchGroup} {p : Patch} {rest l : List Patch}

/-! ## Pages -/

theorem pageDown_le (page a : Nat) : pageDown page a ≤ a := Nat.div_mul_le_self a page

theorem le_pageUp (hpage : 0 < page) (a : Nat) : a ≤ pageUp page a := by
  have h := Nat.lt_div_mul_add hpage (a := a + page - 1)
  rw [pageUp]
  omega

theorem dvd_pageDown (page a : Nat) : page ∣ pageDown page a := Nat.dvd_mul_left page _

theorem dvd_pageUp (page a : Nat) : page ∣ pageUp page a := Nat.dvd_mul_left page _

theorem pageDown_of_dvd {a : Nat} (h : page ∣ a) : pageDown page a = a := Nat.div_mul_cancel h

theorem pageUp_of_dvd (hpage : 0 < page) {a : Nat} (h : page ∣ a) : pageUp page a = a := by
  obtain ⟨k, rfl⟩ := h
  rw [pageUp, Nat.add_sub_assoc hpage, Nat.mul_add_div hpage, Nat.div_eq_of_lt (by omega),
    Nat.add_zero, Nat.mul_comm]

theorem pageDown_mono (page : Nat) {a a' : Nat} (h : a ≤ a') : pageDown page a ≤ pageDown page a' :=
  Nat.mul_le_mul_right page (Nat.div_le_div_right h)

theorem ofNat_sub_one {n : Nat} (hpos : 0 < n) (hlt : n < 2 ^ 64) :
    BitVec.ofNat 64 n - 1 = BitVec.ofNat 64 (n - 1) := by
  apply BitVec.eq_of_toNat_eq
  have hone : (1 : U64).toNat = 1 := rfl
  rw [BitVec.toNat_sub, BitVec.toNat_ofNat, BitVec.toNat_ofNat, hone]
  omega

/-- `a & !(page - 1)` as the source writes it, for the page size `2 ^ k`. -/
theorem pageDown_usize (a : U64) {k : Nat} (hk : k < 64) :
    (a &&& ~~~(BitVec.ofNat 64 (2 ^ k) - 1)).toNat = pageDown (2 ^ k) a.toNat := by
  have hmask := ofNat_sub_one (Nat.two_pow_pos k) (Nat.pow_lt_pow_right (by decide) hk)
  rw [hmask, pageDown, ← Nat.shiftRight_eq_div_pow, ← Nat.shiftLeft_eq]
  apply Nat.eq_of_testBit_eq
  intro i
  rw [BitVec.testBit_toNat, BitVec.getLsbD_and, BitVec.getLsbD_not, BitVec.getLsbD_ofNat,
    Nat.testBit_two_pow_sub_one, Nat.testBit_shiftLeft, Nat.testBit_shiftRight, BitVec.testBit_toNat]
  by_cases hik : k ≤ i
  · rw [Nat.add_sub_cancel' hik]
    by_cases hi : i < 64
    · simp [hi, hik]
    · simp [hi, hik, BitVec.getLsbD_of_ge a i (by omega)]
  · have hi : i < 64 := by omega
    simp [hi, hik, show i < k by omega]

/-- `(a + page - 1) & !(page - 1)` as the source writes it, where the sum does not overflow. -/
theorem pageUp_usize (a : U64) {k : Nat} (hk : k < 64)
    (hfit : a.toNat + 2 ^ k ≤ 2 ^ 64) :
    ((a + BitVec.ofNat 64 (2 ^ k) - 1) &&& ~~~(BitVec.ofNat 64 (2 ^ k) - 1)).toNat =
      pageUp (2 ^ k) a.toNat := by
  have hlt : 2 ^ k < 2 ^ 64 := Nat.pow_lt_pow_right (by decide) hk
  have hpos := Nat.two_pow_pos k
  have hone : (1 : U64).toNat = 1 := rfl
  have hsum : (a + BitVec.ofNat 64 (2 ^ k) - 1).toNat = a.toNat + 2 ^ k - 1 := by
    rw [BitVec.toNat_sub, BitVec.toNat_add, BitVec.toNat_ofNat, hone, Nat.mod_eq_of_lt hlt]
    omega
  rw [pageDown_usize _ hk, hsum]
  rfl

/-! ## Groups -/

/-- The window of a group consists of whole pages and contains all bytes of its sites. -/
structure PatchGroup.Covers (page : Nat) (g : PatchGroup) : Prop where
  lo_dvd : page ∣ g.lo
  hi_dvd : page ∣ g.hi
  covers : ∀ p ∈ g.patches, g.lo ≤ p.1 ∧ p.1 + siteLen ≤ g.hi
  nonempty : g.patches ≠ []

theorem PatchGroup.Covers.start (hpage : 0 < page) (p : Patch) :
    PatchGroup.Covers page ⟨pageDown page p.1, pageUp page (p.1 + siteLen), [p]⟩ where
  lo_dvd := dvd_pageDown page p.1
  hi_dvd := dvd_pageUp page _
  covers q hq := by
    rw [List.mem_singleton.mp hq]
    exact ⟨pageDown_le page p.1, le_pageUp hpage _⟩
  nonempty := List.cons_ne_nil p []

theorem PatchGroup.Covers.extend (h : cur.Covers page) (hpage : 0 < page) (hp : cur.lo ≤ p.1) :
    PatchGroup.Covers page
      { cur with hi := max cur.hi (pageUp page (p.1 + siteLen)), patches := cur.patches ++ [p] } where
  lo_dvd := h.lo_dvd
  hi_dvd := by
    dsimp only
    rcases max_choice cur.hi (pageUp page (p.1 + siteLen)) with hmax | hmax
    · rw [hmax]
      exact h.hi_dvd
    · rw [hmax]
      exact dvd_pageUp page _
  covers q hq := by
    dsimp only at hq ⊢
    rcases List.mem_append.mp hq with hq | hq
    · obtain ⟨h1, h2⟩ := h.covers q hq
      exact ⟨h1, h2.trans (le_max_left ..)⟩
    · rw [List.mem_singleton.mp hq]
      exact ⟨hp, (le_pageUp hpage _).trans (le_max_right ..)⟩
  nonempty := by simp

/-- **Groups.**  From sorted patches, every group covers its sites, and each group begins above the
end of the ones before it. -/
theorem patchGroupsFrom_covers (hpage : 0 < page) (h : cur.Covers page)
    (hcur : ∀ p ∈ rest, cur.lo ≤ p.1) (hsorted : rest.Pairwise fun p q => p.1 ≤ q.1) :
    (∀ g ∈ patchGroupsFrom page cur rest, g.Covers page ∧ cur.lo ≤ g.lo) ∧
      (patchGroupsFrom page cur rest).Pairwise fun g g' => g.hi < g'.lo := by
  induction rest generalizing cur with
  | nil =>
    rw [patchGroupsFrom]
    refine ⟨fun g hg => ?_, List.pairwise_singleton _ _⟩
    rw [List.mem_singleton.mp hg]
    exact ⟨h, le_rfl⟩
  | cons p rest ih =>
    obtain ⟨hp, hsorted⟩ := List.pairwise_cons.mp hsorted
    obtain ⟨hcurp, hcur⟩ := List.forall_mem_cons.mp hcur
    rw [patchGroupsFrom]
    split
    case isTrue => exact ih (h.extend hpage hcurp) hcur hsorted
    case isFalse hlt =>
      obtain ⟨hall, hpair⟩ := ih (.start hpage p)
        (fun q hq => (pageDown_le page p.1).trans (hp q hq)) hsorted
      have hlo : cur.lo ≤ pageDown page p.1 := by
        rw [← pageDown_of_dvd h.lo_dvd]
        exact pageDown_mono page hcurp
      refine ⟨fun g hg => ?_, List.pairwise_cons.mpr ⟨fun g hg => ?_, hpair⟩⟩
      · rcases List.mem_cons.mp hg with rfl | hg
        · exact ⟨h, le_rfl⟩
        · exact ⟨(hall g hg).1, hlo.trans (hall g hg).2⟩
      · exact (not_le.mp hlt).trans_le (hall g hg).2

theorem patchGroups_covers (hpage : 0 < page) (hsorted : l.Pairwise fun p q => p.1 ≤ q.1) :
    (∀ g ∈ patchGroups page l, g.Covers page) ∧
      (patchGroups page l).Pairwise fun g g' => g.hi < g'.lo := by
  cases l with
  | nil => exact ⟨by simp [patchGroups], List.Pairwise.nil⟩
  | cons p l =>
    obtain ⟨hp, hsorted⟩ := List.pairwise_cons.mp hsorted
    obtain ⟨hall, hpair⟩ := patchGroupsFrom_covers hpage (.start hpage p)
      (fun q hq => (pageDown_le page p.1).trans (hp q hq)) hsorted
    exact ⟨fun g hg => (hall g hg).1, hpair⟩

/-! ## What a flush does, step by step -/

/-- The pages `with_writable(addr, len)` opens. -/
def withWritable (page addr len : Nat) : Nat × Nat := (pageDown page addr, pageUp page (addr + len))

inductive FlushEvent where
  /-- The bytes from `lo` up to `hi` are made writable, or executable again. -/
  | protect (lo hi : Nat) (writable : Bool)
  | write (p : Patch)
  deriving DecidableEq, Repr

/-- Each group opens its window, writes its patches and closes the window. -/
def flushEvents (page : Nat) (groups : List PatchGroup) : List FlushEvent :=
  groups.flatMap fun g =>
    let w := withWritable page g.lo (g.hi - g.lo)
    .protect w.1 w.2 true :: g.patches.map .write ++ [.protect w.1 w.2 false]

namespace FlushEvent

def memory (m : Mem) : FlushEvent → Mem
  | protect _ _ _ => m
  | write p => write32 m (p.1 + siteRelOffset) p.2

/-- Which bytes are writable after the event. -/
def protection (w : Nat → Bool) : FlushEvent → Nat → Bool
  | protect lo hi writable, a => if lo ≤ a ∧ a < hi then writable else w a
  | write _, a => w a

def patch? : FlushEvent → Option Patch
  | protect _ _ _ => none
  | write p => some p

/-- A write needs every byte of the site to be writable. -/
def Allowed (w : Nat → Bool) : FlushEvent → Prop
  | protect _ _ _ => True
  | write p => ∀ k < siteLen, w (p.1 + k) = true

end FlushEvent

/-- Every event is allowed by the protections that the ones before it leave. -/
def Permitted : (Nat → Bool) → List FlushEvent → Prop
  | _, [] => True
  | w, e :: es => e.Allowed w ∧ Permitted (e.protection w) es

theorem permitted_append {w : Nat → Bool} {es es' : List FlushEvent} :
    Permitted w (es ++ es') ↔
      Permitted w es ∧ Permitted (es.foldl FlushEvent.protection w) es' := by
  induction es generalizing w with
  | nil => simp [Permitted]
  | cons e es ih => rw [List.cons_append, Permitted, Permitted, ih, List.foldl_cons, and_assoc]

/-- Writing changes no protection. -/
theorem foldl_protection_write (w : Nat → Bool) (ps : List Patch) :
    (ps.map FlushEvent.write).foldl FlushEvent.protection w = w := by
  induction ps with
  | nil => rfl
  | cons p ps ih => exact ih

theorem permitted_writes {w : Nat → Bool} {ps : List Patch}
    (h : ∀ p ∈ ps, ∀ k < siteLen, w (p.1 + k) = true) : Permitted w (ps.map .write) := by
  induction ps with
  | nil => trivial
  | cons p ps ih =>
    obtain ⟨hp, hps⟩ := List.forall_mem_cons.mp h
    exact ⟨hp, ih hps⟩

/-- The window that is opened is the one the group asks for. -/
theorem PatchGroup.Covers.window (h : g.Covers page) (hpage : 0 < page) :
    withWritable page g.lo (g.hi - g.lo) = (g.lo, g.hi) := by
  have hle : g.lo ≤ g.hi := by
    obtain ⟨p, hp⟩ := List.exists_mem_of_ne_nil _ h.nonempty
    obtain ⟨h1, h2⟩ := h.covers p hp
    omega
  rw [withWritable, Nat.add_sub_cancel' hle, pageDown_of_dvd h.lo_dvd,
    pageUp_of_dvd hpage h.hi_dvd]

/-- **One window after another.**  With nothing writable to begin with, every write is allowed, and
nothing is writable in the end. -/
theorem permitted_flushEvents (hpage : 0 < page) {groups : List PatchGroup}
    (h : ∀ g ∈ groups, g.Covers page) :
    Permitted (fun _ => false) (flushEvents page groups) ∧
      (flushEvents page groups).foldl FlushEvent.protection (fun _ => false) = fun _ => false := by
  induction groups with
  | nil => exact ⟨trivial, rfl⟩
  | cons g groups ih =>
    obtain ⟨hg, hgroups⟩ := List.forall_mem_cons.mp h
    have hclosed : ([FlushEvent.protect g.lo g.hi false].foldl FlushEvent.protection
        ((FlushEvent.protect g.lo g.hi true).protection fun _ => false)) = fun _ => false := by
      funext a
      simp only [List.foldl_cons, List.foldl_nil, FlushEvent.protection]
      split_ifs <;> rfl
    have hevents : flushEvents page (g :: groups) =
        (FlushEvent.protect g.lo g.hi true :: g.patches.map .write ++
          [FlushEvent.protect g.lo g.hi false]) ++ flushEvents page groups := by
      rw [flushEvents, List.flatMap_cons, hg.window hpage]
      rfl
    have hafter : (FlushEvent.protect g.lo g.hi true :: g.patches.map .write ++
        [FlushEvent.protect g.lo g.hi false]).foldl FlushEvent.protection (fun _ => false) =
        fun _ => false := by
      rw [List.cons_append, List.foldl_cons, List.foldl_append, foldl_protection_write, hclosed]
    rw [hevents, permitted_append, hafter, List.foldl_append, hafter]
    refine ⟨⟨⟨trivial, permitted_append.mpr ⟨permitted_writes fun p hp k hk => ?_, trivial, trivial⟩⟩,
      (ih hgroups).1⟩, (ih hgroups).2⟩
    obtain ⟨h1, h2⟩ := hg.covers p hp
    exact if_pos ⟨by omega, by omega⟩

/-- The patches written are those of the groups, in their order. -/
theorem filterMap_flushEvents (page : Nat) (groups : List PatchGroup) :
    (flushEvents page groups).filterMap FlushEvent.patch? = groups.flatMap (·.patches) := by
  induction groups with
  | nil => rfl
  | cons g groups ih =>
    have hwrites : (g.patches.map FlushEvent.write).filterMap FlushEvent.patch? = g.patches := by
      rw [List.filterMap_map]
      exact List.filterMap_some
    rw [flushEvents, List.flatMap_cons, ← flushEvents, List.filterMap_append, ih, List.cons_append,
      List.filterMap_cons_none rfl, List.filterMap_append, hwrites, List.flatMap_cons]
    simp [FlushEvent.patch?]

/-- The events leave the memory that `writeGroup` leaves. -/
theorem foldl_memory_flushEvents (page : Nat) (m : Mem) (groups : List PatchGroup) :
    (flushEvents page groups).foldl FlushEvent.memory m = groups.foldl writeGroup m := by
  induction groups generalizing m with
  | nil => rfl
  | cons g groups ih =>
    have hwrites : (g.patches.map FlushEvent.write).foldl FlushEvent.memory m = writeGroup m g := by
      rw [List.foldl_map]
      rfl
    rw [flushEvents, List.flatMap_cons, ← flushEvents, List.foldl_append, ih, List.cons_append,
      List.foldl_cons, List.foldl_append, FlushEvent.memory, hwrites]
    rfl

/-- **Flushing.**  For every queue and every order in which the sort leaves patches of one site: the
flush makes the writes of its events and empties the queue; every queued patch is written once; the
window opened for a group is its own, consists of whole pages and contains every byte of its sites;
no two windows share a page; and every write finds all bytes of its site writable, although nothing
is before and after the flush. -/
theorem flushPatches_exact (c : CodeCache) (srt : UnstableSort) :
    let groups := patchGroups c.memory.page (srt.sort c.patches)
    let events := flushEvents c.memory.page groups
    (c.flushPatches srt).code = events.foldl FlushEvent.memory c.code ∧
      (c.flushPatches srt).patches = [] ∧
      (events.filterMap FlushEvent.patch?).Perm c.patches ∧
      (∀ g ∈ groups, withWritable c.memory.page g.lo (g.hi - g.lo) = (g.lo, g.hi) ∧
        ∀ p ∈ g.patches, g.lo ≤ p.1 ∧ p.1 + siteLen ≤ g.hi) ∧
      (groups.Pairwise fun g g' => ∀ a a', g.lo ≤ a → a < g.hi → g'.lo ≤ a' → a' < g'.hi →
        a / c.memory.page ≠ a' / c.memory.page) ∧
      Permitted (fun _ => false) events ∧
      events.foldl FlushEvent.protection (fun _ => false) = fun _ => false := by
  intro groups events
  have hpage : 0 < c.memory.page := by
    obtain ⟨k, hk⟩ := c.memory.page_pow
    rw [hk]
    exact Nat.two_pow_pos k
  obtain ⟨hcovers, hpair⟩ := patchGroups_covers hpage (srt.sorted c.patches)
  obtain ⟨hperm, hclosed⟩ := permitted_flushEvents hpage hcovers
  refine ⟨(foldl_memory_flushEvents ..).symm, rfl, ?_, fun g hg => ?_, ?_, hperm, hclosed⟩
  · rw [filterMap_flushEvents, patchGroups_patches]
    exact srt.perm c.patches
  · exact ⟨(hcovers g hg).window hpage, (hcovers g hg).covers⟩
  · refine hpair.imp_of_mem fun hg hg' hlt a a' _ ha ha' _ heq => ?_
    -- The end of the first window is a page boundary between the two addresses.
    obtain ⟨k, hk⟩ := (hcovers _ hg).hi_dvd
    have h1 : a / c.memory.page < k := by
      rw [Nat.div_lt_iff_lt_mul hpage, Nat.mul_comm, ← hk]
      exact ha
    have h2 : k ≤ a' / c.memory.page := by
      rw [Nat.le_div_iff_mul_le hpage, Nat.mul_comm, ← hk]
      omega
    omega

end CodeCache

end Rustarmic
