import Rustarmic.Jit.CacheOps
import Rustarmic.Jit.DirectSites

/-!
# Where blocks are published

The code cache with its registry of direct accesses, and a log of what it has published since the
last reset.  A publication is sixteen-byte aligned, lies past everything published before it, and
lies in the allocation together with the pages that are made executable for it.

* `publicationRangeChecked` — the size arithmetic of the source, with every unchecked operator
  stopping on overflow; `publicationRangeChecked_eq` shows that none ever does.
* `SitedCache.system` — the runs of the cache with its registry.
* `publication_safe` — the published ranges are apart, and a failed call changes nothing.
* `find_exact` — the registry finds exactly the direct accesses of the published blocks.

The log is a ghost: no operation reads it, and `exec_cache` says that the cache inside is the cache
of `Jit.CacheOps` running on its own.  It is what makes a statement about *all* publications
possible, as the cache itself keeps the cached blocks only.  A block that was replaced or
invalidated is still where it was, its direct accesses may still fault, and the handler has to find
them; it is a reset that forgets everything at once.

`Stacked` is the invariant.  Ranges go upwards and the cursor is above the last one, so that a new
range is apart from all others by one comparison.  The same invariant serves the registry: sites of
a new block come behind all the others, and the registry can be searched by offset.
-/

set_option autoImplicit false

namespace Rustarmic

open SiteRegistry ByteMemory

/-! ## Size arithmetic -/

/-- `a * b`, which panics on overflow. -/
def usizeMul (a b : Nat) : Option Nat := if a * b < 2 ^ 64 then some (a * b) else none

/-- `a - b`, which panics on overflow. -/
def usizeSub (a b : Nat) : Option Nat := if b ≤ a then some (a - b) else none

/-- `publication_range` with the operators that are not `checked_add` written as operations that
panic; `none` is a panic. -/
def publicationRangeChecked (page cursor len capacity : Nat) :
    Option (Except Error PublicationRange) :=
  if len = 0 then some (.error (.backend "cannot publish an empty code block"))
  else if 2 ^ 64 ≤ cursor + 15 then some (.error .codeCacheFull)
  else
    let byteStart := (cursor + 15) / 16 * 16
    if 2 ^ 64 ≤ byteStart + len then some (.error .codeCacheFull)
    else
      let byteEnd := byteStart + len
      if capacity < byteEnd then some (.error .codeCacheFull)
      else
        (usizeMul (byteStart / page) page).bind fun pageStart =>
        (usizeSub page 1).bind fun slack =>
        if 2 ^ 64 ≤ byteEnd + slack then some (.error .codeCacheFull)
        else
          (usizeMul ((byteEnd + slack) / page) page).bind fun pageEnd =>
          if capacity < pageEnd then some (.error .codeCacheFull)
          else
            (usizeSub pageEnd pageStart).map fun pageLen =>
              .ok ⟨byteStart, byteEnd, pageStart, pageLen⟩

theorem usizeMul_div {a : Nat} (h : a < 2 ^ 64) (page : Nat) :
    usizeMul (a / page) page = some (a / page * page) := by
  have hle := Nat.div_mul_le_self a page
  rw [usizeMul, if_pos (by omega)]

/-- **No operator overflows**, whatever the cursor and the length. -/
theorem publicationRangeChecked_eq {page : Nat} (hpage : 0 < page) (cursor len capacity : Nat) :
    publicationRangeChecked page cursor len capacity =
      some (publicationRange page cursor len capacity) := by
  rw [publicationRangeChecked, publicationRange]
  dsimp only
  split_ifs with h1 h2 h3 h4 h5 h6
  · rfl
  · rfl
  · rfl
  · rfl
  all_goals
    rw [usizeMul_div (by omega), usizeSub, if_pos (by omega)]
    dsimp only [Option.bind_some]
  · rw [if_pos h5]
  · rw [if_neg h5, usizeMul_div (by omega), Option.bind_some, if_pos h6]
  · -- The end of the last page of the block is not before its first page.
    have hmono := Nat.div_le_div_right (c := page)
      (by omega : (cursor + 15) / 16 * 16 ≤ (cursor + 15) / 16 * 16 + len + (page - 1))
    rw [if_neg h5, usizeMul_div (by omega), Option.bind_some, if_neg h6, usizeSub,
      if_pos (Nat.mul_le_mul_right page hmono)]
    rfl

/-! ## Ranges -/

/-- A range a cache over `m` may publish. -/
structure PublicationRange.Fits (m : CodeMemory) (r : PublicationRange) : Prop where
  aligned : 16 ∣ r.byteStart
  nonempty : r.byteStart < r.byteEnd
  byteEnd_le : r.byteEnd ≤ m.len
  pageStart_le : r.pageStart ≤ r.byteStart
  byteEnd_le_pages : r.byteEnd ≤ r.pageStart + r.pageLen
  pages_le : r.pageStart + r.pageLen ≤ m.len
  page_dvd_start : m.page ∣ r.pageStart
  page_dvd_len : m.page ∣ r.pageLen

theorem CodeMemory.page_pos (m : CodeMemory) : 0 < m.page := by
  obtain ⟨k, hk⟩ := m.page_pow
  rw [hk]
  exact Nat.two_pow_pos k

theorem publicationRange_fits {m : CodeMemory} {cursor len : Nat} {r : PublicationRange}
    (h : publicationRange m.page cursor len m.len = .ok r) : r.Fits m ∧ cursor ≤ r.byteStart := by
  have hpage := m.page_pos
  rw [publicationRange] at h
  split_ifs at h with h1 h2
  dsimp only at h
  split_ifs at h with h3 h4 h5 h6
  cases h
  have hstart := Nat.div_mul_le_self ((cursor + 15) / 16 * 16) m.page
  have hup := Nat.lt_div_mul_add hpage (a := (cursor + 15) / 16 * 16 + len + (m.page - 1))
  have hmono := Nat.mul_le_mul_right m.page (Nat.div_le_div_right (c := m.page)
    (by omega : (cursor + 15) / 16 * 16 ≤ (cursor + 15) / 16 * 16 + len + (m.page - 1)))
  refine ⟨?_, by dsimp only; omega⟩
  exact
    { aligned := Nat.dvd_mul_left _ _
      nonempty := by dsimp only; omega
      byteEnd_le := by dsimp only; omega
      pageStart_le := hstart
      byteEnd_le_pages := by dsimp only; omega
      pages_le := by dsimp only; omega
      page_dvd_start := Nat.dvd_mul_left _ _
      page_dvd_len := Nat.dvd_sub (Nat.dvd_mul_left _ _) (Nat.dvd_mul_left _ _) }

/-- Only these two errors refuse a publication. -/
theorem publicationRange_error {page cursor len capacity : Nat} {e : Error}
    (h : publicationRange page cursor len capacity = .error e) :
    e = .codeCacheFull ∨ e = .backend "cannot publish an empty code block" := by
  rw [publicationRange] at h
  split_ifs at h with h1 h2
  · cases h
    exact .inr rfl
  · cases h
    exact .inl rfl
  · dsimp only at h
    split_ifs at h <;> cases h <;> exact .inl rfl

/-! ## What the operations of the cache append -/

namespace CodeCache

variable {c c' : CodeCache}

/-- The cache after a publication: the memory of `c`, and the cursor at the end of the range. -/
structure Appended (c c' : CodeCache) (r : PublicationRange) : Prop where
  memory : c'.memory = c.memory
  stubs : c'.stubs = c.stubs
  cursor : c'.cursor = r.byteEnd

theorem appendRaw_range {bytes : List U8} {host : Nat} (h : c.appendRaw bytes = (c', .ok host)) :
    ∃ r, publicationRange c.memory.page c.cursor bytes.length c.memory.len = .ok r ∧
      host = c.memory.base + r.byteStart ∧ Appended c c' r := by
  rw [appendRaw] at h
  split at h
  · cases h
  · rename_i r hr
    cases h
    exact ⟨r, hr, rfl, rfl, rfl, rfl⟩

theorem sameLayout_installCached (c : CodeCache) (srt : UnstableSort) (guestPc : U64)
    (entry : Entry) (chains : List ChainSite) :
    SameLayout c (c.installCached srt guestPc entry chains) := by
  obtain ⟨hmem, hstubs, -, hcur, -⟩ := removeBlock_frame c guestPc
  rw [installCached_eq]
  exact ⟨hmem, hstubs, hcur⟩

theorem sameLayout_lookup (c : CodeCache) (pc : U64) :
    SameLayout c (c.lookupDispatchMeta pc).1 := by
  rw [lookupDispatchMeta]
  split_ifs
  · exact ⟨rfl, rfl, rfl⟩
  · rw [lookupMetaMiss]
    split <;> exact ⟨rfl, rfl, rfl⟩

theorem sameLayout_invalidateRange (c : CodeCache) (srt : UnstableSort) (order : List U64)
    (start len : U64) : SameLayout c (c.invalidateRange srt order start len) := by
  obtain ⟨hmem, hstubs, -, hcur, -⟩ := foldl_removeBlock_frame (c.doomed order start len) c
  rw [invalidateRange_eq]
  exact ⟨hmem, hstubs, hcur⟩

/-- An install changes nothing or publishes the code of the block. -/
theorem installBlock_range (c : CodeCache) (srt : UnstableSort) (guestPc : U64)
    (ranges : List (U64 × U64)) (guestInsns : U32) (block : EmittedBlock) (cap : Option U32) :
    (∃ e, publicationRange c.memory.page c.cursor block.code.length c.memory.len = .error e ∧
        c.installBlock srt guestPc ranges guestInsns block cap = (c, .error e)) ∨
      ∃ c' r, publicationRange c.memory.page c.cursor block.code.length c.memory.len = .ok r ∧
        c.installBlock srt guestPc ranges guestInsns block cap =
          (c', .ok (c.memory.base + r.byteStart)) ∧ Appended c c' r := by
  cases hr : publicationRange c.memory.page c.cursor block.code.length c.memory.len with
  | error e =>
    refine .inl ⟨e, rfl, ?_⟩
    rw [installBlock, appendRaw, hr]
  | ok r =>
    refine .inr ?_
    rw [installBlock, appendRaw, hr]
    dsimp only
    cases cap with
    | some k => exact ⟨_, r, rfl, rfl, rfl, rfl, rfl⟩
    | none =>
      obtain ⟨hmem, hstubs, hcur⟩ := sameLayout_installCached
        (({ c with code := writeBytes c.code (c.memory.base + r.byteStart) block.code
                   cursor := r.byteEnd } : CodeCache).publish guestPc
          (c.memory.base + r.byteStart) block.chains) srt guestPc
        (entryOf guestPc ranges guestInsns block (c.memory.base + r.byteStart)) block.chains
      exact ⟨_, r, rfl, rfl, hmem, hstubs, hcur⟩

theorem installEmitted_range (c : CodeCache) (srt : UnstableSort) (guestPc guestEnd : U64)
    (guestInsns : U32) (code : List U8) (cacheBlock : Bool) (thunkKind : ThunkKind) :
    (∃ e, publicationRange c.memory.page c.cursor code.length c.memory.len = .error e ∧
        c.installEmitted srt guestPc guestEnd guestInsns code cacheBlock thunkKind =
          (c, .error e)) ∨
      ∃ c' r, publicationRange c.memory.page c.cursor code.length c.memory.len = .ok r ∧
        c.installEmitted srt guestPc guestEnd guestInsns code cacheBlock thunkKind =
          (c', .ok (c.memory.base + r.byteStart)) ∧ Appended c c' r := by
  rw [installEmitted]
  cases cacheBlock with
  | true => exact installBlock_range c srt guestPc _ guestInsns (plainBlock code thunkKind) none
  | false =>
    rw [if_neg Bool.false_ne_true, appendRaw]
    cases hr : publicationRange c.memory.page c.cursor code.length c.memory.len with
    | error e => exact .inl ⟨e, rfl, rfl⟩
    | ok r => exact .inr ⟨_, r, rfl, rfl, rfl, rfl, rfl⟩

end CodeCache

/-! ## The cache with its registry -/

/-- The direct accesses of an emitted block: each inside the code, no two at one offset. -/
structure DirectSites (block : EmittedBlock) where
  sites : List DirectSite
  inside : ∀ s ∈ sites, s.offset.toNat < block.code.length
  apart : sites.Pairwise fun a b => a.offset.toNat ≠ b.offset.toNat

/-- What one append published, and the direct accesses in it. -/
structure Publication where
  range : PublicationRange
  sites : List DirectSite
  deriving DecidableEq, Repr

/-- The code cache with its registry.  The field `log` is a log of the publications since the last
reset; no operation reads it. -/
structure SitedCache where
  cache : CodeCache
  directSites : SiteRegistry
  log : List Publication

/-- What appending bytes to a cache publishes. -/
def publishedBy (c : CodeCache) (bytes : List U8) (sites : List DirectSite) : List Publication :=
  match publicationRange c.memory.page c.cursor bytes.length c.memory.len with
  | .ok r => [⟨r, sites⟩]
  | .error _ => []

/-- The runtime stubs, in the order they are published. -/
def RuntimeStubs.code (stubs : RuntimeStubs) : List (List U8) :=
  stubs.thunk :: stubs.xmmFreeThunk.toList ++ [[0xC3]]

/-- What appending codes one after the other publishes, and the cursor after it. -/
def placed (m : CodeMemory) (cursor : Nat) : List (List U8) → List Publication × Nat
  | [] => ([], cursor)
  | bytes :: rest =>
    match publicationRange m.page cursor bytes.length m.len with
    | .ok r => (⟨r, []⟩ :: (placed m r.byteEnd rest).1, (placed m r.byteEnd rest).2)
    | .error _ => ([], cursor)

namespace SitedCache

/-- Publish a translated block: append it, register its direct accesses, and enter it. -/
def installBlock (s : SitedCache) (srt : UnstableSort) (guestPc : U64) (ranges : List (U64 × U64))
    (guestInsns : U32) (block : EmittedBlock) (direct : DirectSites block) (cap : Option U32) :
    SitedCache × Except Error Nat :=
  match s.cache.installBlock srt guestPc ranges guestInsns block cap with
  | (cache, .error e) => ({ s with cache }, .error e)
  | (cache, .ok host) =>
    ({ cache
       directSites := s.directSites.register host direct.sites
       log := s.log ++ publishedBy s.cache block.code direct.sites }, .ok host)

/-- Publish a block without direct accesses. -/
def install (s : SitedCache) (srt : UnstableSort) (guestPc guestEnd : U64) (guestInsns : U32)
    (code : List U8) (cacheBlock : Bool) (thunkKind : ThunkKind) : SitedCache × Except Error Nat :=
  match s.cache.installEmitted srt guestPc guestEnd guestInsns code cacheBlock thunkKind with
  | (cache, .error e) => ({ s with cache }, .error e)
  | (cache, .ok host) =>
    ({ s with cache, log := s.log ++ publishedBy s.cache code [] }, .ok host)

def reset (s : SitedCache) : SitedCache × Except Error Unit :=
  ({ cache := s.cache.reset.1
     directSites := s.directSites.clear
     log := (placed s.cache.memory 0 s.cache.stubs.code).1 }, s.cache.reset.2)

end SitedCache

/-! ## The runtime stubs -/

/-- `c'` is what appending `codes` to `c` leaves. -/
structure CodeCache.Placing (c : CodeCache) (codes : List (List U8)) (c' : CodeCache) : Prop where
  memory : c'.memory = c.memory
  stubs : c'.stubs = c.stubs
  cursor : ∀ rest, (placed c.memory c.cursor (codes ++ rest)).2 = (placed c.memory c'.cursor rest).2

namespace CodeCache

variable {c c' : CodeCache}

theorem placing_appendRaw {bytes : List U8} {host : Nat}
    (h : c.appendRaw bytes = (c', .ok host)) : Placing c [bytes] c' := by
  obtain ⟨r, hr, -, hmem, hstubs, hcur⟩ := appendRaw_range h
  refine ⟨hmem, hstubs, fun rest => ?_⟩
  rw [List.singleton_append, placed, hr, hcur]

theorem Placing.trans {codes codes' : List (List U8)} {c'' : CodeCache} (h : Placing c codes c')
    (h' : Placing c' codes' c'') : Placing c (codes ++ codes') c'' where
  memory := h'.memory.trans h.memory
  stubs := h'.stubs.trans h.stubs
  cursor rest := by rw [List.append_assoc, h.cursor, ← h.memory, h'.cursor, h.memory]

theorem placing_publishXmmFreeThunk (h : c.publishXmmFreeThunk = (c', .ok ())) :
    Placing c c.stubs.xmmFreeThunk.toList c' := by
  rw [publishXmmFreeThunk] at h
  dsimp only at h
  split at h
  · rename_i hnone
    cases h
    rw [hnone]
    exact ⟨rfl, rfl, fun rest => rfl⟩
  · rename_i bytes hsome
    split at h
    · cases h
    · rename_i hap
      cases h
      obtain ⟨hmem, hstubs, hcur⟩ := placing_appendRaw hap
      rw [hsome]
      exact ⟨hmem, hstubs, hcur⟩

/-- The stubs are published one after the other. -/
theorem placing_installRuntimeStubs (h : c.installRuntimeStubs = (c', .ok ())) :
    Placing c c.stubs.code c' := by
  rw [installRuntimeStubs] at h
  split at h
  · cases h
  · rename_i d thunk hd
    obtain ⟨hmem, hstubs, hcur⟩ := placing_appendRaw hd
    have hthunk : Placing c [c.stubs.thunk] { d with thunk } := ⟨hmem, hstubs, hcur⟩
    split at h
    · cases h
    · rename_i e he
      have hxmm := hthunk.trans (placing_publishXmmFreeThunk he)
      dsimp only at hxmm
      rw [hstubs] at hxmm
      split at h
      · cases h
      · rename_i f miss hf
        cases h
        obtain ⟨hmem', hstubs', hcur'⟩ := hxmm.trans (placing_appendRaw hf)
        exact ⟨hmem', hstubs', hcur'⟩

end CodeCache

/-! ## Runs -/

/-- One call of an operation of the cache with its registry. -/
inductive SitedOp where
  | installBlock (srt : UnstableSort) (guestPc : U64) (ranges : List (U64 × U64))
      (guestInsns : U32) (block : EmittedBlock) (direct : DirectSites block) (cap : Option U32)
  | install (srt : UnstableSort) (guestPc guestEnd : U64) (guestInsns : U32) (code : List U8)
      (cacheBlock : Bool) (thunkKind : ThunkKind)
  | lookup (pc : U64)
  | invalidateRange (srt : UnstableSort) (order : List U64) (start len : U64)
  | reset

/-- The operation of the cache alone. -/
def SitedOp.cacheOp : SitedOp → CacheOp
  | .installBlock srt guestPc ranges guestInsns block _ cap =>
    .installBlock srt guestPc ranges guestInsns block cap
  | .install srt guestPc guestEnd guestInsns code cacheBlock thunkKind =>
    .install srt guestPc guestEnd guestInsns code cacheBlock thunkKind
  | .lookup pc => .lookup pc
  | .invalidateRange srt order start len => .invalidateRange srt order start len
  | .reset => .reset

namespace SitedCache

/-- The cache after an operation, and whether the operation succeeded. -/
def exec (s : SitedCache) : SitedOp → SitedCache × Except Error Unit
  | .installBlock srt guestPc ranges guestInsns block direct cap =>
    ((s.installBlock srt guestPc ranges guestInsns block direct cap).1,
      (s.installBlock srt guestPc ranges guestInsns block direct cap).2.map fun _ => ())
  | .install srt guestPc guestEnd guestInsns code cacheBlock thunkKind =>
    ((s.install srt guestPc guestEnd guestInsns code cacheBlock thunkKind).1,
      (s.install srt guestPc guestEnd guestInsns code cacheBlock thunkKind).2.map fun _ => ())
  | .lookup pc => ({ s with cache := (s.cache.lookupDispatchMeta pc).1 }, .ok ())
  | .invalidateRange srt order start len =>
    ({ s with cache := s.cache.invalidateRange srt order start len }, .ok ())
  | .reset => s.reset

/-- New caches, and every operation in every order. -/
def system : System SitedCache SitedOp where
  init s := ∃ memory stubs code, CodeCache.new memory stubs code = .ok s.cache ∧
    s.directSites = SiteRegistry.new memory.base ∧ s.log = (placed memory 0 stubs.code).1
  step s op s' := op.cacheOp.Enumerates s.cache ∧ s' = (s.exec op).1

variable {s s' : SitedCache}

/-- The registry and the log are beside the cache, not in its way. -/
theorem exec_cache (s : SitedCache) (op : SitedOp) :
    (s.exec op).1.cache = s.cache.step op.cacheOp := by
  cases op with
  | installBlock srt guestPc ranges guestInsns block direct cap =>
    rw [exec, SitedOp.cacheOp, CodeCache.step, installBlock]
    dsimp only
    split <;> simp only [*]
  | install srt guestPc guestEnd guestInsns code cacheBlock thunkKind =>
    rw [exec, SitedOp.cacheOp, CodeCache.step, install]
    dsimp only
    split <;> simp only [*]
  | lookup pc => rfl
  | invalidateRange srt order start len => rfl
  | reset => rfl

theorem reachable_cache (h : system.Reachable s) : CodeCache.system.Reachable s.cache := by
  induction h with
  | init h =>
    obtain ⟨memory, stubs, code, hnew, -⟩ := h
    exact .init ⟨memory, stubs, code, hnew⟩
  | step op _ hs ih =>
    obtain ⟨henum, rfl⟩ := hs
    rw [exec_cache]
    exact CodeCache.reachable_step ih op.cacheOp henum

/-! ## The log -/

/-- A log of publications one above the other, up to a cursor. -/
structure Stacked (m : CodeMemory) (cursor : Nat) (log : List Publication) : Prop where
  fits : ∀ p ∈ log, p.range.Fits m
  below : ∀ p ∈ log, p.range.byteEnd ≤ cursor
  apart : log.Pairwise fun a b => a.range.byteEnd ≤ b.range.byteStart
  inside : ∀ p ∈ log, ∀ d ∈ p.sites, p.range.byteStart + d.offset.toNat < p.range.byteEnd
  distinct : ∀ p ∈ log, p.sites.Pairwise fun a b => a.offset.toNat ≠ b.offset.toNat

variable {m : CodeMemory} {cursor : Nat} {log : List Publication}

theorem stacked_nil (m : CodeMemory) (cursor : Nat) : Stacked m cursor [] where
  fits := by simp
  below := by simp
  apart := .nil
  inside := by simp
  distinct := by simp

theorem Stacked.append (h : Stacked m cursor log) {len : Nat} {r : PublicationRange}
    (hr : publicationRange m.page cursor len m.len = .ok r) {sites : List DirectSite}
    (hinside : ∀ d ∈ sites, d.offset.toNat < len)
    (hdistinct : sites.Pairwise fun a b => a.offset.toNat ≠ b.offset.toNat) :
    Stacked m r.byteEnd (log ++ [⟨r, sites⟩]) := by
  obtain ⟨hfits, hcur⟩ := publicationRange_fits hr
  obtain ⟨-, -, hend, -⟩ := CodeCache.publicationRange_ok hr
  refine ⟨?_, ?_, ?_, ?_, ?_⟩
  · simpa [or_imp, forall_and] using ⟨h.fits, hfits⟩
  · intro p hp
    rcases List.mem_append.mp hp with hp | hp
    · have := h.below p hp
      omega
    · rw [List.mem_singleton.mp hp]
  · refine List.pairwise_append.mpr ⟨h.apart, List.pairwise_singleton _ _, fun a ha b hb => ?_⟩
    rw [List.mem_singleton.mp hb]
    exact (h.below a ha).trans hcur
  · intro p hp d hd
    rcases List.mem_append.mp hp with hp | hp
    · exact h.inside p hp d hd
    · rw [List.mem_singleton.mp hp] at hd ⊢
      have := hinside d hd
      dsimp only
      omega
  · simpa [or_imp, forall_and] using ⟨h.distinct, hdistinct⟩

theorem Stacked.placed (h : Stacked m cursor log) (codes : List (List U8)) :
    Stacked m (placed m cursor codes).2 (log ++ (placed m cursor codes).1) := by
  induction codes generalizing cursor log with
  | nil => simpa [Rustarmic.placed] using h
  | cons bytes rest ih =>
    rw [Rustarmic.placed]
    split
    · rename_i r hr
      have hnext := ih (h.append hr (by simp) .nil)
      rwa [List.append_assoc] at hnext
    · simpa using h

/-- The direct accesses in the log, with the host addresses of their blocks. -/
def registered (base : Nat) (log : List Publication) : List (Nat × DirectSite) :=
  log.flatMap fun p => p.sites.map (base + p.range.byteStart, ·)

theorem Stacked.inWindow (h : Stacked m cursor log) (hlen : m.len ≤ i32Max) :
    ∀ x ∈ registered m.base log, InWindow m.base x := by
  intro x hx
  obtain ⟨p, hp, hx⟩ := List.mem_flatMap.mp hx
  obtain ⟨d, hd, rfl⟩ := List.mem_map.mp hx
  have hin := h.inside p hp d hd
  have hend := (h.fits p hp).byteEnd_le
  rw [i32Max] at hlen
  exact ⟨by dsimp only; omega, by dsimp only [address]; omega⟩

theorem Stacked.distinct_addresses (h : Stacked m cursor log) (base : Nat) :
    (registered base log).Pairwise (address · ≠ address ·) := by
  rw [registered, List.pairwise_flatMap]
  refine ⟨fun p hp => ?_, ?_⟩
  · rw [List.pairwise_map]
    exact (h.distinct p hp).imp fun hab heq => by dsimp only [address] at heq; omega
  · refine h.apart.imp_of_mem fun {a b} ha hb hab x hx y hy => ?_
    obtain ⟨d, hd, rfl⟩ := List.mem_map.mp hx
    obtain ⟨d', hd', rfl⟩ := List.mem_map.mp hy
    have hin := h.inside a ha d hd
    dsimp only [address]
    omega

/-- The stubs have no direct accesses. -/
theorem registered_placed (base : Nat) (codes : List (List U8)) :
    registered base (placed m cursor codes).1 = [] := by
  induction codes generalizing cursor with
  | nil => rfl
  | cons bytes rest ih =>
    rw [placed]
    split
    · exact ih
    · rfl

/-! ## The invariant -/

/-- The publications since the last reset are stacked up to the cursor, and the registry holds the
direct accesses in them. -/
structure Published (s : SitedCache) : Prop where
  stacked : Stacked s.cache.memory s.cache.cursor s.log
  base : s.directSites.base = s.cache.memory.base
  holds : Holds s.directSites (registered s.cache.memory.base s.log)

/-- Right after the stubs are installed in an empty cache. -/
theorem published_of_stubs {c : CodeCache} (h : c.installRuntimeStubs = (s.cache, .ok ()))
    (hcur : c.cursor = 0) (hbase : s.directSites.base = c.memory.base)
    (hsites : s.directSites.sites = []) (hlog : s.log = (placed c.memory 0 c.stubs.code).1) :
    Published s := by
  obtain ⟨hmem, hstubs, hplaced⟩ := CodeCache.placing_installRuntimeStubs h
  have hcursor : s.cache.cursor = (placed c.memory 0 c.stubs.code).2 := by
    have := hplaced []
    rw [List.append_nil, hcur] at this
    exact this.symm
  have hempty : registered s.cache.memory.base s.log = [] := by
    rw [hlog]
    exact registered_placed _ _
  refine ⟨?_, hbase.trans (by rw [hmem]), ?_⟩
  · rw [hmem, hcursor, hlog]
    exact (stacked_nil _ _).placed c.stubs.code
  · rw [hempty]
    exact ⟨by rw [hsites]; exact .nil, by rw [hsites]; exact .refl _⟩

/-- A publication, with the direct accesses in it registered. -/
theorem Published.append (h : Published s) (hlen : s.cache.memory.len ≤ i32Max) {c : CodeCache}
    {len : Nat} {r : PublicationRange}
    (hr : publicationRange s.cache.memory.page s.cache.cursor len s.cache.memory.len = .ok r)
    (happend : CodeCache.Appended s.cache c r) {sites : List DirectSite}
    (hinside : ∀ d ∈ sites, d.offset.toNat < len)
    (hdistinct : sites.Pairwise fun a b => a.offset.toNat ≠ b.offset.toNat) :
    Published
      { cache := c
        directSites := s.directSites.register (s.cache.memory.base + r.byteStart) sites
        log := s.log ++ [⟨r, sites⟩] } := by
  obtain ⟨hmem, -, hcur⟩ := happend
  have hstacked := h.stacked.append hr hinside hdistinct
  have hreg : registered s.cache.memory.base (s.log ++ [⟨r, sites⟩]) =
      registered s.cache.memory.base s.log ++
        sites.map (s.cache.memory.base + r.byteStart, ·) := by
    rw [registered, List.flatMap_append, List.flatMap_singleton, registered]
  have hwin := hstacked.inWindow hlen
  have haddr := hstacked.distinct_addresses s.cache.memory.base
  rw [hreg] at hwin haddr
  refine ⟨?_, ?_, ?_⟩
  · dsimp only
    rwa [hmem, hcur]
  · dsimp only
    rw [hmem]
    exact h.base
  · dsimp only
    rw [hmem, hreg]
    exact h.holds.register _ sites (by rwa [h.base]) haddr

theorem Published.of_sameLayout (h : Published s) {c : CodeCache}
    (hsame : CodeCache.SameLayout s.cache c) : Published { s with cache := c } := by
  obtain ⟨hmem, -, hcur⟩ := hsame
  refine ⟨?_, ?_, ?_⟩ <;> dsimp only <;> rw [hmem]
  · rw [hcur]
    exact h.stacked
  · exact h.base
  · exact h.holds

/-- **A failed install changes nothing**; and only two errors refuse one. -/
theorem exec_error (hlayout : CodeCache.Layout s.cache) {op : SitedOp} {e : Error}
    (h : (s.exec op).2 = .error e) :
    (s.exec op).1 = s ∧
      (e = .codeCacheFull ∨ e = .backend "cannot publish an empty code block") := by
  cases op with
  | installBlock srt guestPc ranges guestInsns block direct cap =>
    rw [exec, installBlock] at h ⊢
    rcases s.cache.installBlock_range srt guestPc ranges guestInsns block cap with
      ⟨e', he', hcall⟩ | ⟨c', r, hr, hcall, -⟩
    · rw [hcall] at h ⊢
      cases h
      exact ⟨rfl, publicationRange_error he'⟩
    · rw [hcall] at h
      cases h
  | install srt guestPc guestEnd guestInsns code cacheBlock thunkKind =>
    rw [exec, install] at h ⊢
    obtain ⟨e', he', hcall⟩ | ⟨c', r, hr, hcall, -⟩ :=
      s.cache.installEmitted_range srt guestPc guestEnd guestInsns code cacheBlock thunkKind
    · rw [hcall] at h ⊢
      cases h
      exact ⟨rfl, publicationRange_error he'⟩
    · rw [hcall] at h
      cases h
  | lookup pc => cases h
  | invalidateRange srt order start len => cases h
  | reset =>
    rw [exec, reset, hlayout.stubs_fit] at h
    cases h

/-- **Every step keeps the publications stacked.** -/
theorem Published.step (h : Published s) (hlayout : CodeCache.Layout s.cache) (op : SitedOp) :
    Published (s.exec op).1 := by
  cases op with
  | installBlock srt guestPc ranges guestInsns block direct cap =>
    rw [exec, installBlock]
    rcases s.cache.installBlock_range srt guestPc ranges guestInsns block cap with
      ⟨e, -, hcall⟩ | ⟨c', r, hr, hcall, happend⟩
    · rw [hcall]
      exact h
    · rw [hcall, publishedBy, hr]
      exact h.append hlayout.len_le hr happend direct.inside direct.apart
  | install srt guestPc guestEnd guestInsns code cacheBlock thunkKind =>
    rw [exec, install]
    obtain ⟨e, -, hcall⟩ | ⟨c', r, hr, hcall, happend⟩ :=
      s.cache.installEmitted_range srt guestPc guestEnd guestInsns code cacheBlock thunkKind
    · rw [hcall]
      exact h
    · rw [hcall, publishedBy, hr]
      exact h.append hlayout.len_le hr happend (by simp) .nil
  | lookup pc => exact h.of_sameLayout (CodeCache.sameLayout_lookup s.cache pc)
  | invalidateRange srt order start len =>
    exact h.of_sameLayout (CodeCache.sameLayout_invalidateRange s.cache srt order start len)
  | reset =>
    have hfit := hlayout.stubs_fit
    rw [CodeCache.reset] at hfit
    exact published_of_stubs (Prod.ext rfl hfit) rfl h.base rfl rfl

theorem published_of_reachable (h : system.Reachable s) : Published s := by
  refine h.invariant ?_ ?_
  · rintro s ⟨memory, stubs, code, hnew, hsites, hlog⟩
    obtain ⟨-, d, hd, hmem, hstubs, hcur, -⟩ := CodeCache.new_ok hnew
    refine published_of_stubs hd hcur (by rw [hsites, hmem]; rfl) (by rw [hsites]; rfl) ?_
    rw [hlog, hmem, hstubs]
  · rintro s op t hs hpub ⟨-, rfl⟩
    exact hpub.step (CodeCache.layout_of_reachable (reachable_cache hs)) op

/-! ## Main results -/

/-- **Publication is safe.**  In every reachable state the ranges published since the last reset are
aligned and apart, they and their pages lie in the allocation, and a call that fails changes
nothing; and the size arithmetic never overflows, whatever the cursor and the length. -/
theorem publication_safe (h : system.Reachable s) :
    s.log.Pairwise (fun a b => a.range.byteEnd ≤ b.range.byteStart) ∧
      (∀ p ∈ s.log, 16 ∣ p.range.byteStart ∧ p.range.byteStart < p.range.byteEnd ∧
        p.range.byteEnd ≤ s.cache.memory.len ∧ p.range.pageStart ≤ p.range.byteStart ∧
        p.range.byteEnd ≤ p.range.pageStart + p.range.pageLen ∧
        p.range.pageStart + p.range.pageLen ≤ s.cache.memory.len) ∧
      (∀ op e, (s.exec op).2 = .error e → (s.exec op).1 = s ∧
        (e = .codeCacheFull ∨ e = .backend "cannot publish an empty code block")) ∧
      ∀ cursor len capacity, publicationRangeChecked s.cache.memory.page cursor len capacity =
        some (publicationRange s.cache.memory.page cursor len capacity) := by
  have hlayout := CodeCache.layout_of_reachable (reachable_cache h)
  have hstacked := (published_of_reachable h).stacked
  refine ⟨hstacked.apart, fun p hp => ?_, fun op e => exec_error hlayout,
    publicationRangeChecked_eq s.cache.memory.page_pos⟩
  have hfits := hstacked.fits p hp
  exact ⟨hfits.aligned, hfits.nonempty, hfits.byteEnd_le, hfits.pageStart_le,
    hfits.byteEnd_le_pages, hfits.pages_le⟩

/-- **The registry of a running cache is exact**: it finds the direct accesses of the blocks
published since the last reset, and nothing else. -/
theorem find_exact (h : system.Reachable s) (rip : Nat) (site : Site) :
    s.directSites.find rip = some site ↔
      ∃ x ∈ registered s.cache.memory.base s.log, address x = rip ∧
        site = entryOf s.cache.memory.base x.1 x.2 := by
  have hlayout := CodeCache.layout_of_reachable (reachable_cache h)
  obtain ⟨hstacked, hbase, hholds⟩ := published_of_reachable h
  have hwin := hstacked.inWindow hlayout.len_le
  rw [hholds.find (by rwa [hbase]), hbase]

/-- The sample cache with an empty registry. -/
def sampleSited : SitedCache where
  cache := CodeCache.sampleCache
  directSites := SiteRegistry.new CodeCache.sampleMemory.base
  log := (placed CodeCache.sampleMemory 0 CodeCache.sampleStubs.code).1

theorem reachable_sampleSited : system.Reachable sampleSited :=
  .init ⟨CodeCache.sampleMemory, CodeCache.sampleStubs, fun _ => 0, rfl, rfl, rfl⟩

theorem publication_safe_sampleSited :
    sampleSited.log.Pairwise fun a b => a.range.byteEnd ≤ b.range.byteStart :=
  (publication_safe reachable_sampleSited).1

end SitedCache

end Rustarmic
