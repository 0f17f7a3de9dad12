import Mathlib.Data.List.Pairwise
import Rustarmic.Jit.CacheOps

/-!
# The link graph

The cache registers every chain site of a cached block under the PC it goes to, and rewrites the
site's displacement when the block at that PC comes or goes.  This file is about the registration
and about what one flush of the queued displacements does; `Rustarmic.Jit.LinkSafety` draws the
conclusions about where the sites jump.

* `Wired` — the registered sites are the sites of the cached blocks, each once, and published sites
  lie apart.  `wired_of_reachable` shows it of every reachable cache.
* `siteRel_flush` — what a flush leaves in a site: one of the displacements queued for it, in
  whatever order they were written, or the old one.
* `Wired.siteRel_installCached`, `Wired.siteRel_invalidateRange` — the same for the two operations
  that flush.
-/

set_option autoImplicit false

namespace Rustarmic

open ByteMemory

/-- Two chain sites that do not overlap. -/
def PublishedSite.Apart (p q : PublishedSite) : Prop :=
  p.site + siteLen ≤ q.site ∨ q.site + siteLen ≤ p.site

instance : Std.Symm PublishedSite.Apart := ⟨fun _ _ h => h.symm⟩

/-- A rel32 at `site` leads to `host`. -/
def JumpsTo (site : Nat) (v : U32) (host : Nat) : Prop :=
  (site : Int) + siteLen + v.toInt = host

theorem EmittedBlock.site_in_code (b : EmittedBlock) {s : ChainSite} (hs : s ∈ b.chains) :
    s.patchOffset.toNat + siteLen ≤ b.code.length := by
  have h := congrArg List.length (b.unlinked s hs)
  simp only [List.length_take, List.length_drop, siteLen, List.length_cons, List.length_nil] at h ⊢
  omega

/-- The bytes of a chain site as the block is emitted: a jump with a zero displacement. -/
theorem EmittedBlock.site_bytes (b : EmittedBlock) {s : ChainSite} (hs : s ∈ b.chains) (k : Nat)
    (hk : k < siteLen) :
    b.code.getD (s.patchOffset.toNat + k) 0 = if k = 0 then 0xE9 else 0 := by
  have h := congrArg (fun l : List U8 => l.getD k 0) (b.unlinked s hs)
  have hin := b.site_in_code hs
  simp only [siteLen] at hk hin
  simp only [List.getD_eq_getElem?_getD, siteLen] at h ⊢
  rw [List.getElem?_take_of_lt hk, List.getElem?_drop] at h
  rw [h]
  have hk5 : k = 0 ∨ k = 1 ∨ k = 2 ∨ k = 3 ∨ k = 4 := by omega
  rcases hk5 with rfl | rfl | rfl | rfl | rfl <;> rfl

namespace CodeCache

variable {c c' : CodeCache}

/-- The displacement of the chain site at `site`. -/
def siteRel (c : CodeCache) (site : Nat) : U32 := read32 c.code (site + siteRelOffset)

/-! ## Registration -/

/-- The registered sites are the sites of the cached blocks, each once; published sites lie apart,
below the cursor, and start with the opcode of a jump. -/
structure Wired (c : CodeCache) : Prop where
  mem_links : ∀ t s, s ∈ c.links t ↔ ∃ pc e, c.table pc = some e ∧ (t, s) ∈ e.outSites
  nodup : ∀ t, (c.links t).Nodup
  out_published : ∀ {pc e t s}, c.table pc = some e → (t, s) ∈ e.outSites →
    ⟨pc, t, s⟩ ∈ c.published
  apart : c.published.Pairwise PublishedSite.Apart
  base_le : ∀ p ∈ c.published, c.memory.base ≤ p.site
  le_cursor : ∀ p ∈ c.published, p.site + siteLen ≤ c.memory.base + c.cursor
  opcode : ∀ p ∈ c.published, c.code p.site = 0xE9

/-- A published site is known by its address. -/
theorem Wired.eq_of_site (h : Wired c) {p q : PublishedSite} (hp : p ∈ c.published)
    (hq : q ∈ c.published) (hsite : p.site = q.site) : p = q := by
  by_contra hne
  have := h.apart.forall hp hq hne
  simp only [PublishedSite.Apart, siteLen] at this
  omega

theorem Wired.apart_of_ne (h : Wired c) {p q : PublishedSite} (hp : p ∈ c.published)
    (hq : q ∈ c.published) (hsite : p.site ≠ q.site) : p.Apart q :=
  h.apart.forall hp hq fun heq => hsite (congrArg _ heq)

/-- A registered site is published with its target. -/
theorem Wired.published_of_link (h : Wired c) {t : U64} {s : Nat} (hs : s ∈ c.links t) :
    ∃ p ∈ c.published, p.target = t ∧ p.site = s := by
  obtain ⟨pc, e, htable, hout⟩ := (h.mem_links t s).mp hs
  exact ⟨_, h.out_published htable hout, rfl, rfl⟩

/-- The target a site is registered under is the one it was published with. -/
theorem Wired.target_of_link (h : Wired c) {p : PublishedSite} (hp : p ∈ c.published) {t : U64}
    (hs : p.site ∈ c.links t) : p.target = t := by
  obtain ⟨q, hq, rfl, hsite⟩ := h.published_of_link hs
  rw [h.eq_of_site hp hq hsite.symm]

theorem Wired.target_unique (h : Wired c) {t t' : U64} {s : Nat} (hs : s ∈ c.links t)
    (hs' : s ∈ c.links t') : t = t' := by
  obtain ⟨p, hp, rfl, rfl⟩ := h.published_of_link hs
  exact h.target_of_link hp hs'

/-- The invariant reads the hash map, the link graph, the log and the opcodes. -/
theorem Wired.congr (h : Wired c) (htable : c'.table = c.table) (hlinks : c'.links = c.links)
    (hpub : c'.published = c.published) (hmem : c'.memory = c.memory)
    (hcur : c.cursor ≤ c'.cursor) (hcode : ∀ p ∈ c.published, c'.code p.site = c.code p.site) :
    Wired c' where
  mem_links := by rw [hlinks, htable]; exact h.mem_links
  nodup := by rw [hlinks]; exact h.nodup
  out_published := by rw [htable, hpub]; exact h.out_published
  apart := by rw [hpub]; exact h.apart
  base_le := by rw [hpub, hmem]; exact h.base_le
  le_cursor p hp := by
    rw [hpub] at hp
    rw [hmem]
    have := h.le_cursor p hp
    omega
  opcode p hp := by
    rw [hpub] at hp
    rw [hcode p hp, h.opcode p hp]

theorem removeBlock_links (pc : U64) (e : Entry) (htable : c.table pc = some e) (t : U64) :
    (c.removeBlock pc).links t = (c.links t).filter fun s => (t, s) ∉ e.outSites := by
  rw [removeBlock, htable]
  exact forgetSites_apply c.links e.outSites t

theorem removeBlock_patches (pc : U64) (e : Entry) (htable : c.table pc = some e) :
    (c.removeBlock pc).patches = c.patches ++ (c.links pc).map (·, 0) := by
  rw [removeBlock, htable]

theorem removeBlock_links_subset (pc t : U64) {s : Nat}
    (hs : s ∈ (c.removeBlock pc).links t) : s ∈ c.links t := by
  cases htable : c.table pc with
  | none => rwa [removeBlock_of_none htable] at hs
  | some e =>
    rw [removeBlock_links pc e htable] at hs
    exact List.mem_of_mem_filter hs

/-- **Removing a block keeps the graph wired.** -/
theorem Wired.removeBlock (h : Wired c) (pc : U64) : Wired (c.removeBlock pc) := by
  cases htable : c.table pc with
  | none => rwa [removeBlock_of_none htable]
  | some e =>
    obtain ⟨hmem, -, -, hcur, hcode, hpub, -, hupd⟩ := removeBlock_frame c pc
    have hkept {q : U64} {e' : Entry} (he : (c.removeBlock pc).table q = some e') :
        q ≠ pc ∧ c.table q = some e' := by
      rw [hupd] at he
      by_cases hq : q = pc
      · rw [hq, Function.update_self] at he
        cases he
      · rw [Function.update_of_ne hq] at he
        exact ⟨hq, he⟩
    refine
      { mem_links := ?_
        nodup := fun t => ?_
        out_published := ?_
        apart := by rw [hpub]; exact h.apart
        base_le := by rw [hpub, hmem]; exact h.base_le
        le_cursor := by rw [hpub, hmem, hcur]; exact h.le_cursor
        opcode := by rw [hpub, hcode]; exact h.opcode }
    · intro t s
      rw [removeBlock_links pc e htable, List.mem_filter, h.mem_links]
      constructor
      · rintro ⟨⟨q, e', he', hout⟩, hnot⟩
        have hq : q ≠ pc := by
          rintro rfl
          rw [htable, Option.some.injEq] at he'
          subst he'
          simp [hout] at hnot
        exact ⟨q, e', by rw [hupd, Function.update_of_ne hq, he'], hout⟩
      · rintro ⟨q, e', he', hout⟩
        obtain ⟨hq, he'⟩ := hkept he'
        refine ⟨⟨q, e', he', hout⟩, ?_⟩
        rw [decide_eq_true_eq]
        intro hmine
        have heq := h.eq_of_site (h.out_published he' hout) (h.out_published htable hmine) rfl
        exact hq (congrArg PublishedSite.pc heq)
    · rw [removeBlock_links pc e htable]
      exact (h.nodup t).filter _
    · intro q e' t s he' hout
      rw [hpub]
      exact h.out_published (hkept he').2 hout

/-! ## Publishing -/

/-- The sites of a block in the log. -/
def newSites (guestPc : U64) (hostPtr : Nat) (chains : List ChainSite) : List PublishedSite :=
  chains.map fun s => ⟨guestPc, s.targetPc, siteAt hostPtr s⟩

theorem published_publish (c : CodeCache) (guestPc : U64) (hostPtr : Nat)
    (chains : List ChainSite) :
    (c.publish guestPc hostPtr chains).published = c.published ++ newSites guestPc hostPtr chains :=
  rfl

theorem mem_newSites {guestPc : U64} {hostPtr : Nat} {chains : List ChainSite} {p : PublishedSite} :
    p ∈ newSites guestPc hostPtr chains ↔
      ∃ s ∈ chains, p = ⟨guestPc, s.targetPc, siteAt hostPtr s⟩ := by
  simp only [newSites, List.mem_map, eq_comm]

/-- The code of a freshly appended block at one of its sites. -/
theorem appended_site_byte {d : CodeCache} {host : Nat} (block : EmittedBlock)
    (happend : c.appendRaw block.code = (d, .ok host)) {s : ChainSite} (hs : s ∈ block.chains)
    {k : Nat} (hk : k < siteLen) : d.code (siteAt host s + k) = if k = 0 then 0xE9 else 0 := by
  obtain ⟨-, -, -, rfl⟩ := appendRaw_ok happend
  have hin := block.site_in_code hs
  rw [← block.site_bytes hs k hk, siteAt, Nat.add_assoc]
  exact writeBytes_of_inside (by omega)

/-- A fresh site is unlinked. -/
theorem siteRel_new {d : CodeCache} {host : Nat} (block : EmittedBlock)
    (happend : c.appendRaw block.code = (d, .ok host)) {s : ChainSite} (hs : s ∈ block.chains) :
    d.siteRel (siteAt host s) = 0 := by
  have h (k : Nat) (hk : k < 4) : d.code (siteAt host s + siteRelOffset + k) = 0 := by
    have hk' : siteRelOffset + k < siteLen := by
      simp only [siteLen, siteRelOffset]
      omega
    have hne : siteRelOffset + k ≠ 0 := by
      simp only [siteRelOffset]
      omega
    rw [Nat.add_assoc, appended_site_byte block happend hs hk', if_neg hne]
  have h0 := h 0 (by omega)
  rw [Nat.add_zero] at h0
  rw [siteRel, read32, h 3 (by omega), h 2 (by omega), h 1 (by omega), h0]
  rfl

/-- An append writes past every published site. -/
theorem Wired.siteRel_append (h : Wired c) {d : CodeCache} {bytes : List U8} {host : Nat}
    (happend : c.appendRaw bytes = (d, .ok host)) {p : PublishedSite} (hp : p ∈ c.published) :
    d.siteRel p.site = c.siteRel p.site := by
  obtain ⟨-, hlo, -, rfl⟩ := appendRaw_ok happend
  have := h.le_cursor p hp
  simp only [siteLen] at this
  exact read32_writeBytes_of_disjoint (.inr (by simp only [siteRelOffset]; omega))

theorem Wired.append (h : Wired c) {d : CodeCache} {bytes : List U8} {host : Nat}
    (happend : c.appendRaw bytes = (d, .ok host)) : Wired d := by
  obtain ⟨-, hlo, hhi, rfl⟩ := appendRaw_ok happend
  refine h.congr rfl rfl rfl rfl (by dsimp only; omega) fun p hp => ?_
  have := h.le_cursor p hp
  exact writeBytes_of_outside (.inl (by simp only [siteLen] at this; omega))

theorem apart_newSites (guestPc : U64) (host : Nat) (block : EmittedBlock) :
    (newSites guestPc host block.chains).Pairwise PublishedSite.Apart := by
  rw [newSites, List.pairwise_map]
  refine block.apart.imp fun h => ?_
  simp only [PublishedSite.Apart, siteAt]
  omega

/-- **Appending a block and logging its sites keeps the graph wired.** -/
theorem Wired.publish (h : Wired c) {d : CodeCache} {host : Nat} (guestPc : U64)
    (block : EmittedBlock) (happend : c.appendRaw block.code = (d, .ok host)) :
    Wired (d.publish guestPc host block.chains) := by
  have hd := h.append happend
  have hbyte {s : ChainSite} (hs : s ∈ block.chains) :=
    appended_site_byte block happend hs (k := 0) (by decide)
  obtain ⟨hlen, hlo, hhi, heq⟩ := appendRaw_ok happend
  have hnew {p : PublishedSite} (hp : p ∈ newSites guestPc host block.chains) :
      host ≤ p.site ∧ p.site + siteLen ≤ host + block.code.length ∧ d.code p.site = 0xE9 := by
    obtain ⟨s, hs, rfl⟩ := mem_newSites.mp hp
    have := block.site_in_code hs
    refine ⟨Nat.le_add_right _ _, by dsimp only [siteAt]; omega, ?_⟩
    exact (hbyte hs).trans (if_pos rfl)
  have hcur : d.cursor = host + block.code.length - c.memory.base ∧ d.memory = c.memory ∧
      d.published = c.published := by
    rw [heq]
    exact ⟨rfl, rfl, rfl⟩
  refine
    { mem_links := hd.mem_links
      nodup := hd.nodup
      out_published := fun htable hout => List.mem_append_left _ (hd.out_published htable hout)
      apart := ?_
      base_le := ?_
      le_cursor := ?_
      opcode := ?_ }
  · rw [published_publish, List.pairwise_append]
    refine ⟨hd.apart, apart_newSites guestPc host block, fun p hp q hq => .inl ?_⟩
    rw [hcur.2.2] at hp
    have h1 := h.le_cursor p hp
    have h2 := (hnew hq).1
    omega
  · intro p hp
    rw [published_publish] at hp
    rcases List.mem_append.mp hp with hp | hp
    · exact hd.base_le p hp
    · have h1 := (hnew hp).1
      have h2 : (d.publish guestPc host block.chains).memory.base = c.memory.base := by
        rw [← hcur.2.1]
        rfl
      omega
  · intro p hp
    rw [published_publish] at hp
    rcases List.mem_append.mp hp with hp | hp
    · exact hd.le_cursor p hp
    · have h1 := (hnew hp).2.1
      have h2 : (d.publish guestPc host block.chains).memory.base
          + (d.publish guestPc host block.chains).cursor = host + block.code.length := by
        change d.memory.base + d.cursor = _
        rw [hcur.1, hcur.2.1]
        omega
      omega
  · intro p hp
    rw [published_publish] at hp
    rcases List.mem_append.mp hp with hp | hp
    · exact hd.opcode p hp
    · exact (hnew hp).2.2

/-! ## Flushing -/

/-- The queued patches hit the site at `s` exactly or miss it. -/
def Separates (queue : List Patch) (s : Nat) : Prop :=
  ∀ x ∈ queue, x.1 = s ∨ x.1 + siteLen ≤ s ∨ s + siteLen ≤ x.1

/-- **What a flush leaves in a site**: a displacement queued for it, or the old one when there is
none.  Which one of several it is depends on the sort. -/
theorem siteRel_flush (m : Mem) (srt : UnstableSort) {queue : List Patch} {s : Nat}
    (hsep : Separates queue s) :
    ((∀ w, (s, w) ∉ queue) ∧
        read32 (writes m ((srt.sort queue).map patchWrite)) (s + siteRelOffset)
          = read32 m (s + siteRelOffset)) ∨
      ∃ w, (s, w) ∈ queue ∧
        read32 (writes m ((srt.sort queue).map patchWrite)) (s + siteRelOffset) = w := by
  have hmem (x : Patch) : x ∈ srt.sort queue ↔ x ∈ queue := (srt.perm queue).mem_iff
  have hsep' : ∀ x ∈ (srt.sort queue).map patchWrite, x.1 = s + siteRelOffset ∨
      x.1 + 4 ≤ s + siteRelOffset ∨ s + siteRelOffset + 4 ≤ x.1 := by
    intro x hx
    obtain ⟨y, hy, rfl⟩ := List.mem_map.mp hx
    have := hsep y ((hmem y).mp hy)
    simp only [patchWrite, siteRelOffset, siteLen] at this ⊢
    omega
  rcases read32_writes (m := m) hsep' with ⟨hnone, heq⟩ | ⟨w, hw, heq⟩
  · refine .inl ⟨fun w hw => ?_, heq⟩
    exact hnone _ (List.mem_map.mpr ⟨(s, w), (hmem _).mpr hw, rfl⟩) rfl
  · obtain ⟨y, hy, hyw⟩ := List.mem_map.mp hw
    simp only [patchWrite, siteRelOffset, Prod.mk.injEq] at hyw
    refine .inr ⟨w, ?_, heq⟩
    have hys : y = (s, w) := Prod.ext (by dsimp only; omega) hyw.2
    exact (hmem _).mp (hys ▸ hy)

theorem opcode_flush (m : Mem) (srt : UnstableSort) {queue : List Patch} {s : Nat}
    (hsep : Separates queue s) : writes m ((srt.sort queue).map patchWrite) s = m s := by
  refine writes_of_outside fun x hx => ?_
  obtain ⟨y, hy, rfl⟩ := List.mem_map.mp hx
  have := hsep y ((srt.perm queue).mem_iff.mp hy)
  simp only [patchWrite, siteRelOffset, siteLen] at this ⊢
  omega

/-- A queue of published sites separates every published site. -/
theorem Wired.separates (h : Wired c) {queue : List Patch}
    (hqueue : ∀ x ∈ queue, ∃ p ∈ c.published, p.site = x.1) {p : PublishedSite}
    (hp : p ∈ c.published) : Separates queue p.site := by
  intro x hx
  obtain ⟨q, hq, hsite⟩ := hqueue x hx
  by_cases heq : x.1 = p.site
  · exact .inl heq
  · have := h.apart_of_ne hq hp (by rw [hsite]; exact heq)
    rw [PublishedSite.Apart, hsite] at this
    exact .inr this

/-! ## Installing -/

theorem mem_linksWith {hostPtr : Nat} {chains : List ChainSite} {t : U64} {s : Nat} :
    s ∈ c.linksWith hostPtr chains t ↔
      s ∈ c.links t ∨ ∃ ch ∈ chains, ch.targetPc = t ∧ siteAt hostPtr ch = s := by
  simp only [linksWith, List.mem_append, List.mem_map, List.mem_filter, decide_eq_true_eq, and_assoc]

theorem mem_outPatches {table : U64 → Option Entry} {hostPtr : Nat} {chains : List ChainSite}
    {x : Patch} : x ∈ outPatches table hostPtr chains ↔
      ∃ ch ∈ chains, ∃ e, table ch.targetPc = some e ∧
        x = (siteAt hostPtr ch, BitVec.ofInt 32 (rel (siteAt hostPtr ch) e.hostPtr)) := by
  rw [outPatches, List.mem_flatMap]
  refine exists_congr fun ch => and_congr_right fun _ => ?_
  cases table ch.targetPc with
  | none => simp
  | some e => simp

theorem mem_installPatches {guestPc : U64} {hostPtr : Nat} {chains : List ChainSite} {x : Patch} :
    x ∈ c.installPatches guestPc hostPtr chains ↔
      x ∈ c.patches ∨
        (∃ ch ∈ chains, ∃ e, c.table ch.targetPc = some e ∧
          x = (siteAt hostPtr ch, BitVec.ofInt 32 (rel (siteAt hostPtr ch) e.hostPtr))) ∨
        ∃ s ∈ c.linksWith hostPtr chains guestPc, x = (s, BitVec.ofInt 32 (rel s hostPtr)) := by
  rw [installPatches, List.mem_append, List.mem_append, mem_outPatches, List.mem_map, or_assoc]
  simp only [eq_comm]

/-- The sites an install queues are published. -/
theorem Wired.installPatches_published (h : Wired c) {guestPc : U64} {hostPtr : Nat}
    {chains : List ChainSite} (hnew : ∀ p ∈ newSites guestPc hostPtr chains, p ∈ c.published)
    (hpatches : ∀ x ∈ c.patches, ∃ p ∈ c.published, p.site = x.1) :
    ∀ x ∈ c.installPatches guestPc hostPtr chains, ∃ p ∈ c.published, p.site = x.1 := by
  intro x hx
  rcases mem_installPatches.mp hx with hx | ⟨ch, hch, e, -, rfl⟩ | ⟨s, hs, rfl⟩
  · exact hpatches x hx
  · exact ⟨_, hnew _ (mem_newSites.mpr ⟨ch, hch, rfl⟩), rfl⟩
  · rcases mem_linksWith.mp hs with hs | ⟨ch, hch, -, rfl⟩
    · obtain ⟨p, hp, -, hsite⟩ := h.published_of_link hs
      exact ⟨p, hp, hsite⟩
    · exact ⟨_, hnew _ (mem_newSites.mpr ⟨ch, hch, rfl⟩), rfl⟩

/-- A fresh site is not registered yet. -/
theorem Wired.new_not_linked (h : Wired c) {guestPc : U64} {hostPtr : Nat}
    {chains : List ChainSite} (hnone : c.table guestPc = none)
    (hnew : ∀ p ∈ newSites guestPc hostPtr chains, p ∈ c.published) {ch : ChainSite}
    (hch : ch ∈ chains) (t : U64) : siteAt hostPtr ch ∉ c.links t := by
  intro hs
  obtain ⟨q, e, htable, hout⟩ := (h.mem_links t _).mp hs
  have heq := h.eq_of_site (h.out_published htable hout)
    (hnew _ (mem_newSites.mpr ⟨ch, hch, rfl⟩)) rfl
  rw [PublishedSite.mk.injEq] at heq
  rw [heq.1, hnone] at htable
  cases htable

/-- **Entering a published block keeps the graph wired.** -/
theorem Wired.link (h : Wired c) {guestPc : U64} {e : Entry} {chains : List ChainSite}
    (hnone : c.table guestPc = none)
    (hnew : ∀ p ∈ newSites guestPc e.hostPtr chains, p ∈ c.published)
    (hapart : (newSites guestPc e.hostPtr chains).Pairwise PublishedSite.Apart)
    (hout : e.outSites = chains.map fun s => (s.targetPc, siteAt e.hostPtr s))
    (htable : c'.table = Function.update c.table guestPc (some e))
    (hlinks : c'.links = c.linksWith e.hostPtr chains) (hpub : c'.published = c.published)
    (hmem : c'.memory = c.memory) (hcur : c'.cursor = c.cursor)
    (hcode : ∀ p ∈ c.published, c'.code p.site = c.code p.site) : Wired c' := by
  have hmine (t : U64) (s : Nat) :
      (t, s) ∈ e.outSites ↔ ∃ ch ∈ chains, ch.targetPc = t ∧ siteAt e.hostPtr ch = s := by
    simp only [hout, List.mem_map, Prod.mk.injEq]
  have hold {pc : U64} {e' : Entry} (he : c.table pc = some e') : pc ≠ guestPc := by
    rintro rfl
    rw [hnone] at he
    cases he
  refine
    { mem_links := fun t s => ?_
      nodup := fun t => ?_
      out_published := ?_
      apart := by rw [hpub]; exact h.apart
      base_le := by rw [hpub, hmem]; exact h.base_le
      le_cursor := by rw [hpub, hmem, hcur]; exact h.le_cursor
      opcode := fun p hp => by rw [hpub] at hp; rw [hcode p hp, h.opcode p hp] }
  · rw [hlinks, htable, mem_linksWith, h.mem_links, ← hmine]
    constructor
    · rintro (⟨pc, e', he', hs⟩ | hs)
      · exact ⟨pc, e', by rw [Function.update_of_ne (hold he'), he'], hs⟩
      · exact ⟨guestPc, e, Function.update_self .., hs⟩
    · rintro ⟨pc, e', he', hs⟩
      by_cases hpc : pc = guestPc
      · rw [hpc, Function.update_self, Option.some.injEq] at he'
        exact .inr (he' ▸ hs)
      · rw [Function.update_of_ne hpc] at he'
        exact .inl ⟨pc, e', he', hs⟩
  · rw [hlinks, linksWith, List.nodup_append]
    refine ⟨h.nodup t, ?_, ?_⟩
    · rw [List.nodup_iff_pairwise_ne, List.pairwise_map]
      rw [newSites, List.pairwise_map] at hapart
      refine (hapart.filter _).imp fun hap heq => ?_
      simp only [PublishedSite.Apart, siteLen] at hap
      omega
    · intro s hs s' hs' heq
      obtain ⟨ch, hch, rfl⟩ := List.mem_map.mp hs'
      exact h.new_not_linked hnone hnew (List.mem_of_mem_filter hch) t (heq ▸ hs)
  · intro pc e' t s he' hs
    rw [htable] at he'
    rw [hpub]
    by_cases hpc : pc = guestPc
    · rw [hpc, Function.update_self, Option.some.injEq] at he'
      obtain ⟨ch, hch, rfl, rfl⟩ := (hmine t s).mp (he' ▸ hs)
      rw [hpc]
      exact hnew _ (mem_newSites.mpr ⟨ch, hch, rfl⟩)
    · rw [Function.update_of_ne hpc] at he'
      exact h.out_published he' hs

/-! ## A cached install, step by step -/

section Install

variable {d : CodeCache} {host : Nat} {guestPc : U64} {block : EmittedBlock}

/-- The cache a cached install links its block into: bytes appended, sites logged, the block at the
PC removed. -/
def beforeInstall (d : CodeCache) (guestPc : U64) (host : Nat) (block : EmittedBlock) : CodeCache :=
  (d.publish guestPc host block.chains).removeBlock guestPc

theorem Wired.beforeInstall (h : Wired c) (guestPc : U64)
    (happend : c.appendRaw block.code = (d, .ok host)) :
    Wired (beforeInstall d guestPc host block) :=
  (h.publish guestPc block happend).removeBlock guestPc

theorem beforeInstall_table (guestPc : U64) (happend : c.appendRaw block.code = (d, .ok host)) :
    (beforeInstall d guestPc host block).table = Function.update c.table guestPc none := by
  obtain ⟨-, -, -, rfl⟩ := appendRaw_ok happend
  exact (removeBlock_frame _ guestPc).2.2.2.2.2.2.2

theorem beforeInstall_published (happend : c.appendRaw block.code = (d, .ok host)) :
    (beforeInstall d guestPc host block).published
      = c.published ++ newSites guestPc host block.chains := by
  obtain ⟨-, -, -, rfl⟩ := appendRaw_ok happend
  exact (removeBlock_frame _ guestPc).2.2.2.2.2.1

theorem newSites_subset (happend : c.appendRaw block.code = (d, .ok host)) :
    ∀ p ∈ newSites guestPc host block.chains,
      p ∈ (beforeInstall d guestPc host block).published := by
  intro p hp
  rw [beforeInstall_published happend]
  exact List.mem_append_right _ hp

theorem mem_beforeInstall_links (happend : c.appendRaw block.code = (d, .ok host)) {t : U64}
    {s : Nat} : s ∈ (beforeInstall d guestPc host block).links t ↔
      s ∈ c.links t ∧ ∀ e, c.table guestPc = some e → (t, s) ∉ e.outSites := by
  obtain ⟨-, -, -, rfl⟩ := appendRaw_ok happend
  rw [beforeInstall]
  cases htable : c.table guestPc with
  | none =>
    rw [removeBlock_of_none (by exact htable)]
    simp [publish]
  | some e =>
    rw [removeBlock_links guestPc e (by exact htable), List.mem_filter, decide_eq_true_eq]
    simp [publish]

theorem mem_beforeInstall_patches (hpatches : c.patches = [])
    (happend : c.appendRaw block.code = (d, .ok host)) {x : Patch} :
    x ∈ (beforeInstall d guestPc host block).patches ↔
      x.2 = 0 ∧ c.contains guestPc = true ∧ x.1 ∈ c.links guestPc := by
  obtain ⟨-, -, -, rfl⟩ := appendRaw_ok happend
  rw [beforeInstall, contains]
  cases htable : c.table guestPc with
  | none =>
    rw [removeBlock_of_none (by exact htable)]
    simp [publish, hpatches]
  | some e =>
    rw [removeBlock_patches guestPc e (by exact htable)]
    simp only [publish, hpatches, List.nil_append, List.mem_map, Option.isSome_some, true_and]
    constructor
    · rintro ⟨s, hs, rfl⟩
      exact ⟨rfl, hs⟩
    · rintro ⟨h0, hs⟩
      exact ⟨x.1, hs, Prod.ext rfl h0.symm⟩

/-- The sites a cached install queues are published. -/
theorem Wired.queue_published (h : Wired c) (hpatches : c.patches = [])
    (happend : c.appendRaw block.code = (d, .ok host)) :
    ∀ x ∈ (CodeCache.beforeInstall d guestPc host block).installPatches guestPc host block.chains,
      ∃ p ∈ (CodeCache.beforeInstall d guestPc host block).published, p.site = x.1 := by
  refine (h.beforeInstall guestPc happend).installPatches_published (newSites_subset happend) ?_
  intro x hx
  obtain ⟨-, -, hs⟩ := (mem_beforeInstall_patches hpatches happend).mp hx
  obtain ⟨p, hp, -, hsite⟩ := h.published_of_link hs
  exact ⟨p, by rw [beforeInstall_published happend]; exact List.mem_append_left _ hp, hsite⟩

/-- The displacement of a published site after a cached install. -/
theorem Wired.siteRel_installCached (h : Wired c) (guestPc : U64) (hpatches : c.patches = [])
    (happend : c.appendRaw block.code = (d, .ok host)) (srt : UnstableSort)
    (ranges : List (U64 × U64)) (guestInsns : U32) {p : PublishedSite}
    (hp : p ∈ (CodeCache.beforeInstall d guestPc host block).published) :
    ((∀ w, (p.site, w) ∉ (CodeCache.beforeInstall d guestPc host block).installPatches guestPc host
        block.chains) ∧
        ((d.publish guestPc host block.chains).installCached srt guestPc
          (entryOf guestPc ranges guestInsns block host) block.chains).siteRel p.site
          = d.siteRel p.site) ∨
      ∃ w, (p.site, w) ∈ (CodeCache.beforeInstall d guestPc host block).installPatches guestPc host
          block.chains ∧
        ((d.publish guestPc host block.chains).installCached srt guestPc
          (entryOf guestPc ranges guestInsns block host) block.chains).siteRel p.site = w := by
  have hsep := (h.beforeInstall guestPc happend).separates (h.queue_published hpatches happend) hp
  rw [installCached_eq]
  exact siteRel_flush d.code srt hsep

/-- A cached install keeps the graph wired. -/
theorem Wired.installCached (h : Wired c) (guestPc : U64) (hpatches : c.patches = [])
    (happend : c.appendRaw block.code = (d, .ok host)) (srt : UnstableSort)
    (ranges : List (U64 × U64)) (guestInsns : U32) :
    Wired ((d.publish guestPc host block.chains).installCached srt guestPc
      (entryOf guestPc ranges guestInsns block host) block.chains) := by
  have hr := h.beforeInstall guestPc happend
  have htable := beforeInstall_table guestPc happend
  rw [installCached_eq]
  refine hr.link (e := entryOf guestPc ranges guestInsns block host) ?_ (newSites_subset happend)
    (apart_newSites guestPc host block) rfl ?_ rfl rfl rfl rfl ?_
  · rw [htable, Function.update_self]
  · obtain ⟨-, -, -, rfl⟩ := appendRaw_ok happend
    rw [htable, Function.update_idem]
    rfl
  · intro p hp
    have hsep := hr.separates (h.queue_published hpatches happend) hp
    have hcode : (CodeCache.beforeInstall d guestPc host block).code = d.code :=
      (removeBlock_frame _ guestPc).2.2.2.2.1
    rw [hcode]
    exact opcode_flush d.code srt hsep

end Install

/-! ## An invalidation, step by step -/

theorem foldl_removeBlock_links_subset (l : List U64) {t : U64} {s : Nat}
    (hs : s ∈ (l.foldl removeBlock c).links t) : s ∈ c.links t := by
  induction l generalizing c with
  | nil => exact hs
  | cons pc l ih => exact removeBlock_links_subset pc t (ih hs)

theorem mem_removeBlock_patches {pc : U64} {x : Patch} :
    x ∈ (c.removeBlock pc).patches ↔
      x ∈ c.patches ∨ x.2 = 0 ∧ c.contains pc = true ∧ x.1 ∈ c.links pc := by
  rw [contains]
  cases htable : c.table pc with
  | none => simp [removeBlock_of_none htable]
  | some e =>
    rw [removeBlock_patches pc e htable, List.mem_append, List.mem_map]
    simp only [Option.isSome_some, true_and]
    refine or_congr_right ⟨?_, ?_⟩
    · rintro ⟨s, hs, rfl⟩
      exact ⟨rfl, hs⟩
    · rintro ⟨h0, hs⟩
      exact ⟨x.1, hs, Prod.ext rfl h0.symm⟩

/-- What a list of removals queues: zeros, for sites that jumped to the removed blocks. -/
theorem foldl_removeBlock_patches (l : List U64) {x : Patch}
    (hx : x ∈ (l.foldl removeBlock c).patches) :
    x ∈ c.patches ∨ x.2 = 0 ∧ ∃ pc ∈ l, x.1 ∈ c.links pc := by
  induction l generalizing c with
  | nil => exact .inl hx
  | cons pc l ih =>
    rcases ih hx with hx | ⟨h0, q, hq, hs⟩
    · rcases mem_removeBlock_patches.mp hx with hx | ⟨h0, -, hs⟩
      · exact .inl hx
      · exact .inr ⟨h0, pc, List.mem_cons_self, hs⟩
    · exact .inr ⟨h0, q, List.mem_cons_of_mem _ hq, removeBlock_links_subset pc q hs⟩

theorem patches_subset_foldl_removeBlock (l : List U64) {x : Patch} (hx : x ∈ c.patches) :
    x ∈ (l.foldl removeBlock c).patches := by
  induction l generalizing c with
  | nil => exact hx
  | cons pc l ih => exact ih (mem_removeBlock_patches.mpr (.inl hx))

theorem Wired.foldl_removeBlock (h : Wired c) (l : List U64) :
    Wired (l.foldl CodeCache.removeBlock c) :=
  CodeCache.foldl_removeBlock (fun _ pc hw => hw.removeBlock pc) l h

/-- Everything a list of removals queues is a zero for a published site. -/
theorem Wired.removal_queue (h : Wired c) (hpatches : c.patches = []) (l : List U64) :
    ∀ x ∈ (l.foldl CodeCache.removeBlock c).patches,
      x.2 = 0 ∧ ∃ q ∈ c.published, q.site = x.1 := by
  intro x hx
  rcases foldl_removeBlock_patches _ hx with hx | ⟨h0, pc, -, hs⟩
  · simp [hpatches] at hx
  · obtain ⟨q, hq, -, hsite⟩ := h.published_of_link hs
    exact ⟨h0, q, hq, hsite⟩

theorem contains_of_mem_doomed {order : List U64} {start len pc : U64}
    (h : pc ∈ c.doomed order start len) : c.contains pc = true := by
  have hany := List.of_mem_filter h
  rw [contains]
  cases htable : c.table pc with
  | none => simp [htable] at hany
  | some e => rfl

/-- The displacement of a published site after an invalidation. -/
theorem Wired.siteRel_invalidateRange (h : Wired c) (hpatches : c.patches = [])
    (srt : UnstableSort) (order : List U64) (start len : U64) {p : PublishedSite}
    (hp : p ∈ c.published) :
    ((∀ w, (p.site, w) ∉ ((c.doomed order start len).foldl CodeCache.removeBlock c).patches) ∧
        (c.invalidateRange srt order start len).siteRel p.site = c.siteRel p.site) ∨
      ((p.site, 0) ∈ ((c.doomed order start len).foldl CodeCache.removeBlock c).patches ∧
        (c.invalidateRange srt order start len).siteRel p.site = 0) := by
  have hqueue := h.removal_queue hpatches (c.doomed order start len)
  rw [invalidateRange_eq]
  rcases siteRel_flush c.code srt (h.separates (fun x hx => (hqueue x hx).2) hp) with
    h' | ⟨w, hw, heq⟩
  · exact .inl h'
  · have h0 := (hqueue _ hw).1
    dsimp only at h0
    subst h0
    exact .inr ⟨hw, heq⟩

/-- An invalidation keeps the graph wired. -/
theorem Wired.invalidateRange (h : Wired c) (hpatches : c.patches = []) (srt : UnstableSort)
    (order : List U64) (start len : U64) : Wired (c.invalidateRange srt order start len) := by
  have hfold := h.foldl_removeBlock (c.doomed order start len)
  obtain ⟨-, -, -, -, hcode, hpub, -, htable⟩ :=
    foldl_removeBlock_frame (c.doomed order start len) c
  rw [invalidateRange_eq]
  refine hfold.congr htable.symm rfl rfl rfl le_rfl fun p hp => ?_
  have hqueue := h.removal_queue hpatches (c.doomed order start len)
  rw [hcode]
  exact opcode_flush c.code srt (h.separates (fun x hx => (hqueue x hx).2) (hpub ▸ hp))

/-! ## Wired along runs -/

/-- A cache with nothing cached and nothing published. -/
theorem Wired.of_empty (htable : c.table = fun _ => none) (hlinks : c.links = fun _ => [])
    (hpub : c.published = []) : Wired c where
  mem_links t s := by simp [htable, hlinks]
  nodup t := by simp [hlinks]
  out_published h := by simp [htable] at h
  apart := by simp [hpub]
  base_le := by simp [hpub]
  le_cursor := by simp [hpub]
  opcode := by simp [hpub]

theorem installRuntimeStubs_empty {d : CodeCache} (h : d.installRuntimeStubs = (c, .ok ())) :
    c.table = d.table ∧ c.links = d.links ∧ c.published = d.published := by
  obtain ⟨_, ⟨_, _, _, _, _, -, -, rfl⟩, -, -, rfl⟩ := installRuntimeStubs_ok h
  exact ⟨rfl, rfl, rfl⟩

/-- A reset leaves nothing cached and nothing published. -/
theorem Layout.reset_empty (h : Layout c) :
    c.reset.1.table = (fun _ => none) ∧ c.reset.1.links = (fun _ => []) ∧
      c.reset.1.published = [] :=
  installRuntimeStubs_empty (Prod.ext rfl h.stubs_fit)

theorem new_empty {memory : CodeMemory} {stubs : RuntimeStubs} {code : Mem}
    (h : CodeCache.new memory stubs code = .ok c) :
    c.table = (fun _ => none) ∧ c.links = (fun _ => []) ∧ c.published = [] := by
  obtain ⟨-, d, hd, -, -, -, htable, -, hlinks, -, hpub⟩ := new_ok h
  rw [← htable, ← hlinks, ← hpub]
  exact installRuntimeStubs_empty hd

/-- **Every step keeps the graph wired.** -/
theorem Wired.step (h : Wired c) (hlayout : Layout c) (op : CacheOp) : Wired (c.step op) := by
  have heffect := effect_step c op
  generalize c.step op = c' at heffect ⊢
  cases heffect with
  | same => exact h
  | append happend => exact h.append happend
  | @capped _ guestPc _ _ block _ _ _ happend =>
    exact (h.publish guestPc block happend).congr rfl rfl rfl rfl le_rfl fun _ _ => rfl
  | @cached _ srt guestPc ranges guestInsns block d host _ happend =>
    exact h.installCached guestPc hlayout.patches_nil happend srt ranges guestInsns
  | fill => exact h.congr rfl rfl rfl rfl le_rfl fun _ _ => rfl
  | invalidate srt order start len =>
    exact h.invalidateRange hlayout.patches_nil srt order start len
  | reset =>
    obtain ⟨htable, hlinks, hpub⟩ := hlayout.reset_empty
    exact .of_empty htable hlinks hpub

theorem wired_of_reachable (h : system.Reachable c) : Wired c := by
  refine h.invariant ?_ ?_
  · rintro s ⟨memory, stubs, code, hnew⟩
    obtain ⟨htable, hlinks, hpub⟩ := new_empty hnew
    exact .of_empty htable hlinks hpub
  · rintro s op t hreach hs ⟨-, rfl⟩
    exact hs.step (layout_of_reachable hreach) op

end CodeCache

end Rustarmic
