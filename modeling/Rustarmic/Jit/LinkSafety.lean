import Rustarmic.Jit.Links

/-!
# Where chain sites jump

Two things are wanted of the chain sites of a code cache: a registered site jumps to its target
exactly while the target is cached, and no site at all, registered or not, jumps to anything but a
cached block.  Neither holds of every run.

* An install over a cached block queues, for each site of another block that jumps there, first a
  zero and then the new displacement; the sort that orders the queue may leave the zero last
  (`reinstall_loses_link`).
* A removed block forgets its sites but keeps its bytes.  When the block such a site jumps to is
  removed later, nothing unlinks the site (`invalidate_leaves_stale_link`).

Each property holds of every run that avoids its defect: `linkGraph_of_reachable` and
`noStaleLinks_of_reachable`.
-/

set_option autoImplicit false

namespace Rustarmic

open ByteMemory

instance (site : Nat) (v : U32) (host : Nat) : Decidable (JumpsTo site v host) :=
  inferInstanceAs (Decidable (_ = _))

namespace CodeCache

variable {c c' : CodeCache}

/-! ## Displacements fit -/

/-- The displacement between two addresses of the cache fits an `i32`, so `queueLink` never
panics. -/
theorem queueLink_fits (h : Layout c) (hw : Wired c) {p : PublishedSite} (hp : p ∈ c.published)
    {host : Nat} (hlo : c.memory.base ≤ host) (hhi : host ≤ c.memory.base + c.memory.len) :
    -2 ^ 31 ≤ rel p.site host ∧ rel p.site host < 2 ^ 31 := by
  have h1 := hw.base_le p hp
  have h2 := hw.le_cursor p hp
  have h3 := h.len_le
  have h4 := h.cursor_le
  simp only [rel, siteLen, i32Max] at *
  omega

/-- A queued displacement leads where it was meant to. -/
theorem jumpsTo_rel {site host : Nat} (hlo : -2 ^ 31 ≤ rel site host)
    (hhi : rel site host < 2 ^ 31) : JumpsTo site (BitVec.ofInt 32 (rel site host)) host := by
  rw [JumpsTo, BitVec.toInt_ofInt_eq_self (by decide) (by simpa using hlo) (by simpa using hhi),
    rel]
  omega

/-- The displacement queued for a published site and a cached block leads to the block. -/
theorem jumpsTo_entry (h : Layout c) (hw : Wired c) {p : PublishedSite} (hp : p ∈ c.published)
    {t : U64} {e : Entry} (htable : c.table t = some e) :
    JumpsTo p.site (BitVec.ofInt 32 (rel p.site e.hostPtr)) e.hostPtr := by
  have hlo := h.base_le_host htable
  have hhi := h.host_lt htable
  have hcur := h.cursor_le
  obtain ⟨h1, h2⟩ := queueLink_fits h hw hp hlo (by omega)
  exact jumpsTo_rel h1 h2

/-! ## The queue of an install -/

section Install

variable {d : CodeCache} {host : Nat} {guestPc : U64} {block : EmittedBlock}

/-- A fresh site lies past every site published before it. -/
theorem Wired.new_site_ne (h : Wired c) (happend : c.appendRaw block.code = (d, .ok host))
    {p : PublishedSite} (hp : p ∈ c.published) (ch : ChainSite) : p.site ≠ siteAt host ch := by
  obtain ⟨-, hlo, -, -⟩ := appendRaw_ok happend
  have := h.le_cursor p hp
  simp only [siteLen, siteAt] at this ⊢
  omega

/-- Before the install every published site is an old one with its old displacement or a fresh
one, unlinked. -/
theorem Wired.siteRel_before (h : Wired c) (guestPc : U64) (happend : c.appendRaw block.code = (d, .ok host))
    {p : PublishedSite} (hp : p ∈ (CodeCache.beforeInstall d guestPc host block).published) :
    (p ∈ c.published ∧ d.siteRel p.site = c.siteRel p.site) ∨
      (p ∈ newSites guestPc host block.chains ∧ d.siteRel p.site = 0) := by
  rw [beforeInstall_published happend] at hp
  rcases List.mem_append.mp hp with hp | hp
  · exact .inl ⟨hp, h.siteRel_append happend hp⟩
  · obtain ⟨ch, hch, rfl⟩ := mem_newSites.mp hp
    exact .inr ⟨hp, siteRel_new block happend hch⟩

/-- **What an install queues for a site**: a zero, when the site jumped to the block that is being
replaced, or the displacement to the block its target will have. -/
theorem Wired.queue_value (h : Wired c) (hpatches : c.patches = [])
    (happend : c.appendRaw block.code = (d, .ok host)) (entry : Entry)
    (hentry : entry.hostPtr = host) {p : PublishedSite}
    (hp : p ∈ (CodeCache.beforeInstall d guestPc host block).published) {w : U32}
    (hw : (p.site, w) ∈ (CodeCache.beforeInstall d guestPc host block).installPatches guestPc host
      block.chains) :
    (w = 0 ∧ c.contains guestPc = true ∧ p ∈ c.published ∧ p.site ∈ c.links guestPc) ∨
      ∃ e, Function.update c.table guestPc (some entry) p.target = some e ∧
        w = BitVec.ofInt 32 (rel p.site e.hostPtr) := by
  have hr := h.beforeInstall guestPc happend
  rcases mem_installPatches.mp hw with hw | ⟨ch, hch, e, htable, heq⟩ | ⟨s, hs, heq⟩
  · obtain ⟨h0, hcon, hs⟩ := (mem_beforeInstall_patches hpatches happend).mp hw
    obtain ⟨q, hq, -, hsite⟩ := h.published_of_link hs
    have hqp : q = p := hr.eq_of_site
      (by rw [beforeInstall_published happend]; exact List.mem_append_left _ hq) hp hsite
    exact .inl ⟨h0, hcon, hqp ▸ hq, hs⟩
  · rw [Prod.mk.injEq] at heq
    have hpn := hr.eq_of_site hp (newSites_subset happend _ (mem_newSites.mpr ⟨ch, hch, rfl⟩)) heq.1
    rw [beforeInstall_table guestPc happend] at htable
    have hne : ch.targetPc ≠ guestPc := by
      intro hpc
      rw [hpc, Function.update_self] at htable
      cases htable
    rw [Function.update_of_ne hne] at htable
    refine .inr ⟨e, ?_, ?_⟩
    · rw [hpn, Function.update_of_ne hne, htable]
    · rw [heq.2, heq.1]
  · rw [Prod.mk.injEq] at heq
    have htarget : p.target = guestPc := by
      rcases mem_linksWith.mp hs with hs | ⟨ch, hch, hpc, hsite⟩
      · exact hr.target_of_link hp (heq.1 ▸ hs)
      · rw [hr.eq_of_site hp (newSites_subset happend _ (mem_newSites.mpr ⟨ch, hch, rfl⟩))
          (heq.1.trans hsite.symm), hpc]
    refine .inr ⟨entry, ?_, ?_⟩
    · rw [htarget, Function.update_self]
    · rw [heq.2, heq.1, hentry]

/-- The sites registered for the installed block's PC are queued. -/
theorem queue_inbound {s : Nat}
    (hs : s ∈ (beforeInstall d guestPc host block).linksWith host block.chains guestPc) :
    (s, BitVec.ofInt 32 (rel s host)) ∈
      (beforeInstall d guestPc host block).installPatches guestPc host block.chains :=
  mem_installPatches.mpr (.inr (.inr ⟨s, hs, rfl⟩))

/-- The installed block's sites with a cached target are queued. -/
theorem queue_outbound (happend : c.appendRaw block.code = (d, .ok host)) {ch : ChainSite}
    (hch : ch ∈ block.chains) {e : Entry} (hne : ch.targetPc ≠ guestPc)
    (htable : c.table ch.targetPc = some e) :
    (siteAt host ch, BitVec.ofInt 32 (rel (siteAt host ch) e.hostPtr)) ∈
      (beforeInstall d guestPc host block).installPatches guestPc host block.chains := by
  refine mem_installPatches.mpr (.inr (.inl ⟨ch, hch, e, ?_, rfl⟩))
  rw [beforeInstall_table guestPc happend, Function.update_of_ne hne, htable]

/-- The parts of the cache after an install that decide where sites should jump. -/
theorem installCached_graph (guestPc : U64) (happend : c.appendRaw block.code = (d, .ok host))
    (srt : UnstableSort) (entry : Entry) (hentry : entry.hostPtr = host) :
    ((d.publish guestPc host block.chains).installCached srt guestPc entry block.chains).links
        = (beforeInstall d guestPc host block).linksWith host block.chains ∧
      ((d.publish guestPc host block.chains).installCached srt guestPc entry block.chains).table
        = Function.update c.table guestPc (some entry) ∧
      ((d.publish guestPc host block.chains).installCached srt guestPc entry block.chains).published
        = (beforeInstall d guestPc host block).published := by
  rw [installCached_eq, hentry]
  obtain ⟨-, -, -, rfl⟩ := appendRaw_ok happend
  exact ⟨rfl, rfl, rfl⟩

/-- **What an install does to a published site.**  It is unlinked because it jumped to the block
being replaced; or linked to its target's block; or an old site left alone, which is registered
neither for the new block nor for the one replaced; or a fresh site without a target. -/
theorem Wired.installed_site (h : Wired c) (hpatches : c.patches = [])
    (happend : c.appendRaw block.code = (d, .ok host)) (srt : UnstableSort)
    (ranges : List (U64 × U64)) (guestInsns : U32) {f : CodeCache}
    (hf : f = (d.publish guestPc host block.chains).installCached srt guestPc
      (entryOf guestPc ranges guestInsns block host) block.chains)
    (hlayout : Layout f) {p : PublishedSite} (hp : p ∈ f.published) :
    (f.siteRel p.site = 0 ∧ p ∈ c.published ∧ c.contains guestPc = true ∧
        p.site ∈ c.links guestPc) ∨
      (∃ e, f.table p.target = some e ∧ JumpsTo p.site (f.siteRel p.site) e.hostPtr) ∨
      (p ∈ c.published ∧ f.siteRel p.site = c.siteRel p.site ∧ p.site ∉ f.links guestPc ∧
        (c.contains guestPc = true → p.site ∉ c.links guestPc)) ∨
      p ∈ newSites guestPc host block.chains ∧ f.siteRel p.site = 0 ∧ f.table p.target = none := by
  have hw : Wired f := hf ▸ h.installCached guestPc hpatches happend srt ranges guestInsns
  obtain ⟨hlinks, htable, hpub⟩ := installCached_graph guestPc happend srt
    (entryOf guestPc ranges guestInsns block host) rfl
  rw [← hf] at hlinks htable hpub
  have hpr := hp
  rw [hpub] at hpr
  have hrel := h.siteRel_installCached guestPc hpatches happend srt ranges guestInsns hpr
  rw [← hf] at hrel
  rcases hrel with ⟨hnone, heq⟩ | ⟨w, hwq, heq⟩
  · rcases h.siteRel_before guestPc happend hpr with ⟨hold, hsame⟩ | ⟨hnew, hzero⟩
    · refine .inr (.inr (.inl ⟨hold, heq.trans hsame, ?_, fun hcon hs => ?_⟩))
      · intro hs
        rw [hlinks] at hs
        exact hnone _ (queue_inbound hs)
      · refine hnone 0 (mem_installPatches.mpr (.inl ?_))
        exact (mem_beforeInstall_patches hpatches happend).mpr ⟨rfl, hcon, hs⟩
    · refine .inr (.inr (.inr ⟨hnew, heq.trans hzero, ?_⟩))
      obtain ⟨ch, hch, rfl⟩ := mem_newSites.mp hnew
      have hne : ch.targetPc ≠ guestPc := by
        intro hpc
        exact hnone _ (queue_inbound (mem_linksWith.mpr (.inr ⟨ch, hch, hpc, rfl⟩)))
      rw [htable, Function.update_of_ne hne]
      cases hc : c.table ch.targetPc with
      | none => rfl
      | some e => exact absurd (queue_outbound happend hch hne hc) (hnone _)
  · rcases h.queue_value hpatches happend (entryOf guestPc ranges guestInsns block host) rfl hpr hwq
      with ⟨h0, hcon, hold, hs⟩ | ⟨e, he, hwe⟩
    · exact .inl ⟨heq.trans h0, hold, hcon, hs⟩
    · rw [← htable] at he
      refine .inr (.inl ⟨e, he, ?_⟩)
      rw [heq, hwe]
      exact jumpsTo_entry hlayout hw hp he

end Install

/-! ## A small run -/

/-- Unlike `stableSort`: patches of one site end up in the reverse order. -/
def tiesReversed : UnstableSort where
  sort l := l.reverse.insertionSort fun p q => p.1 ≤ q.1
  perm l := (List.perm_insertionSort _ _).trans l.reverse_perm
  sorted _ := List.pairwise_insertionSort _ _

/-- A block that is a single chain site. -/
def jumpBlock (target : U64) : EmittedBlock where
  code := [0xE9, 0, 0, 0, 0, 0xC3]
  chains := [⟨0, target⟩]
  thunkKind := .full
  unlinked := by simp [siteLen]
  apart := List.pairwise_singleton _ _

/-- A block at `0x1000` that goes to `0x2000`, and a block there. -/
def jumpOp : CacheOp :=
  .installBlock stableSort 0x1000 [(0x1000, 0x1004)] 1 (jumpBlock 0x2000) none

def targetOp (srt : UnstableSort) : CacheOp :=
  .installBlock srt 0x2000 [(0x2000, 0x2004)] 1 (plainBlock [0xC3] .full) none

def linkedPair : CodeCache := (sampleCache.step jumpOp).step (targetOp stableSort)

theorem reachable_linkedPair : system.Reachable linkedPair :=
  reachable_step (reachable_step reachable_sampleCache jumpOp trivial) (targetOp stableSort) trivial

example : linkedPair.siteRel 0x10000020 = 0xB := by decide

theorem linkedPair_table : linkedPair.table = Function.update (Function.update (fun _ => none) 0x1000
    (some ⟨0x10000020, [(0x1000, 0x1004)], [(0x2000, 0x10000020)], 1, .full⟩)) 0x2000
    (some ⟨0x10000030, [(0x2000, 0x2004)], [], 1, .full⟩) := rfl

theorem linkedPair_contains (pc : U64) :
    linkedPair.contains pc = true ↔ pc = 0x1000 ∨ pc = 0x2000 := by
  rw [contains, linkedPair_table, Function.update_apply, Function.update_apply]
  split_ifs <;> simp_all

/-! ## Registered sites -/

/-- The link-graph invariant: every chain site of a cached block is registered exactly once, under
its target; nothing else is registered; and the site jumps to the target's block if there is one
and is unlinked otherwise. -/
structure LinkGraph (c : CodeCache) : Prop where
  once : ∀ {pc e t s}, c.table pc = some e → (t, s) ∈ e.outSites → (c.links t).count s = 1
  no_other : ∀ {t s}, s ∈ c.links t → ∃ pc e, c.table pc = some e ∧ (t, s) ∈ e.outSites
  jumps : ∀ {pc e t s}, c.table pc = some e → (t, s) ∈ e.outSites → c.code s = 0xE9 ∧
    match c.table t with
    | some target => JumpsTo s (c.siteRel s) target.hostPtr
    | none => c.siteRel s = 0

/-- The operation does not install over a cached block to which another block's site jumps. -/
def ReplacesUnlinked (c : CodeCache) (op : CacheOp) : Prop :=
  ∀ pc block e, op.installs = some (pc, block) → c.table pc = some e →
    ∀ s ∈ c.links pc, (pc, s) ∈ e.outSites

/-- A registered site jumps to its target's block if there is one and is unlinked otherwise. -/
def LinksRight (c : CodeCache) : Prop :=
  ∀ t s, s ∈ c.links t → (∀ e, c.table t = some e → JumpsTo s (c.siteRel s) e.hostPtr) ∧
    (c.table t = none → c.siteRel s = 0)

theorem LinksRight.congr (h : LinksRight c) (htable : c'.table = c.table)
    (hlinks : c'.links = c.links)
    (hrel : ∀ t s, s ∈ c.links t → c'.siteRel s = c.siteRel s) : LinksRight c' := by
  intro t s hs
  rw [hlinks] at hs
  rw [htable, hrel t s hs]
  exact h t s hs

theorem LinksRight.append (h : LinksRight c) (hw : Wired c) {d : CodeCache} {bytes : List U8}
    {host : Nat} (happend : c.appendRaw bytes = (d, .ok host)) : LinksRight d := by
  have hrel : ∀ t s, s ∈ c.links t → d.siteRel s = c.siteRel s := by
    intro t s hs
    obtain ⟨p, hp, -, rfl⟩ := hw.published_of_link hs
    exact hw.siteRel_append happend hp
  obtain ⟨-, -, -, rfl⟩ := appendRaw_ok happend
  exact h.congr rfl rfl hrel

/-- **An install that replaces no linked block leaves the registered sites right.** -/
theorem LinksRight.installCached (h : LinksRight c) (hw : Wired c) (hpatches : c.patches = [])
    {d : CodeCache} {host : Nat} {guestPc : U64} {block : EmittedBlock}
    (happend : c.appendRaw block.code = (d, .ok host)) (srt : UnstableSort)
    (ranges : List (U64 × U64)) (guestInsns : U32)
    (hclear : ∀ e, c.table guestPc = some e → ∀ s ∈ c.links guestPc, (guestPc, s) ∈ e.outSites)
    {f : CodeCache} (hf : f = (d.publish guestPc host block.chains).installCached srt guestPc
      (entryOf guestPc ranges guestInsns block host) block.chains) (hlayout : Layout f) :
    LinksRight f := by
  have hwf : Wired f := hf ▸ hw.installCached guestPc hpatches happend srt ranges guestInsns
  obtain ⟨hlinks, htable, -⟩ := installCached_graph guestPc happend srt
    (entryOf guestPc ranges guestInsns block host) rfl
  rw [← hf] at hlinks htable
  -- An old site registered after the install was registered before, and not for the old block.
  have hold {p : PublishedSite} (hp : p ∈ c.published) (hs : p.site ∈ f.links p.target) :
      p.site ∈ c.links p.target ∧
        ∀ e, c.table guestPc = some e → (p.target, p.site) ∉ e.outSites := by
    rw [hlinks] at hs
    rcases mem_linksWith.mp hs with hs | ⟨ch, -, -, hsite⟩
    · exact (mem_beforeInstall_links happend).mp hs
    · exact absurd hsite.symm (hw.new_site_ne happend hp ch)
  intro t s hs
  obtain ⟨p, hp, rfl, rfl⟩ := hwf.published_of_link hs
  rcases hw.installed_site hpatches happend srt ranges guestInsns hf hlayout hp with
    ⟨-, hpc, hcon, hlink⟩ | ⟨e, he, hjump⟩ | ⟨hpc, heq, hne, -⟩ | ⟨-, hzero, hnone⟩
  · exfalso
    obtain ⟨e, he⟩ := Option.isSome_iff_exists.mp hcon
    have hout := hclear e he p.site hlink
    rw [← hw.target_of_link hpc hlink] at hout
    exact (hold hpc hs).2 e he hout
  · refine ⟨fun e' he' => ?_, fun hnone => ?_⟩
    · rw [he, Option.some.injEq] at he'
      exact he' ▸ hjump
    · rw [he] at hnone
      cases hnone
  · have hne' : p.target ≠ guestPc := by
      intro heq'
      exact hne (heq' ▸ hs)
    rw [htable, Function.update_of_ne hne', heq]
    exact h p.target p.site (hold hpc hs).1
  · refine ⟨fun e he => ?_, fun _ => hzero⟩
    rw [hnone] at he
    cases he

/-- A site registered to the end, whose target was removed on the way, is queued for unlinking. -/
theorem mem_patches_of_removed (l : List U64) {t : U64} (ht : t ∈ l) (hcon : c.contains t = true)
    {s : Nat} (hs : s ∈ (l.foldl removeBlock c).links t) :
    (s, 0) ∈ (l.foldl removeBlock c).patches := by
  induction l generalizing c with
  | nil => cases ht
  | cons pc l ih =>
    rw [List.foldl_cons] at hs ⊢
    by_cases hpc : t = pc
    · subst hpc
      have hlink := removeBlock_links_subset t t (foldl_removeBlock_links_subset l hs)
      exact patches_subset_foldl_removeBlock l
        (mem_removeBlock_patches.mpr (.inr ⟨rfl, hcon, hlink⟩))
    · refine ih ((List.mem_cons.mp ht).resolve_left hpc) ?_ hs
      rw [contains, (removeBlock_frame c pc).2.2.2.2.2.2.2, Function.update_of_ne hpc]
      exact hcon

/-- **An invalidation leaves the registered sites right**, whatever the order it removes in. -/
theorem LinksRight.invalidateRange (h : LinksRight c) (hw : Wired c) (hpatches : c.patches = [])
    (srt : UnstableSort) (order : List U64) (start len : U64) :
    LinksRight (c.invalidateRange srt order start len) := by
  have hlinks : (c.invalidateRange srt order start len).links
      = ((c.doomed order start len).foldl removeBlock c).links := by
    rw [invalidateRange_eq]
  have htable : (c.invalidateRange srt order start len).table
      = fun pc => if pc ∈ c.doomed order start len then none else c.table pc := by
    rw [invalidateRange_eq]
  intro t s hs
  rw [hlinks] at hs
  have hlink := foldl_removeBlock_links_subset _ hs
  obtain ⟨p, hp, rfl, rfl⟩ := hw.published_of_link hlink
  rw [htable]
  dsimp only
  by_cases hdoom : p.target ∈ c.doomed order start len
  · rw [if_pos hdoom]
    have hq := mem_patches_of_removed _ hdoom (contains_of_mem_doomed hdoom) hs
    rcases hw.siteRel_invalidateRange hpatches srt order start len hp with ⟨hnone, -⟩ | ⟨-, heq⟩
    · exact absurd hq (hnone 0)
    · exact ⟨fun e he => (by cases he), fun _ => heq⟩
  · rw [if_neg hdoom]
    rcases hw.siteRel_invalidateRange hpatches srt order start len hp with ⟨-, heq⟩ | ⟨hq, -⟩
    · rw [heq]
      exact h p.target p.site hlink
    · -- The site is queued for its target only, which stays.
      exfalso
      rcases foldl_removeBlock_patches _ hq with hq | ⟨-, pc, hpc, hs'⟩
      · simp [hpatches] at hq
      · rw [hw.target_unique hlink hs'] at hdoom
        exact hdoom hpc

/-- **The step lemma for registered sites.** -/
theorem LinksRight.step (h : LinksRight c) (hw : Wired c) (hlayout : Layout c) {op : CacheOp}
    (hop : c.ReplacesUnlinked op) : LinksRight (c.step op) := by
  have heffect := effect_step c op
  have hlayout' := hlayout.step op
  generalize c.step op = c' at heffect hlayout' ⊢
  cases heffect with
  | same => exact h
  | append happend => exact h.append hw happend
  | capped happend => exact (h.append hw happend).congr rfl rfl fun _ _ _ => rfl
  | @cached _ srt guestPc ranges guestInsns block d host hinst happend =>
    exact h.installCached hw hlayout.patches_nil happend srt ranges guestInsns
      (fun e he => hop guestPc block e hinst he) rfl hlayout'
  | fill => exact h.congr rfl rfl fun _ _ _ => rfl
  | invalidate srt order start len =>
    exact h.invalidateRange hw hlayout.patches_nil srt order start len
  | reset =>
    obtain ⟨-, hlinks, -⟩ := hlayout.reset_empty
    intro t s hs
    simp [hlinks] at hs

/-- **The link-graph invariant.**  In every run that never installs over a block to which another
block's site jumps, every state reached has it. -/
theorem linkGraph_of_reachable {c : CodeCache}
    (h : (system.guarded ReplacesUnlinked).Reachable c) : LinkGraph c := by
  have hw := wired_of_reachable h.of_guarded
  have hright : LinksRight c := by
    refine h.invariant ?_ ?_
    · rintro s ⟨memory, stubs, code, hnew⟩ t site hs
      obtain ⟨-, hlinks, -⟩ := new_empty hnew
      simp [hlinks] at hs
    · rintro s op t hreach hs ⟨hop, -, rfl⟩
      exact hs.step (wired_of_reachable hreach.of_guarded) (layout_of_reachable hreach.of_guarded)
        hop
  refine ⟨fun {pc e t s} htable hout => ?_, fun hs => (hw.mem_links _ _).mp hs, ?_⟩
  · exact List.count_eq_one_of_mem (hw.nodup t) ((hw.mem_links t s).mpr ⟨pc, e, htable, hout⟩)
  · intro pc e t s htable hout
    obtain ⟨hjump, hzero⟩ := hright t s ((hw.mem_links t s).mpr ⟨pc, e, htable, hout⟩)
    refine ⟨hw.opcode _ (hw.out_published htable hout), ?_⟩
    cases htarget : c.table t with
    | none => exact hzero htarget
    | some target => exact hjump target htarget

/-- A block of twenty chain sites that all go to `0x2000`. -/
def fanBlock : EmittedBlock where
  code := (List.replicate 20 ([0xE9, 0, 0, 0, 0] : List U8)).flatten ++ [0xC3]
  chains := (List.range 20).map fun i => ⟨BitVec.ofNat 32 (5 * i), 0x2000⟩
  thunkKind := .full
  unlinked := by
    rw [List.forall_mem_map]
    decide
  apart := by
    rw [List.pairwise_map]
    decide

def fanOp : CacheOp := .installBlock stableSort 0x1000 [(0x1000, 0x1050)] 20 fanBlock none

/-- The block of many sites, and the block they all jump to. -/
def linkedFan : CodeCache := (sampleCache.step fanOp).step (targetOp stableSort)

theorem reachable_linkedFan : system.Reachable linkedFan :=
  reachable_step (reachable_step reachable_sampleCache fanOp trivial) (targetOp stableSort) trivial

set_option maxRecDepth 20000 in
/-- Installing the target again queues two patches for each of its sites.  Where the sort leaves the
two of a site in the other order, the site stays unlinked; a sort that is an insertion sort for
short lists does not do so for a few sites, but forty patches are too many for that. -/
theorem reinstall_loses_link : ∃ c, c = linkedFan.step (targetOp tiesReversed) ∧
    system.Reachable c ∧ c.links 0x2000 = (List.range 20).map (0x10000020 + 5 * ·) ∧
    c.contains 0x2000 = true ∧ (∀ s ∈ c.links 0x2000, c.siteRel s = 0) ∧ ¬ LinkGraph c := by
  have hlinks : (linkedFan.step (targetOp tiesReversed)).links 0x2000 =
      (List.range 20).map (0x10000020 + 5 * ·) := by decide +kernel
  have hrel : ∀ s ∈ (List.range 20).map (0x10000020 + 5 * ·),
      (linkedFan.step (targetOp tiesReversed)).siteRel s = 0 := by decide +kernel
  refine ⟨_, rfl, reachable_step reachable_linkedFan (targetOp tiesReversed) trivial, hlinks,
    by decide, by rwa [hlinks], fun h => ?_⟩
  have hjump : JumpsTo 0x10000020
      ((linkedFan.step (targetOp tiesReversed)).siteRel 0x10000020) 0x100000A0 :=
    (@LinkGraph.jumps _ h 0x1000 _ 0x2000 0x10000020 rfl (by decide +kernel)).2
  rw [hrel 0x10000020 (by decide)] at hjump
  revert hjump
  decide

theorem linkGraph_of_reachable_linkedPair : LinkGraph linkedPair := by
  have h1 : (system.guarded ReplacesUnlinked).Reachable (sampleCache.step jumpOp) := by
    refine .step jumpOp (.init ⟨sampleMemory, sampleStubs, fun _ => 0, rfl⟩) ⟨?_, trivial, rfl⟩
    intro pc block e _ he
    cases he
  refine linkGraph_of_reachable (.step (targetOp stableSort) h1 ⟨?_, trivial, rfl⟩)
  rintro pc block e ⟨⟩ he
  cases he

/-! ## All published sites -/

/-- No published site, of a block that is still cached or of one removed since, jumps to anything
but the entry of a cached block. -/
def NoStaleLinks (c : CodeCache) : Prop :=
  ∀ p ∈ c.published, c.siteRel p.site ≠ 0 →
    ∃ pc e, c.table pc = some e ∧ JumpsTo p.site (c.siteRel p.site) e.hostPtr

/-- The cached blocks an operation removes, in order. -/
def removes (c : CodeCache) (op : CacheOp) : List U64 :=
  match op with
  | .invalidateRange _ order start len => c.doomed order start len
  | op => match op.installs with
    | some (pc, _) => if c.contains pc then [pc] else []
    | none => []

/-- When the operation removes a block to which a site jumps, the site's own block is still cached,
and does not go before it in the same operation. -/
def RemovesTargetsFirst (c : CodeCache) (op : CacheOp) : Prop :=
  ∀ p ∈ c.published, c.siteRel p.site ≠ 0 → p.target ∈ c.removes op →
    (∃ e, c.table p.pc = some e ∧ (p.target, p.site) ∈ e.outSites) ∧
      (c.removes op).idxOf p.target ≤ (c.removes op).idxOf p.pc

/-- Every published site is unlinked or jumps to its target's block. -/
def SitesSound (c : CodeCache) : Prop :=
  ∀ p ∈ c.published, c.siteRel p.site = 0 ∨
    ∃ e, c.table p.target = some e ∧ JumpsTo p.site (c.siteRel p.site) e.hostPtr

theorem SitesSound.noStaleLinks (h : SitesSound c) : NoStaleLinks c := by
  intro p hp hne
  obtain ⟨e, he, hjump⟩ := (h p hp).resolve_left hne
  exact ⟨p.target, e, he, hjump⟩

theorem SitesSound.congr (h : SitesSound c) (htable : c'.table = c.table)
    (hpub : c'.published = c.published)
    (hrel : ∀ p ∈ c.published, c'.siteRel p.site = c.siteRel p.site) : SitesSound c' := by
  intro p hp
  rw [hpub] at hp
  rw [htable, hrel p hp]
  exact h p hp

theorem SitesSound.append (h : SitesSound c) (hw : Wired c) {d : CodeCache} {bytes : List U8}
    {host : Nat} (happend : c.appendRaw bytes = (d, .ok host)) : SitesSound d := by
  have hrel : ∀ p ∈ c.published, d.siteRel p.site = c.siteRel p.site :=
    fun p hp => hw.siteRel_append happend hp
  obtain ⟨-, -, -, rfl⟩ := appendRaw_ok happend
  exact h.congr rfl rfl hrel

/-- A capped block's sites are published unlinked. -/
theorem SitesSound.publish (h : SitesSound c) (hw : Wired c) {d : CodeCache} {host : Nat}
    (guestPc : U64) (block : EmittedBlock) (happend : c.appendRaw block.code = (d, .ok host)) :
    SitesSound (d.publish guestPc host block.chains) := by
  intro p hp
  rw [published_publish] at hp
  rcases List.mem_append.mp hp with hp | hp
  · exact h.append hw happend p hp
  · obtain ⟨ch, hch, rfl⟩ := mem_newSites.mp hp
    exact .inl (siteRel_new block happend hch)

/-- An install leaves every site sound, provided the sites that jumped to the block it replaces
are registered. -/
theorem SitesSound.installCached (h : SitesSound c) (hw : Wired c) (hpatches : c.patches = [])
    {d : CodeCache} {host : Nat} {guestPc : U64} {block : EmittedBlock}
    (happend : c.appendRaw block.code = (d, .ok host)) (srt : UnstableSort)
    (ranges : List (U64 × U64)) (guestInsns : U32)
    (hlinked : ∀ p ∈ c.published, c.siteRel p.site ≠ 0 → p.target = guestPc →
      c.contains guestPc = true → p.site ∈ c.links guestPc)
    {f : CodeCache} (hf : f = (d.publish guestPc host block.chains).installCached srt guestPc
      (entryOf guestPc ranges guestInsns block host) block.chains) (hlayout : Layout f) :
    SitesSound f := by
  obtain ⟨-, htable, -⟩ := installCached_graph guestPc happend srt
    (entryOf guestPc ranges guestInsns block host) rfl
  rw [← hf] at htable
  intro p hp
  rcases hw.installed_site hpatches happend srt ranges guestInsns hf hlayout hp with
    ⟨hzero, -⟩ | hjump | ⟨hpc, heq, -, hnot⟩ | ⟨-, hzero, -⟩
  · exact .inl hzero
  · exact .inr hjump
  · rw [heq]
    rcases h p hpc with hzero | ⟨e, he, hjump⟩
    · exact .inl hzero
    · by_cases hrel : c.siteRel p.site = 0
      · exact .inl hrel
      · have hne : p.target ≠ guestPc := by
          intro htarget
          have hcon : c.contains guestPc = true := by
            rw [contains, ← htarget, he]
            rfl
          exact hnot hcon (hlinked p hpc hrel htarget hcon)
        rw [htable, Function.update_of_ne hne]
        exact .inr ⟨e, he, hjump⟩
  · exact .inl hzero

/-- A site is queued for unlinking when its target is removed no later than its own block. -/
theorem Wired.mem_patches_of_order (h : Wired c) (l : List U64) {p : PublishedSite} {e : Entry}
    (he : c.table p.pc = some e) (hout : (p.target, p.site) ∈ e.outSites)
    (hcon : c.contains p.target = true) (ht : p.target ∈ l)
    (hidx : l.idxOf p.target ≤ l.idxOf p.pc) :
    (p.site, 0) ∈ (l.foldl CodeCache.removeBlock c).patches := by
  induction l generalizing c with
  | nil => cases ht
  | cons pc l ih =>
    rw [List.foldl_cons]
    by_cases hpc : p.target = pc
    · have hlink := (h.mem_links _ _).mpr ⟨p.pc, e, he, hout⟩
      rw [hpc] at hlink hcon
      exact patches_subset_foldl_removeBlock l
        (mem_removeBlock_patches.mpr (.inr ⟨rfl, hcon, hlink⟩))
    · -- The head of the list is neither the target nor, since it comes first, the site's block.
      have hne : p.pc ≠ pc := by
        rintro rfl
        rw [List.idxOf_cons_self, List.idxOf_cons_ne _ (Ne.symm hpc)] at hidx
        omega
      have htable := (removeBlock_frame c pc).2.2.2.2.2.2.2
      rw [List.idxOf_cons_ne _ (Ne.symm hpc), List.idxOf_cons_ne _ (Ne.symm hne)] at hidx
      refine ih (h.removeBlock pc) ?_ ?_ ((List.mem_cons.mp ht).resolve_left hpc) (by omega)
      · rw [htable, Function.update_of_ne hne, he]
      · rw [contains, htable, Function.update_of_ne hpc]
        exact hcon

theorem SitesSound.invalidateRange (h : SitesSound c) (hw : Wired c) (hpatches : c.patches = [])
    {srt : UnstableSort} {order : List U64} {start len : U64}
    (hop : c.RemovesTargetsFirst (.invalidateRange srt order start len)) :
    SitesSound (c.invalidateRange srt order start len) := by
  have hpub : (c.invalidateRange srt order start len).published = c.published := by
    rw [invalidateRange_eq]
    exact (foldl_removeBlock_frame _ c).2.2.2.2.2.1
  have htable : (c.invalidateRange srt order start len).table
      = fun pc => if pc ∈ c.doomed order start len then none else c.table pc := by
    rw [invalidateRange_eq]
  intro p hp
  rw [hpub] at hp
  rcases hw.siteRel_invalidateRange hpatches srt order start len hp with ⟨hnone, heq⟩ | ⟨-, heq⟩
  · rw [heq]
    by_cases hrel : c.siteRel p.site = 0
    · exact .inl hrel
    · obtain ⟨e, he, hjump⟩ := (h p hp).resolve_left hrel
      refine .inr ⟨e, ?_, hjump⟩
      rw [htable]
      dsimp only
      rw [if_neg, he]
      intro hdoom
      obtain ⟨⟨e', he', hout⟩, hidx⟩ := hop p hp hrel hdoom
      exact hnone 0 (hw.mem_patches_of_order _ he' hout (contains_of_mem_doomed hdoom) hdoom hidx)
  · exact .inl heq

/-- **The step lemma for published sites.** -/
theorem SitesSound.step (h : SitesSound c) (hw : Wired c) (hlayout : Layout c) {op : CacheOp}
    (hop : c.RemovesTargetsFirst op) : SitesSound (c.step op) := by
  have heffect := effect_step c op
  have hlayout' := hlayout.step op
  generalize c.step op = c' at heffect hlayout' ⊢
  cases heffect with
  | same => exact h
  | append happend => exact h.append hw happend
  | @capped _ guestPc _ _ block _ _ _ happend =>
    exact (h.publish hw guestPc block happend).congr rfl rfl fun _ _ => rfl
  | @cached _ srt guestPc ranges guestInsns block d host hinst happend =>
    refine h.installCached hw hlayout.patches_nil happend srt ranges guestInsns ?_ rfl hlayout'
    intro p hp hrel htarget hcon
    have hrem : p.target ∈ c.removes op := by
      have : c.removes op = [guestPc] := by
        cases op with
        | installBlock => simp [removes, hinst, hcon]
        | install => simp [removes, hinst, hcon]
        | lookup => cases hinst
        | invalidateRange => cases hinst
        | reset => cases hinst
      rw [this, htarget]
      exact List.mem_singleton_self guestPc
    obtain ⟨⟨e, he, hout⟩, -⟩ := hop p hp hrel hrem
    rw [htarget] at hout
    exact (hw.mem_links _ _).mpr ⟨p.pc, e, he, hout⟩
  | fill => exact h.congr rfl rfl fun _ _ => rfl
  | invalidate srt order start len => exact h.invalidateRange hw hlayout.patches_nil hop
  | reset =>
    obtain ⟨-, -, hpub⟩ := hlayout.reset_empty
    intro p hp
    simp [hpub] at hp

/-- **Stale code is unreachable**, in every run that never removes a block while a site of a block
removed before it still jumps there. -/
theorem noStaleLinks_of_reachable {c : CodeCache}
    (h : (system.guarded RemovesTargetsFirst).Reachable c) : NoStaleLinks c := by
  refine SitesSound.noStaleLinks (h.invariant ?_ ?_)
  · rintro s ⟨memory, stubs, code, hnew⟩ p hp
    obtain ⟨-, -, hpub⟩ := new_empty hnew
    simp [hpub] at hp
  · rintro s op t hreach hs ⟨hop, -, rfl⟩
    exact hs.step (wired_of_reachable hreach.of_guarded) (layout_of_reachable hreach.of_guarded) hop

/-- Removing the block at `0x1000` first, in an earlier call or in the same one, and then its
target leaves its site jumping to the target; removing the target first does not. -/
theorem invalidate_leaves_stale_link :
    (∃ c, c = (linkedPair.step (.invalidateRange stableSort [0x1000, 0x2000] 0x1000 4)).step
        (.invalidateRange stableSort [0x2000] 0x2000 4) ∧
      system.Reachable c ∧ ¬ NoStaleLinks c) ∧
    (linkedPair.invalidateRange stableSort [0x1000, 0x2000] 0 (BitVec.allOnes 64)).siteRel 0x10000020
      = 0xB ∧
    (linkedPair.invalidateRange stableSort [0x2000, 0x1000] 0 (BitVec.allOnes 64)).siteRel 0x10000020
      = 0 := by
  have htable : (linkedPair.step (.invalidateRange stableSort [0x1000, 0x2000] 0x1000 4)).table
      = Function.update linkedPair.table 0x1000 none := rfl
  have h1 := reachable_step reachable_linkedPair
    (.invalidateRange stableSort [0x1000, 0x2000] 0x1000 4)
    ⟨by decide, fun pc => by simpa using (linkedPair_contains pc).symm⟩
  refine ⟨⟨_, rfl, reachable_step h1 _ ⟨by decide, fun pc => ?_⟩, ?_⟩, by decide, by decide⟩
  · rw [contains, htable, linkedPair_table]
    simp only [Function.update_apply, List.mem_singleton]
    split_ifs <;> simp_all
  · intro h
    obtain ⟨pc, e, he, -⟩ := h ⟨0x1000, 0x2000, 0x10000020⟩ (by decide) (by decide)
    have hempty : ((linkedPair.step (.invalidateRange stableSort [0x1000, 0x2000] 0x1000 4)).step
        (.invalidateRange stableSort [0x2000] 0x2000 4)).table
          = Function.update (Function.update linkedPair.table 0x1000 none) 0x2000 none := rfl
    rw [hempty, linkedPair_table] at he
    simp only [Function.update_apply] at he
    split_ifs at he

theorem noStaleLinks_of_reachable_linkedPair : NoStaleLinks linkedPair := by
  have h1 : (system.guarded RemovesTargetsFirst).Reachable (sampleCache.step jumpOp) := by
    refine .step jumpOp (.init ⟨sampleMemory, sampleStubs, fun _ => 0, rfl⟩) ⟨?_, trivial, rfl⟩
    intro p hp
    cases hp
  refine noStaleLinks_of_reachable (.step (targetOp stableSort) h1 ⟨?_, trivial, rfl⟩)
  intro p _ _ hrem
  cases hrem

end CodeCache

end Rustarmic
