import Rustarmic.Jit.CodeCache

/-!
# What each cache operation changes

One lemma for each helper of the code cache, giving the state after it as an explicit update of the
state before.  Everything later about runs of the cache is derived from these; none of the helpers
is unfolded again.

* `appendRaw_ok`, `appendRaw_error` — bytes are appended past the cursor or nothing happens.
* `registerSites_eq`, `linkInbound_eq`, `forgetSites_apply` — the three traversals of the link
  graph, as one update each.
* `installBlock_cases`, `installRuntimeStubs_ok`, `new_ok` — the ways the composite operations can
  end.
* `layout_of_reachable` — where things are; a reset never fails, since the stubs fitted when the
  cache was made.
-/

set_option autoImplicit false

namespace Rustarmic

open ByteMemory

namespace CodeCache

variable {c c' : CodeCache}

/-! ## Publishing -/

theorem publicationRange_ok {page cursor len capacity : Nat} {r : PublicationRange}
    (h : publicationRange page cursor len capacity = .ok r) :
    0 < len ∧ cursor ≤ r.byteStart ∧ r.byteEnd = r.byteStart + len ∧ r.byteEnd ≤ capacity := by
  rw [publicationRange] at h
  split_ifs at h with h1 h2
  dsimp only at h
  split_ifs at h with h3 h4 h5 h6
  cases h
  exact ⟨by omega, by dsimp only; omega, rfl, by dsimp only; omega⟩

theorem appendRaw_error {bytes : List U8} {e : Error} (h : c.appendRaw bytes = (c', .error e)) :
    c' = c := by
  rw [appendRaw] at h
  split at h <;> cases h
  rfl

/-- Bytes are appended past the cursor, inside the allocation. -/
theorem appendRaw_ok {bytes : List U8} {host : Nat} (h : c.appendRaw bytes = (c', .ok host)) :
    0 < bytes.length ∧ c.memory.base + c.cursor ≤ host ∧
      host + bytes.length ≤ c.memory.base + c.memory.len ∧
      c' = { c with code := writeBytes c.code host bytes
                    cursor := host + bytes.length - c.memory.base } := by
  rw [appendRaw] at h
  split at h
  · cases h
  · rename_i r hr
    obtain ⟨hlen, hstart, hend, hcap⟩ := publicationRange_ok hr
    cases h
    refine ⟨hlen, by omega, by omega, ?_⟩
    rw [show c.memory.base + r.byteStart + bytes.length - c.memory.base = r.byteEnd by omega]

/-- The part of the state that decides whether bytes fit. -/
def SameLayout (c c' : CodeCache) : Prop :=
  c'.memory = c.memory ∧ c'.stubs = c.stubs ∧ c'.cursor = c.cursor

/-- Two caches of the same layout both refuse some bytes or both take them at the same address. -/
theorem SameLayout.appendRaw (h : SameLayout c c') (bytes : List U8) :
    (∃ e, c.appendRaw bytes = (c, .error e) ∧ c'.appendRaw bytes = (c', .error e)) ∨
      ∃ d d' host, c.appendRaw bytes = (d, .ok host) ∧ c'.appendRaw bytes = (d', .ok host) ∧
        SameLayout d d' := by
  obtain ⟨hmem, hstubs, hcur⟩ := h
  rw [CodeCache.appendRaw, CodeCache.appendRaw, hmem, hcur]
  cases publicationRange c.memory.page c.cursor bytes.length c.memory.len with
  | error e => exact .inl ⟨e, rfl, rfl⟩
  | ok r => exact .inr ⟨_, _, _, rfl, rfl, rfl, hstubs, rfl⟩

/-! ## Runtime stubs -/

theorem SameLayout.publishXmmFreeThunk (h : SameLayout c c') :
    (∃ d d' e, c.publishXmmFreeThunk = (d, .error e) ∧ c'.publishXmmFreeThunk = (d', .error e)) ∨
      ∃ d d', c.publishXmmFreeThunk = (d, .ok ()) ∧ c'.publishXmmFreeThunk = (d', .ok ()) ∧
        SameLayout d d' := by
  have hstubs : c'.stubs.xmmFreeThunk = c.stubs.xmmFreeThunk := by rw [h.2.1]
  rw [CodeCache.publishXmmFreeThunk, CodeCache.publishXmmFreeThunk]
  dsimp only
  rw [hstubs]
  cases c.stubs.xmmFreeThunk with
  | none => exact .inr ⟨_, _, rfl, rfl, h⟩
  | some bytes =>
    have h' : SameLayout { c with xmmFreeThunk := c.thunk } { c' with xmmFreeThunk := c'.thunk } := h
    rcases h'.appendRaw bytes with ⟨e, h1, h2⟩ | ⟨d, d', host, h1, h2, hd⟩
    · dsimp only
      rw [h1, h2]
      exact .inl ⟨_, _, e, rfl, rfl⟩
    · dsimp only
      rw [h1, h2]
      exact .inr ⟨_, _, rfl, rfl, hd⟩

/-- Whether the stubs fit is decided by the layout. -/
theorem SameLayout.installRuntimeStubs (h : SameLayout c c') :
    c.installRuntimeStubs.2 = c'.installRuntimeStubs.2 := by
  rw [CodeCache.installRuntimeStubs, CodeCache.installRuntimeStubs, h.2.1]
  rcases h.appendRaw c.stubs.thunk with ⟨e, h1, h2⟩ | ⟨d, d', host, h1, h2, hd⟩
  · rw [h1, h2]
  rw [h1, h2]
  have hd' : SameLayout { d with thunk := host } { d' with thunk := host } := hd
  rcases hd'.publishXmmFreeThunk with ⟨f, f', e, h3, h4⟩ | ⟨f, f', h3, h4, hf⟩
  · dsimp only
    rw [h3, h4]
  dsimp only
  rw [h3, h4]
  rcases hf.appendRaw [0xC3] with ⟨e, h5, h6⟩ | ⟨g, g', host', h5, h6, -⟩
  · dsimp only
    rw [h5, h6]
  · dsimp only
    rw [h5, h6]

/-- Past the cursor of `c`, inside the allocation. -/
def GrownFrom (c c' : CodeCache) : Prop :=
  ∃ code cursor thunk xmmFreeThunk missStub, c.cursor ≤ cursor ∧ cursor ≤ c.memory.len ∧
    c' = { c with code, cursor, thunk, xmmFreeThunk, missStub }

theorem grownFrom_appendRaw {bytes : List U8} {host : Nat}
    (h : c.appendRaw bytes = (c', .ok host)) : GrownFrom c c' := by
  obtain ⟨hlen, h1, h2, rfl⟩ := appendRaw_ok h
  exact ⟨_, _, c.thunk, c.xmmFreeThunk, c.missStub, by omega, by omega, rfl⟩

theorem GrownFrom.trans {c'' : CodeCache} (h : GrownFrom c c') (h' : GrownFrom c' c'') :
    GrownFrom c c'' := by
  obtain ⟨_, _, _, _, _, h1, h2, rfl⟩ := h
  obtain ⟨code, cursor, thunk, xmm, miss, h3, h4, rfl⟩ := h'
  exact ⟨code, cursor, thunk, xmm, miss, le_trans h1 h3, h4, rfl⟩

theorem grownFrom_publishXmmFreeThunk (hcur : c.cursor ≤ c.memory.len)
    (h : c.publishXmmFreeThunk = (c', .ok ())) : GrownFrom c c' := by
  rw [CodeCache.publishXmmFreeThunk] at h
  dsimp only at h
  split at h
  · cases h
    exact ⟨_, _, _, _, _, le_rfl, hcur, rfl⟩
  · split at h
    · cases h
    · rename_i hap
      cases h
      obtain ⟨code, cursor, thunk, xmm, miss, h1, h2, rfl⟩ := grownFrom_appendRaw hap
      exact ⟨code, cursor, thunk, _, miss, h1, h2, rfl⟩

/-- The stubs leave a cache that has grown and whose dispatch table is empty, with the miss stub
below the cursor. -/
theorem installRuntimeStubs_ok (h : c.installRuntimeStubs = (c', .ok ())) :
    ∃ d, GrownFrom c d ∧ d.memory.base ≤ d.missStub ∧ d.missStub < d.memory.base + d.cursor ∧
      c' = d.clearDispatch := by
  rw [CodeCache.installRuntimeStubs] at h
  split at h
  · cases h
  · rename_i d host hd
    have hgrown := grownFrom_appendRaw hd
    split at h
    · cases h
    · rename_i e he
      have hgrown' : GrownFrom c { d with thunk := host } := by
        obtain ⟨code, cursor, thunk, xmm, miss, h1, h2, rfl⟩ := hgrown
        exact ⟨code, cursor, host, xmm, miss, h1, h2, rfl⟩
      have hcur : d.cursor ≤ d.memory.len := by
        obtain ⟨_, _, _, _, _, h1, h2, rfl⟩ := hgrown
        exact h2
      have hgrown'' := hgrown'.trans (grownFrom_publishXmmFreeThunk hcur he)
      split at h
      · cases h
      · rename_i f miss hf
        obtain ⟨hlen, h1, h2, rfl⟩ := appendRaw_ok hf
        cases h
        refine ⟨_, ?_, ?_, ?_, rfl⟩
        · obtain ⟨code, cursor, thunk, xmm, _, h3, h4, rfl⟩ := hgrown''
          exact ⟨_, _, thunk, xmm, miss, by dsimp only at h1 h2 ⊢; omega,
            by dsimp only at h1 h2 ⊢; omega, rfl⟩
        · dsimp only
          omega
        · dsimp only at hlen ⊢
          omega

/-! ## Patches -/

theorem patchGroupsFrom_patches (page : Nat) (cur : PatchGroup) (l : List Patch) :
    (patchGroupsFrom page cur l).flatMap (·.patches) = cur.patches ++ l := by
  induction l generalizing cur with
  | nil => simp [patchGroupsFrom]
  | cons p l ih =>
    rw [patchGroupsFrom]
    split
    · rw [ih, List.append_assoc]
      rfl
    · rw [List.flatMap_cons, ih]
      rfl

/-- The groups are the queue, cut into runs. -/
theorem patchGroups_patches (page : Nat) (l : List Patch) :
    (patchGroups page l).flatMap (·.patches) = l := by
  cases l with
  | nil => rfl
  | cons p l => exact patchGroupsFrom_patches page _ l

/-- A patch as the word write it stands for. -/
def patchWrite (p : Patch) : Nat × BitVec 32 := (p.1 + siteRelOffset, p.2)

theorem foldl_writeGroup (m : Mem) (gs : List PatchGroup) :
    gs.foldl writeGroup m = writes m ((gs.flatMap (·.patches)).map patchWrite) := by
  induction gs generalizing m with
  | nil => rfl
  | cons g gs ih =>
    have hgroup : writeGroup m g = writes m (g.patches.map patchWrite) := by
      rw [writes, List.foldl_map]
      rfl
    rw [List.foldl_cons, ih, List.flatMap_cons, List.map_append, hgroup, writes, writes, writes,
      List.foldl_append]

/-- A flush makes the word writes of the sorted queue. -/
theorem flushPatches_eq (c : CodeCache) (srt : UnstableSort) :
    c.flushPatches srt =
      { c with code := writes c.code ((srt.sort c.patches).map patchWrite), patches := [] } := by
  rw [flushPatches, foldl_writeGroup, patchGroups_patches]

/-! ## The link graph -/

theorem forgetSites_apply (links : U64 → List Nat) (outSites : List (U64 × Nat)) (t : U64) :
    forgetSites links outSites t = (links t).filter fun s => (t, s) ∉ outSites := by
  induction outSites generalizing links with
  | nil => simp [forgetSites]
  | cons ts outSites ih =>
    obtain ⟨t', s'⟩ := ts
    have hcons : forgetSites links ((t', s') :: outSites) =
        forgetSites (Function.update links t' ((links t').filter (· ≠ s'))) outSites := rfl
    rw [hcons, ih]
    by_cases ht : t = t'
    · subst ht
      rw [Function.update_self, List.filter_filter]
      congr 1
      funext s
      simp only [ne_eq, decide_not, List.mem_cons, Prod.mk.injEq, true_and]
      grind
    · rw [Function.update_of_ne ht]
      congr 1
      funext s
      simp [ht]

/-- The address of a chain site of a block at `hostPtr`. -/
def siteAt (hostPtr : Nat) (s : ChainSite) : Nat := hostPtr + s.patchOffset.toNat

/-- The links queued for a block's own chain sites. -/
def outPatches (table : U64 → Option Entry) (hostPtr : Nat) (chains : List ChainSite) :
    List Patch :=
  chains.flatMap fun s => match table s.targetPc with
    | some target =>
      [(siteAt hostPtr s, BitVec.ofInt 32 (rel (siteAt hostPtr s) target.hostPtr))]
    | none => []

theorem registerSites_eq (c : CodeCache) (hostPtr : Nat) (chains : List ChainSite) :
    chains.foldl (registerSite hostPtr) c =
      { c with
        links := fun t => c.links t ++ (chains.filter (·.targetPc = t)).map (siteAt hostPtr)
        patches := c.patches ++ outPatches c.table hostPtr chains } := by
  induction chains generalizing c with
  | nil => simp [outPatches]
  | cons s chains ih =>
    have hlinks : (fun t => Function.update c.links s.targetPc
          (c.links s.targetPc ++ [hostPtr + s.patchOffset.toNat]) t
            ++ (chains.filter (·.targetPc = t)).map (siteAt hostPtr))
        = fun t => c.links t ++ ((s :: chains).filter (·.targetPc = t)).map (siteAt hostPtr) := by
      funext t
      by_cases ht : s.targetPc = t
      · subst ht
        simp [siteAt]
      · rw [Function.update_of_ne (Ne.symm ht), List.filter_cons_of_neg (by simpa using ht)]
    rw [List.foldl_cons, registerSite]
    dsimp only
    cases htable : c.table s.targetPc with
    | none =>
      dsimp only
      rw [ih]
      simp only [hlinks, outPatches, List.flatMap_cons, htable, List.nil_append]
    | some target =>
      dsimp only [queueLink]
      rw [ih]
      simp only [hlinks, outPatches, List.flatMap_cons, htable, List.append_assoc, siteAt]

theorem foldl_queueLink (c : CodeCache) (hostPtr : Nat) (sites : List Nat) :
    sites.foldl (fun c site => c.queueLink site hostPtr) c =
      { c with patches := c.patches ++
          sites.map fun site => (site, BitVec.ofInt 32 (rel site hostPtr)) } := by
  induction sites generalizing c with
  | nil => simp
  | cons s sites ih =>
    rw [List.foldl_cons, ih, queueLink]
    simp

theorem linkInbound_eq (c : CodeCache) (guestPc : U64) (hostPtr : Nat) :
    c.linkInbound guestPc hostPtr =
      { c with patches := c.patches ++
          (c.links guestPc).map fun site => (site, BitVec.ofInt 32 (rel site hostPtr)) } :=
  foldl_queueLink c hostPtr _

/-! ## The composite operations -/

/-- The entry a block is cached with. -/
def entryOf (guestPc : U64) (ranges : List (U64 × U64)) (guestInsns : U32) (block : EmittedBlock)
    (hostPtr : Nat) : Entry :=
  ⟨hostPtr, normaliseRanges guestPc ranges,
    block.chains.map fun s => (s.targetPc, siteAt hostPtr s),
    if guestInsns = 0 then 1 else guestInsns, block.thunkKind⟩

/-- Installing a block fails and changes nothing, or appends it and enters it as a capped or as a
cached block. -/
theorem installBlock_cases (c : CodeCache) (srt : UnstableSort) (guestPc : U64)
    (ranges : List (U64 × U64)) (guestInsns : U32) (block : EmittedBlock) (cap : Option U32) :
    (∃ e, c.installBlock srt guestPc ranges guestInsns block cap = (c, .error e)) ∨
      ∃ d host, c.appendRaw block.code = (d, .ok host) ∧
        ((∃ k, cap = some k ∧ c.installBlock srt guestPc ranges guestInsns block cap =
            ({ d.publish guestPc host block.chains with
                capped := Function.update d.capped (guestPc, k)
                  (some ⟨host, normaliseRanges guestPc ranges⟩) }, .ok host)) ∨
          cap = none ∧ c.installBlock srt guestPc ranges guestInsns block cap =
            ((d.publish guestPc host block.chains).installCached srt guestPc
              (entryOf guestPc ranges guestInsns block host) block.chains, .ok host)) := by
  rw [installBlock]
  cases happend : c.appendRaw block.code with
  | mk d r =>
  cases r with
  | error e =>
    rw [appendRaw_error happend]
    exact .inl ⟨e, rfl⟩
  | ok host =>
    refine .inr ⟨d, host, rfl, ?_⟩
    cases cap with
    | some k => exact .inl ⟨k, rfl, rfl⟩
    | none => exact .inr ⟨rfl, rfl⟩

/-- A new cache is empty. -/
theorem new_ok {memory : CodeMemory} {stubs : RuntimeStubs} {code : Mem}
    (h : CodeCache.new memory stubs code = .ok c) :
    memory.len ≤ i32Max ∧ ∃ d : CodeCache, d.installRuntimeStubs = (c, .ok ()) ∧
      d.memory = memory ∧ d.stubs = stubs ∧ d.cursor = 0 ∧ d.table = (fun _ => none) ∧
      d.capped = (fun _ => none) ∧ d.links = (fun _ => []) ∧ d.patches = [] ∧
      d.published = [] := by
  rw [CodeCache.new] at h
  split_ifs at h with hlen
  split at h
  · cases h
  · rename_i d hd
    cases h
    exact ⟨hlen, _, hd, rfl, rfl, rfl, rfl, rfl, rfl, rfl, rfl⟩

/-- A property that survives the removal of one block survives the removal of a list of them. -/
theorem foldl_removeBlock {P : CodeCache → Prop} (hstep : ∀ c pc, P c → P (c.removeBlock pc))
    (l : List U64) (h : P c) : P (l.foldl removeBlock c) := by
  induction l generalizing c with
  | nil => exact h
  | cons pc l ih => exact ih (hstep c pc h)

/-- What an operation can do to the cache. -/
inductive Effect (c : CodeCache) : CacheOp → CodeCache → Prop where
  /-- A failed install, or a lookup that fills nothing. -/
  | same (op : CacheOp) : Effect c op c
  /-- A transient install. -/
  | append {op : CacheOp} {code : List U8} {d : CodeCache} {host : Nat}
      (h : c.appendRaw code = (d, .ok host)) : Effect c op d
  | capped {srt : UnstableSort} {guestPc : U64} {ranges : List (U64 × U64)} {guestInsns : U32}
      {block : EmittedBlock} {k : U32} {d : CodeCache} {host : Nat}
      (h : c.appendRaw block.code = (d, .ok host)) :
      Effect c (.installBlock srt guestPc ranges guestInsns block (some k))
        { d.publish guestPc host block.chains with
          capped := Function.update d.capped (guestPc, k)
            (some ⟨host, normaliseRanges guestPc ranges⟩) }
  | cached {op : CacheOp} {srt : UnstableSort} {guestPc : U64} {ranges : List (U64 × U64)}
      {guestInsns : U32} {block : EmittedBlock} {d : CodeCache} {host : Nat}
      (hop : op.installs = some (guestPc, block)) (h : c.appendRaw block.code = (d, .ok host)) :
      Effect c op ((d.publish guestPc host block.chains).installCached srt guestPc
        (entryOf guestPc ranges guestInsns block host) block.chains)
  | fill {pc : U64} {entry : Entry} (htable : c.table pc = some entry) :
      Effect c (.lookup pc)
        { c with
          dispatch := Function.update c.dispatch (dispatchIndex pc) ⟨pc, entry.hostPtr⟩
          dispatchMeta := Function.update c.dispatchMeta (dispatchIndex pc)
            (entry.guestInsns, entry.thunkKind) }
  | invalidate (srt : UnstableSort) (order : List U64) (start len : U64) :
      Effect c (.invalidateRange srt order start len) (c.invalidateRange srt order start len)
  | reset : Effect c .reset c.reset.1

/-- **Every operation has one of these effects.** -/
theorem effect_step (c : CodeCache) (op : CacheOp) : Effect c op (c.step op) := by
  cases op with
  | installBlock srt guestPc ranges guestInsns block cap =>
    rw [step]
    rcases installBlock_cases c srt guestPc ranges guestInsns block cap with
      ⟨e, h⟩ | ⟨d, host, hd, ⟨k, rfl, h⟩ | ⟨rfl, h⟩⟩
    · rw [h]
      exact .same _
    · rw [h]
      exact .capped hd
    · rw [h]
      exact .cached rfl hd
  | install srt guestPc guestEnd guestInsns code cacheBlock thunkKind =>
    rw [step, installEmitted]
    cases cacheBlock with
    | true =>
      rw [if_pos rfl]
      rcases installBlock_cases c srt guestPc _ guestInsns (plainBlock code thunkKind) none with
        ⟨e, h⟩ | ⟨d, host, hd, ⟨k, hk, h⟩ | ⟨-, h⟩⟩
      · rw [h]
        exact .same _
      · cases hk
      · rw [h]
        exact .cached rfl hd
    | false =>
      rw [if_neg Bool.false_ne_true]
      cases happend : c.appendRaw code with
      | mk d r =>
      cases r with
      | error e =>
        rw [appendRaw_error happend]
        exact .same _
      | ok host => exact .append happend
  | lookup pc =>
    rw [step, lookupDispatchMeta]
    split
    · exact .same _
    · rw [lookupMetaMiss]
      split
      · exact .same _
      · exact .fill ‹_›
  | invalidateRange srt order start len => exact .invalidate srt order start len
  | reset => exact .reset

/-! ## Where things are -/

/-- The layout of a cache between operations: everything is below the cursor, the cursor inside the
allocation, every block past the miss stub; nothing is queued; and the stubs fit. -/
structure Layout (c : CodeCache) : Prop where
  len_le : c.memory.len ≤ i32Max
  cursor_le : c.cursor ≤ c.memory.len
  stub_lt : c.missStub < c.memory.base + c.cursor
  base_le_host : ∀ {pc e}, c.table pc = some e → c.memory.base ≤ e.hostPtr
  stub_lt_host : ∀ {pc e}, c.table pc = some e → c.missStub < e.hostPtr
  host_lt : ∀ {pc e}, c.table pc = some e → e.hostPtr < c.memory.base + c.cursor
  patches_nil : c.patches = []
  stubs_fit : c.reset.2 = .ok ()

theorem reset_snd_congr (hmem : c'.memory = c.memory) (hstubs : c'.stubs = c.stubs) :
    c'.reset.2 = c.reset.2 := by
  rw [reset, reset]
  exact SameLayout.installRuntimeStubs ⟨hmem.symm, hstubs.symm, rfl⟩

/-- A layout with its queue emptied by the operation at hand, `c'` having the memory of `c`, at
least its cursor and only blocks of `c`. -/
theorem Layout.of_shrunk (h : Layout c) (hmem : c'.memory = c.memory) (hstubs : c'.stubs = c.stubs)
    (hmiss : c'.missStub = c.missStub) (hcur : c'.cursor = c.cursor)
    (htable : ∀ {pc e}, c'.table pc = some e → c.table pc = some e) (hpatches : c'.patches = []) :
    Layout c' where
  len_le := by rw [hmem]; exact h.len_le
  cursor_le := by rw [hmem, hcur]; exact h.cursor_le
  stub_lt := by rw [hmem, hcur, hmiss]; exact h.stub_lt
  base_le_host ht := by rw [hmem]; exact h.base_le_host (htable ht)
  stub_lt_host ht := by rw [hmiss]; exact h.stub_lt_host (htable ht)
  host_lt ht := by rw [hmem, hcur]; exact h.host_lt (htable ht)
  patches_nil := hpatches
  stubs_fit := by rw [reset_snd_congr hmem hstubs]; exact h.stubs_fit

theorem Layout.append (h : Layout c) {bytes : List U8} {d : CodeCache} {host : Nat}
    (happend : c.appendRaw bytes = (d, .ok host)) : Layout d := by
  obtain ⟨hlen, h1, h2, rfl⟩ := appendRaw_ok happend
  have hlt := h.stub_lt
  exact
    { len_le := h.len_le
      cursor_le := by dsimp only; omega
      stub_lt := by dsimp only; omega
      base_le_host := h.base_le_host
      stub_lt_host := h.stub_lt_host
      host_lt := fun ht => by have := h.host_lt ht; dsimp only; omega
      patches_nil := h.patches_nil
      stubs_fit := by rw [← h.stubs_fit]; exact reset_snd_congr rfl rfl }

/-- Right after a successful `installRuntimeStubs` of an empty cache. -/
theorem Layout.of_stubs {d : CodeCache} (h : d.installRuntimeStubs = (c, .ok ()))
    (hlen : d.memory.len ≤ i32Max) (hcur : d.cursor = 0) (htable : d.table = fun _ => none)
    (hpatches : d.patches = []) : Layout c := by
  obtain ⟨d', ⟨code, cursor, thunk, xmm, miss, h1, h2, rfl⟩, h3, h4, rfl⟩ := installRuntimeStubs_ok h
  refine
    { len_le := hlen
      cursor_le := h2
      stub_lt := h4
      base_le_host := ?_
      stub_lt_host := ?_
      host_lt := ?_
      patches_nil := hpatches
      stubs_fit := ?_ }
  · intro pc e ht
    simp [clearDispatch, htable] at ht
  · intro pc e ht
    simp [clearDispatch, htable] at ht
  · intro pc e ht
    simp [clearDispatch, htable] at ht
  · have hsame : SameLayout
        { clearDispatch { d with code, cursor, thunk, xmmFreeThunk := xmm, missStub := miss } with
          cursor := 0
          table := fun _ => none
          capped := fun _ => none
          links := fun _ => []
          patches := []
          published := [] } d := ⟨rfl, rfl, hcur⟩
    rw [reset, hsame.installRuntimeStubs, h]

theorem removeBlock_frame (c : CodeCache) (pc : U64) :
    (c.removeBlock pc).memory = c.memory ∧ (c.removeBlock pc).stubs = c.stubs ∧
      (c.removeBlock pc).missStub = c.missStub ∧ (c.removeBlock pc).cursor = c.cursor ∧
      (c.removeBlock pc).code = c.code ∧ (c.removeBlock pc).published = c.published ∧
      (c.removeBlock pc).capped = c.capped ∧
      (c.removeBlock pc).table = Function.update c.table pc none := by
  rw [removeBlock]
  split
  · rename_i h
    refine ⟨rfl, rfl, rfl, rfl, rfl, rfl, rfl, ?_⟩
    rw [← h, Function.update_eq_self]
  · exact ⟨rfl, rfl, rfl, rfl, rfl, rfl, rfl, rfl⟩

theorem removeBlock_of_none {pc : U64} (h : c.table pc = none) : c.removeBlock pc = c := by
  rw [removeBlock, h]

/-- Removing a block empties its dispatch slot or leaves the table of slots alone. -/
theorem removeBlock_dispatch (c : CodeCache) (pc : U64) :
    (c.removeBlock pc).dispatchMeta = c.dispatchMeta ∧
      ((c.removeBlock pc).dispatch = c.dispatch ∧
          ((c.table pc).isSome → (c.dispatch (dispatchIndex pc)).pc ≠ pc) ∨
        (c.removeBlock pc).dispatch =
          Function.update c.dispatch (dispatchIndex pc) c.emptySlot) := by
  rw [removeBlock]
  split
  · rename_i h
    exact ⟨rfl, .inl ⟨rfl, by simp [h]⟩⟩
  · dsimp only
    split
    · exact ⟨rfl, .inr rfl⟩
    · rename_i h
      exact ⟨rfl, .inl ⟨rfl, fun _ => h⟩⟩

/-- The links of a cache in which the chain sites of a block at `hostPtr` were registered. -/
def linksWith (c : CodeCache) (hostPtr : Nat) (chains : List ChainSite) : U64 → List Nat :=
  fun t => c.links t ++ (chains.filter (·.targetPc = t)).map (siteAt hostPtr)

/-- What an install queues on a cache from which the block at its PC was removed. -/
def installPatches (c : CodeCache) (guestPc : U64) (hostPtr : Nat) (chains : List ChainSite) :
    List Patch :=
  c.patches ++ outPatches c.table hostPtr chains ++
    (linksWith c hostPtr chains guestPc).map fun site =>
      (site, BitVec.ofInt 32 (rel site hostPtr))

/-- **A cached install, as one update** of the cache from which the block at its PC was removed. -/
theorem installCached_eq (c : CodeCache) (srt : UnstableSort) (guestPc : U64) (entry : Entry)
    (chains : List ChainSite) :
    c.installCached srt guestPc entry chains =
      { c.removeBlock guestPc with
        table := Function.update c.table guestPc (some entry)
        dispatch := Function.update c.dispatch (dispatchIndex guestPc) ⟨guestPc, entry.hostPtr⟩
        dispatchMeta := Function.update c.dispatchMeta (dispatchIndex guestPc)
          (entry.guestInsns, entry.thunkKind)
        links := linksWith (c.removeBlock guestPc) entry.hostPtr chains
        code := writes c.code ((srt.sort
          (installPatches (c.removeBlock guestPc) guestPc entry.hostPtr chains)).map patchWrite)
        patches := [] } := by
  have hremove : (if c.contains guestPc then c.removeBlock guestPc else c)
      = c.removeBlock guestPc := by
    rw [contains]
    split
    · rfl
    · rw [removeBlock_of_none (Option.not_isSome_iff_eq_none.mp ‹_›)]
  obtain ⟨-, -, -, -, hcode, -, -, htable⟩ := removeBlock_frame c guestPc
  obtain ⟨hmeta, hdispatch⟩ := removeBlock_dispatch c guestPc
  have hslot (v : DispatchSlot) :
      Function.update (c.removeBlock guestPc).dispatch (dispatchIndex guestPc) v
        = Function.update c.dispatch (dispatchIndex guestPc) v := by
    rcases hdispatch with ⟨h, -⟩ | h
    · rw [h]
    · rw [h, Function.update_idem]
  rw [installCached]
  dsimp only
  rw [hremove, registerSites_eq, insertEntry, linkInbound_eq, flushPatches_eq]
  dsimp only
  rw [hslot, hmeta, hcode]
  simp only [htable, Function.update_idem, installPatches, linksWith]
  rfl

theorem foldl_removeBlock_frame (l : List U64) (c : CodeCache) :
    (l.foldl removeBlock c).memory = c.memory ∧ (l.foldl removeBlock c).stubs = c.stubs ∧
      (l.foldl removeBlock c).missStub = c.missStub ∧ (l.foldl removeBlock c).cursor = c.cursor ∧
      (l.foldl removeBlock c).code = c.code ∧ (l.foldl removeBlock c).published = c.published ∧
      (l.foldl removeBlock c).capped = c.capped ∧
      (l.foldl removeBlock c).table = fun pc => if pc ∈ l then none else c.table pc := by
  induction l generalizing c with
  | nil => simp
  | cons pc l ih =>
    obtain ⟨h1, h2, h3, h4, h5, h6, h7, h8⟩ := ih (c.removeBlock pc)
    obtain ⟨g1, g2, g3, g4, g5, g6, g7, g8⟩ := removeBlock_frame c pc
    refine ⟨h1.trans g1, h2.trans g2, h3.trans g3, h4.trans g4, h5.trans g5, h6.trans g6,
      h7.trans g7, ?_⟩
    rw [List.foldl_cons, h8, g8]
    funext q
    by_cases hq : q = pc
    · simp [hq]
    · simp [hq]

/-- **An invalidation, as one update** of the cache from which the doomed blocks were removed. -/
theorem invalidateRange_eq (c : CodeCache) (srt : UnstableSort) (order : List U64)
    (start len : U64) :
    c.invalidateRange srt order start len =
      { (c.doomed order start len).foldl removeBlock c with
        table := fun pc => if pc ∈ c.doomed order start len then none else c.table pc
        capped := fun k => (c.capped k).filter fun e => !dooms start len e.ranges
        code := writes c.code
          ((srt.sort ((c.doomed order start len).foldl removeBlock c).patches).map patchWrite)
        patches := [] } := by
  obtain ⟨-, -, -, -, hcode, -, hcapped, htable⟩ :=
    foldl_removeBlock_frame (c.doomed order start len) c
  rw [invalidateRange]
  dsimp only
  rw [flushPatches_eq]
  simp only [hcode, hcapped, ← htable]

/-- **Every step keeps the layout.** -/
theorem Layout.step (h : Layout c) (op : CacheOp) : Layout (c.step op) := by
  have heffect := effect_step c op
  generalize c.step op = c' at heffect ⊢
  cases heffect with
  | same => exact h
  | append happend => exact h.append happend
  | capped happend =>
    exact (h.append happend).of_shrunk rfl rfl rfl rfl id (h.append happend).patches_nil
  | @cached _ srt guestPc ranges guestInsns block d host _ happend =>
    have hd := h.append happend
    obtain ⟨hlen, h1, h2, hd'⟩ := appendRaw_ok happend
    obtain ⟨g1, g2, g3, g4, -⟩ := removeBlock_frame (d.publish guestPc host block.chains) guestPc
    have hstub := h.stub_lt
    rw [installCached_eq]
    refine
      { len_le := by rw [g1]; exact hd.len_le
        cursor_le := by rw [g1, g4]; exact hd.cursor_le
        stub_lt := by rw [g1, g3, g4]; exact hd.stub_lt
        base_le_host := ?_
        stub_lt_host := ?_
        host_lt := ?_
        patches_nil := rfl
        stubs_fit := by rw [← hd.stubs_fit]; exact reset_snd_congr g1 g2 }
    all_goals
      intro pc e he
      dsimp only at he
      by_cases hpc : pc = guestPc
      · subst hpc
        rw [Function.update_self, Option.some.injEq] at he
        subst he
        simp only [g1, g3, g4]
        simp only [publish, hd', entryOf]
        omega
      · rw [Function.update_of_ne hpc] at he
        simp only [g1, g3, g4]
        first
          | exact hd.base_le_host he
          | exact hd.stub_lt_host he
          | exact hd.host_lt he
  | fill htable => exact h.of_shrunk rfl rfl rfl rfl id h.patches_nil
  | invalidate srt order start len =>
    obtain ⟨g1, g2, g3, g4, -⟩ := foldl_removeBlock_frame (c.doomed order start len) c
    rw [invalidateRange_eq]
    refine h.of_shrunk g1 g2 g3 g4 (fun {pc e} he => ?_) rfl
    dsimp only at he
    split at he
    · cases he
    · exact he
  | reset =>
    have hfit := h.stubs_fit
    rw [CodeCache.reset] at hfit ⊢
    refine Layout.of_stubs (c := (installRuntimeStubs _).1) (Prod.ext rfl hfit) h.len_le rfl rfl rfl

theorem layout_of_reachable (h : system.Reachable c) : Layout c := by
  refine h.invariant ?_ ?_
  · rintro s ⟨memory, stubs, code, hnew⟩
    obtain ⟨hlen, d, hd, hmem, -, hcur, htable, -, -, hpatches, -⟩ := new_ok hnew
    exact Layout.of_stubs hd (by rw [hmem]; exact hlen) hcur htable hpatches
  · rintro s op t - hs ⟨-, rfl⟩
    exact hs.step op

end CodeCache

end Rustarmic
