import Mathlib.Data.List.Sort
import Mathlib.Logic.Function.Basic
import Rustarmic.Error
import Rustarmic.Lib.ByteMemory
import Rustarmic.Lib.Transition

/-!
# The code cache

Translated blocks are appended to one allocation and found again through a hash map, a
direct-mapped dispatch table in front of it, and a second map for the budget-capped blocks.  A
block jumps straight to another through a *chain site*, `E9 rel32` with a zero displacement until
it is linked; the cache keeps, for every guest PC, the sites that jump there, and rewrites their
displacements when the block at that PC comes or goes.

* `publicationRange`, `appendRaw` — where the bytes of a block go.
* `lookupDispatchMeta` — the dispatch table, then the hash map, filling the slot on a miss.
* `removeBlock`, `invalidateRange`, `reset` — taking blocks out.
* `queueLink`, `flushPatches` — displacements are queued and written in address order, one window
  of pages at a time.
* `installBlock`, `install` — putting blocks in.
* `CodeCache.system` — the runs of all of these, from a new cache.

Two things the source leaves open are arguments of the operations that use them: the order in which
a hash map is iterated, and the order in which an unstable sort leaves patches of one site.  The
field `published` is a log of the chain sites published since the last reset; no operation reads
it.
-/

set_option autoImplicit false

namespace Rustarmic

open ByteMemory

/-! ## Data -/

inductive ThunkKind where
  | full
  | xmmFree
  deriving DecidableEq, Repr

/-- One slot of the dispatch table.  `emptyPc` marks an empty slot. -/
structure DispatchSlot where
  pc : U64
  host : Nat
  deriving DecidableEq, Repr

structure DispatchMeta where
  hostPtr : Nat
  guestInsns : U32
  thunkKind : ThunkKind
  deriving DecidableEq, Repr

def emptyPc : U64 := BitVec.allOnes 64

def dispatchBits : Nat := 16

/-- Slot of `pc`: higher PC bits are folded in. -/
def dispatchIndex (pc : U64) : Nat :=
  (((pc >>> 2) ^^^ (pc >>> (2 + dispatchBits))).setWidth 32 &&& 0xFFFF#32).toNat

/-- Where the rel32 of a chain site is, and how long the site is. -/
def siteRelOffset : Nat := 1
def siteLen : Nat := 5

/-- A chain site of an emitted block: the offset of its `E9` and the PC it goes to. -/
structure ChainSite where
  patchOffset : U32
  targetPc : U64
  deriving DecidableEq, Repr

/-- What `emit_block` hands over: machine code and its chain sites, each of which is `E9` with a
zero displacement and overlaps no other. -/
structure EmittedBlock where
  code : List U8
  chains : List ChainSite
  thunkKind : ThunkKind
  unlinked : ∀ c ∈ chains, (code.drop c.patchOffset.toNat).take siteLen = [0xE9, 0, 0, 0, 0]
  apart : chains.Pairwise fun a b =>
    a.patchOffset.toNat + siteLen ≤ b.patchOffset.toNat ∨
      b.patchOffset.toNat + siteLen ≤ a.patchOffset.toNat

structure Entry where
  hostPtr : Nat
  ranges : List (U64 × U64)
  /-- Target and address of each chain site in the block. -/
  outSites : List (U64 × Nat)
  guestInsns : U32
  thunkKind : ThunkKind
  deriving DecidableEq, Repr

structure Capped where
  hostPtr : Nat
  ranges : List (U64 × U64)
  deriving DecidableEq, Repr

/-- A chain site in memory: the block it was published with, where it goes, where it is. -/
structure PublishedSite where
  pc : U64
  target : U64
  site : Nat
  deriving DecidableEq, Repr

/-- A queued displacement: the site and its new rel32. -/
abbrev Patch := Nat × U32

/-- `sort_unstable_by_key(|p| p.0)`: by site address, patches of one site in any order. -/
structure UnstableSort where
  sort : List Patch → List Patch
  perm : ∀ l, (sort l).Perm l
  sorted : ∀ l, (sort l).Pairwise fun p q => p.1 ≤ q.1

/-- The allocation: page aligned, below the end of the address space. -/
structure CodeMemory where
  base : Nat
  len : Nat
  page : Nat
  page_pow : ∃ k, page = 2 ^ k
  page_dvd_base : page ∣ base
  base_add_len_lt : base + len < 2 ^ 63

/-- The machine code of the entry thunk and, where it differs, of the thunk that saves no vector
registers. -/
structure RuntimeStubs where
  thunk : List U8
  xmmFreeThunk : Option (List U8)

structure CodeCache where
  memory : CodeMemory
  stubs : RuntimeStubs
  code : Mem
  cursor : Nat
  table : U64 → Option Entry
  capped : U64 × U32 → Option Capped
  /-- The sites that jump to a guest PC, linked or not. -/
  links : U64 → List Nat
  dispatch : Nat → DispatchSlot
  dispatchMeta : Nat → U32 × ThunkKind
  thunk : Nat
  xmmFreeThunk : Nat
  missStub : Nat
  patches : List Patch
  published : List PublishedSite

/-! ## Publishing bytes -/

structure PublicationRange where
  byteStart : Nat
  byteEnd : Nat
  pageStart : Nat
  pageLen : Nat
  deriving DecidableEq, Repr

/-- Where `len` bytes go after `cursor`: sixteen-byte aligned, inside the capacity together with
the pages they touch. -/
def publicationRange (page cursor len capacity : Nat) : Except Error PublicationRange :=
  if len = 0 then .error (.backend "cannot publish an empty code block")
  else if 2 ^ 64 ≤ cursor + 15 then .error .codeCacheFull
  else
    let byteStart := (cursor + 15) / 16 * 16
    if 2 ^ 64 ≤ byteStart + len then .error .codeCacheFull
    else
      let byteEnd := byteStart + len
      if capacity < byteEnd then .error .codeCacheFull
      else
        let pageStart := byteStart / page * page
        if 2 ^ 64 ≤ byteEnd + (page - 1) then .error .codeCacheFull
        else
          let pageEnd := (byteEnd + (page - 1)) / page * page
          if capacity < pageEnd then .error .codeCacheFull
          else .ok ⟨byteStart, byteEnd, pageStart, pageEnd - pageStart⟩

namespace CodeCache

/-- Append bytes at the cursor; the address they start at. -/
def appendRaw (c : CodeCache) (bytes : List U8) : CodeCache × Except Error Nat :=
  match publicationRange c.memory.page c.cursor bytes.length c.memory.len with
  | .error e => (c, .error e)
  | .ok r =>
    ({ c with code := writeBytes c.code (c.memory.base + r.byteStart) bytes, cursor := r.byteEnd },
      .ok (c.memory.base + r.byteStart))

/-! ## Dispatch -/

/-- What an empty slot holds: a jump through it hits the miss stub. -/
def emptySlot (c : CodeCache) : DispatchSlot := ⟨emptyPc, c.missStub⟩

def clearDispatch (c : CodeCache) : CodeCache :=
  { c with dispatch := fun _ => c.emptySlot }

def lookupMetaMiss (c : CodeCache) (pc : U64) (index : Nat) : CodeCache × Option DispatchMeta :=
  match c.table pc with
  | none => (c, none)
  | some entry =>
    ({ c with dispatch := Function.update c.dispatch index ⟨pc, entry.hostPtr⟩
              dispatchMeta := Function.update c.dispatchMeta index
                (entry.guestInsns, entry.thunkKind) },
      some ⟨entry.hostPtr, entry.guestInsns, entry.thunkKind⟩)

def lookupDispatchMeta (c : CodeCache) (pc : U64) : CodeCache × Option DispatchMeta :=
  let index := dispatchIndex pc
  let slot := c.dispatch index
  if slot.pc = pc then
    (c, some ⟨slot.host, (c.dispatchMeta index).1, (c.dispatchMeta index).2⟩)
  else c.lookupMetaMiss pc index

def lookup (c : CodeCache) (pc : U64) : Option Nat :=
  (c.lookupDispatchMeta pc).2.map (·.hostPtr)

def lookupCapped (c : CodeCache) (pc : U64) (cap : U32) : Option Nat :=
  (c.capped (pc, cap)).map (·.hostPtr)

def contains (c : CodeCache) (pc : U64) : Bool := (c.table pc).isSome

/-! ## Runtime stubs -/

def publishXmmFreeThunk (c : CodeCache) : CodeCache × Except Error Unit :=
  let c := { c with xmmFreeThunk := c.thunk }
  match c.stubs.xmmFreeThunk with
  | none => (c, .ok ())
  | some bytes =>
    match c.appendRaw bytes with
    | (c, .error e) => (c, .error e)
    | (c, .ok p) => ({ c with xmmFreeThunk := p }, .ok ())

/-- Publish the thunks and the miss stub, a `ret`, and empty the dispatch table. -/
def installRuntimeStubs (c : CodeCache) : CodeCache × Except Error Unit :=
  match c.appendRaw c.stubs.thunk with
  | (c, .error e) => (c, .error e)
  | (c, .ok thunk) =>
    match publishXmmFreeThunk { c with thunk } with
    | (c, .error e) => (c, .error e)
    | (c, .ok ()) =>
      match c.appendRaw [0xC3] with
      | (c, .error e) => (c, .error e)
      | (c, .ok missStub) => (clearDispatch { c with missStub }, .ok ())

/-- The fields `with_rwx` starts from, over an allocation whose bytes are `code`. -/
def blank (memory : CodeMemory) (stubs : RuntimeStubs) (code : Mem) : CodeCache where
  memory := memory
  stubs := stubs
  code := code
  cursor := 0
  table := fun _ => none
  capped := fun _ => none
  links := fun _ => []
  dispatch := fun _ => ⟨emptyPc, 0⟩
  dispatchMeta := fun _ => (0, .full)
  thunk := 0
  xmmFreeThunk := 0
  missStub := 0
  patches := []
  published := []

/-- A new cache; displacements within it fit a rel32. -/
def new (memory : CodeMemory) (stubs : RuntimeStubs) (code : Mem) : Except Error CodeCache :=
  if memory.len ≤ i32Max then
    match (blank memory stubs code).installRuntimeStubs with
    | (_, .error e) => .error e
    | (c, .ok ()) => .ok c
  else .error (.hostAlloc "code cache must be smaller than 2 GiB (rel32 block links)")

/-- Drop all translated blocks, keeping the allocation. -/
def reset (c : CodeCache) : CodeCache × Except Error Unit :=
  { c with
    cursor := 0
    table := fun _ => none
    capped := fun _ => none
    links := fun _ => []
    patches := []
    published := [] }.installRuntimeStubs

/-! ## Linking -/

/-- The displacement that takes the site at `site` to `target`. -/
def rel (site target : Nat) : Int := (target : Int) - ((site : Int) + siteLen)

/-- Queue the displacement to `target`.  The source converts it to an `i32` or panics; within the
cache it always fits (`CodeCache.queueLink_fits`). -/
def queueLink (c : CodeCache) (site target : Nat) : CodeCache :=
  { c with patches := c.patches ++ [(site, BitVec.ofInt 32 (rel site target))] }

/-- `a & !(page - 1)`. -/
def pageDown (page a : Nat) : Nat := a / page * page

/-- `(a + page - 1) & !(page - 1)`. -/
def pageUp (page a : Nat) : Nat := (a + page - 1) / page * page

/-- The patches written while one window of pages is open for writing. -/
structure PatchGroup where
  lo : Nat
  hi : Nat
  patches : List Patch
  deriving DecidableEq, Repr

/-- Extend the window while the next site's page touches it, else start another. -/
def patchGroupsFrom (page : Nat) (cur : PatchGroup) : List Patch → List PatchGroup
  | [] => [cur]
  | p :: rest =>
    if pageDown page p.1 ≤ cur.hi then
      patchGroupsFrom page
        { cur with hi := max cur.hi (pageUp page (p.1 + siteLen)), patches := cur.patches ++ [p] }
        rest
    else
      cur :: patchGroupsFrom page ⟨pageDown page p.1, pageUp page (p.1 + siteLen), [p]⟩ rest

def patchGroups (page : Nat) : List Patch → List PatchGroup
  | [] => []
  | p :: rest =>
    patchGroupsFrom page ⟨pageDown page p.1, pageUp page (p.1 + siteLen), [p]⟩ rest

/-- Write the rel32 of every patch of a group. -/
def writeGroup (m : Mem) (g : PatchGroup) : Mem :=
  g.patches.foldl (fun m p => write32 m (p.1 + siteRelOffset) p.2) m

/-- Write every queued rel32. -/
def flushPatches (c : CodeCache) (srt : UnstableSort) : CodeCache :=
  { c with
    code := (patchGroups c.memory.page (srt.sort c.patches)).foldl writeGroup c.code
    patches := [] }

/-! ## Taking blocks out -/

/-- Drop a block's own sites from the link graph. -/
def forgetSites (links : U64 → List Nat) (outSites : List (U64 × Nat)) : U64 → List Nat :=
  outSites.foldl (fun l ts => Function.update l ts.1 ((l ts.1).filter (· ≠ ts.2))) links

/-- Unpublish one block: clear its dispatch slot, queue the unlinking of every site that jumps to
it, and forget its own sites. -/
def removeBlock (c : CodeCache) (pc : U64) : CodeCache :=
  match c.table pc with
  | none => c
  | some entry =>
    { c with
      table := Function.update c.table pc none
      dispatch := if (c.dispatch (dispatchIndex pc)).pc = pc
        then Function.update c.dispatch (dispatchIndex pc) c.emptySlot else c.dispatch
      patches := c.patches ++ (c.links pc).map (·, 0)
      links := forgetSites c.links entry.outSites }

/-- Half-open overlap with `[start, end)`. -/
def overlaps (ranges : List (U64 × U64)) (start stop : U64) : Bool :=
  ranges.any fun r => r.1 < stop && start < r.2

/-- The interval an invalidation clears; everything when it overflows. -/
def invalidated (start len : U64) : U64 × U64 :=
  if start.toNat + len.toNat < 2 ^ 64 then (start, start + len) else (0, BitVec.allOnes 64)

/-- Whether an invalidation takes out what covers `ranges`. -/
def dooms (start len : U64) (ranges : List (U64 × U64)) : Bool :=
  let (start, stop) := invalidated start len
  (start == 0 && stop == BitVec.allOnes 64) || overlaps ranges start stop

/-- The cached blocks an invalidation removes, in the order `order` of the hash map. -/
def doomed (c : CodeCache) (order : List U64) (start len : U64) : List U64 :=
  order.filter fun pc => (c.table pc).any fun e => dooms start len e.ranges

def invalidateRange (c : CodeCache) (srt : UnstableSort) (order : List U64) (start len : U64) :
    CodeCache :=
  let c := (c.doomed order start len).foldl removeBlock c
  { c with capped := fun k => (c.capped k).filter fun e => !dooms start len e.ranges }.flushPatches
    srt

/-! ## Putting blocks in -/

/-- Empty and inverted ranges are widened. -/
def normaliseRanges (guestPc : U64) (ranges : List (U64 × U64)) : List (U64 × U64) :=
  if ranges = [] then
    [(guestPc, if guestPc.toNat + 4 < 2 ^ 64 then guestPc + 4 else BitVec.allOnes 64)]
  else ranges.map fun r => if r.2 ≤ r.1 then (r.1, BitVec.allOnes 64) else r

/-- Log the chain sites of the bytes just appended at `hostPtr`. -/
def publish (c : CodeCache) (guestPc : U64) (hostPtr : Nat) (chains : List ChainSite) :
    CodeCache :=
  { c with published := c.published ++
      chains.map fun s => ⟨guestPc, s.targetPc, hostPtr + s.patchOffset.toNat⟩ }

/-- Register one chain site and queue its link when its target is cached. -/
def registerSite (hostPtr : Nat) (c : CodeCache) (s : ChainSite) : CodeCache :=
  let site := hostPtr + s.patchOffset.toNat
  let c := { c with links := Function.update c.links s.targetPc (c.links s.targetPc ++ [site]) }
  match c.table s.targetPc with
  | some target => c.queueLink site target.hostPtr
  | none => c

/-- Enter a block in the hash map and in its dispatch slot. -/
def insertEntry (c : CodeCache) (guestPc : U64) (entry : Entry) : CodeCache :=
  { c with
    table := Function.update c.table guestPc (some entry)
    dispatch := Function.update c.dispatch (dispatchIndex guestPc) ⟨guestPc, entry.hostPtr⟩
    dispatchMeta := Function.update c.dispatchMeta (dispatchIndex guestPc)
      (entry.guestInsns, entry.thunkKind) }

/-- Queue the links of every site that jumps to the block at `guestPc`. -/
def linkInbound (c : CodeCache) (guestPc : U64) (hostPtr : Nat) : CodeCache :=
  (c.links guestPc).foldl (fun c site => c.queueLink site hostPtr) c

/-- Enter a freshly appended block as a cached block: replace the one at its PC, register its chain
sites, and link it with its neighbours. -/
def installCached (c : CodeCache) (srt : UnstableSort) (guestPc : U64) (entry : Entry)
    (chains : List ChainSite) : CodeCache :=
  let c := if c.contains guestPc then c.removeBlock guestPc else c
  let c := chains.foldl (registerSite entry.hostPtr) c
  ((c.insertEntry guestPc entry).linkInbound guestPc entry.hostPtr).flushPatches srt

/-- Publish a translated block, cached or, with a cap, only for that (PC, cap) pair. -/
def installBlock (c : CodeCache) (srt : UnstableSort) (guestPc : U64) (ranges : List (U64 × U64))
    (guestInsns : U32) (block : EmittedBlock) (cap : Option U32) : CodeCache × Except Error Nat :=
  match c.appendRaw block.code with
  | (c, .error e) => (c, .error e)
  | (c, .ok hostPtr) =>
    let c := c.publish guestPc hostPtr block.chains
    let ranges := normaliseRanges guestPc ranges
    match cap with
    | some cap =>
      ({ c with capped := Function.update c.capped (guestPc, cap) (some ⟨hostPtr, ranges⟩) },
        .ok hostPtr)
    | none =>
      let outSites := block.chains.map fun s => (s.targetPc, hostPtr + s.patchOffset.toNat)
      let guestInsns := if guestInsns = 0 then 1 else guestInsns
      (c.installCached srt guestPc ⟨hostPtr, ranges, outSites, guestInsns, block.thunkKind⟩
          block.chains,
        .ok hostPtr)

/-- A block without chain sites. -/
def plainBlock (code : List U8) (thunkKind : ThunkKind) : EmittedBlock where
  code := code
  chains := []
  thunkKind := thunkKind
  unlinked := by simp
  apart := .nil

/-- Publish one unlinked block covering `[guestPc, guestEnd)`; a transient one is not entered
anywhere. -/
def installEmitted (c : CodeCache) (srt : UnstableSort) (guestPc guestEnd : U64)
    (guestInsns : U32) (code : List U8) (cacheBlock : Bool) (thunkKind : ThunkKind) :
    CodeCache × Except Error Nat :=
  if cacheBlock then
    let floor := if guestPc.toNat + 4 < 2 ^ 64 then guestPc + 4 else BitVec.allOnes 64
    c.installBlock srt guestPc [(guestPc, if guestEnd < floor then floor else guestEnd)] guestInsns
      (plainBlock code thunkKind) none
  else c.appendRaw code

end CodeCache

/-! ## Runs -/

/-- One call of a cache operation. -/
inductive CacheOp where
  | installBlock (srt : UnstableSort) (guestPc : U64) (ranges : List (U64 × U64))
      (guestInsns : U32) (block : EmittedBlock) (cap : Option U32)
  | install (srt : UnstableSort) (guestPc guestEnd : U64) (guestInsns : U32) (code : List U8)
      (cacheBlock : Bool) (thunkKind : ThunkKind)
  | lookup (pc : U64)
  | invalidateRange (srt : UnstableSort) (order : List U64) (start len : U64)
  | reset

/-- The order an invalidation is given is an order of the hash map's keys. -/
def CacheOp.Enumerates (c : CodeCache) : CacheOp → Prop
  | invalidateRange _ order _ _ => order.Nodup ∧ ∀ pc, pc ∈ order ↔ c.contains pc = true
  | _ => True

/-- The PC and the block an operation installs as a cached block. -/
def CacheOp.installs : CacheOp → Option (U64 × EmittedBlock)
  | installBlock _ guestPc _ _ block none => some (guestPc, block)
  | install _ guestPc _ _ code true thunkKind =>
    some (guestPc, CodeCache.plainBlock code thunkKind)
  | _ => none

namespace CodeCache

/-- The cache after an operation, whether it succeeded or not. -/
def step (c : CodeCache) : CacheOp → CodeCache
  | .installBlock srt guestPc ranges guestInsns block cap =>
    (c.installBlock srt guestPc ranges guestInsns block cap).1
  | .install srt guestPc guestEnd guestInsns code cacheBlock thunkKind =>
    (c.installEmitted srt guestPc guestEnd guestInsns code cacheBlock thunkKind).1
  | .lookup pc => (c.lookupDispatchMeta pc).1
  | .invalidateRange srt order start len => c.invalidateRange srt order start len
  | .reset => c.reset.1

/-- The cache as a transition system: new caches, and every operation in every order. -/
def system : System CodeCache CacheOp where
  init c := ∃ memory stubs code, CodeCache.new memory stubs code = .ok c
  step c op c' := op.Enumerates c ∧ c' = c.step op

theorem reachable_step {c : CodeCache} (h : system.Reachable c) (op : CacheOp) (hen : op.Enumerates c) :
    system.Reachable (c.step op) :=
  .step op h ⟨hen, rfl⟩

/-- By insertion: patches of one site keep the order they were queued in. -/
def stableSort : UnstableSort where
  sort l := l.insertionSort fun p q => p.1 ≤ q.1
  perm l := List.perm_insertionSort _ l
  sorted l := List.pairwise_insertionSort _ l

/-- A two-page allocation and one-byte thunks, for runs on concrete inputs. -/
def sampleMemory : CodeMemory where
  base := 0x10000000
  len := 0x2000
  page := 0x1000
  page_pow := ⟨12, rfl⟩
  page_dvd_base := ⟨0x10000, rfl⟩
  base_add_len_lt := by decide

def sampleStubs : RuntimeStubs := ⟨[0xC3], none⟩

def sampleCache : CodeCache := (blank sampleMemory sampleStubs fun _ => 0).installRuntimeStubs.1

theorem reachable_sampleCache : system.Reachable sampleCache :=
  .init ⟨sampleMemory, sampleStubs, fun _ => 0, rfl⟩

end CodeCache

end Rustarmic
