import Rustarmic.Arch
import Rustarmic.Lib.BinarySearch

/-!
# The registry of direct accesses

An access compiled straight to host memory may fault; the fault handler looks the faulting host
address up in a registry and diverts to the slow path.  The registry is a vector of offsets from the
base of the code cache, sorted because the lookup is a binary search.  Blocks are usually registered
in address order, which is the fast path of `register`; a site that comes out of order is inserted.

* `register`, `clear`, `find` — the operations.
* `live` — what a sequence of operations has registered since its last `clear`.
* `find_run` — the list is sorted and the lookup exact, whatever the order of registration.
-/

set_option autoImplicit false

namespace Rustarmic

open BinarySearch

/-- A direct access of an emitted block: offsets of the instruction and of its slow path, and the
length of the instruction. -/
structure DirectSite where
  offset : U32
  len : U8
  slowOffset : U32
  deriving DecidableEq, Repr

/-- The same, relative to the base of the code cache. -/
structure Site where
  offset : U32
  slow : U32
  len : U8
  deriving DecidableEq, Repr

structure SiteRegistry where
  base : Nat
  sites : List Site

namespace SiteRegistry

def new (base : Nat) : SiteRegistry := ⟨base, []⟩

/-- The entry for a site of the block at `host`; the sums are truncated to 32 bits. -/
def entryOf (base host : Nat) (site : DirectSite) : Site :=
  let block := host - base
  ⟨BitVec.ofNat 32 (block + site.offset.toNat), BitVec.ofNat 32 (block + site.slowOffset.toNat),
    site.len⟩

/-- Append an entry past the last one, or insert it where it belongs. -/
def insertSite (sites : List Site) (entry : Site) : List Site :=
  match sites.getLast? with
  | some last =>
    if entry.offset.toNat ≤ last.offset.toNat then
      sites.insertIdx (partitionPoint (fun s => s.offset.toNat < entry.offset.toNat) sites) entry
    else sites ++ [entry]
  | none => sites ++ [entry]

def register (r : SiteRegistry) (host : Nat) (sites : List DirectSite) : SiteRegistry :=
  { r with sites := sites.foldl (fun acc s => insertSite acc (entryOf r.base host s)) r.sites }

def clear (r : SiteRegistry) : SiteRegistry := { r with sites := [] }

/-- The site at the host address `rip`. -/
def find (r : SiteRegistry) (rip : Nat) : Option Site :=
  if rip < r.base then none
  else if 2 ^ 32 ≤ rip - r.base then none
  else
    match binarySearchByKey (·.offset.toNat) (rip - r.base) r.sites with
    | .ok index => r.sites[index]?
    | .error _ => none

end SiteRegistry

/-! ## Runs -/

inductive SiteOp where
  | register (host : Nat) (sites : List DirectSite)
  | clear
  deriving DecidableEq, Repr

namespace SiteRegistry

def step (r : SiteRegistry) : SiteOp → SiteRegistry
  | .register host sites => r.register host sites
  | .clear => r.clear

def run (r : SiteRegistry) (ops : List SiteOp) : SiteRegistry := ops.foldl step r

/-- Host address of the block and site, for every site registered since the last `clear`. -/
def live (ops : List SiteOp) : List (Nat × DirectSite) :=
  ops.foldl (fun acc op =>
    match op with
    | .register host sites => acc ++ sites.map (host, ·)
    | .clear => []) []

/-- The absolute address of a site. -/
def address (x : Nat × DirectSite) : Nat := x.1 + x.2.offset.toNat

/-- The site lies in the code cache, less than 4 GiB past its base. -/
def InWindow (base : Nat) (x : Nat × DirectSite) : Prop := base ≤ x.1 ∧ address x < base + 2 ^ 32

variable {base : Nat} {sites : List Site} {r : SiteRegistry} {l : List (Nat × DirectSite)}

/-! ## The order of the list -/

/-- Strictly sorted by offset. -/
def Sorted (sites : List Site) : Prop := sites.Pairwise (·.offset.toNat < ·.offset.toNat)

/-- Strict order leaves one entry for an offset. -/
theorem Sorted.eq_of_offset (h : Sorted sites) {a b : Site} (ha : a ∈ sites) (hb : b ∈ sites)
    (hab : a.offset.toNat = b.offset.toNat) : a = b := by
  have hmono := List.pairwise_iff_getElem.mp h
  obtain ⟨i, hi, rfl⟩ := List.mem_iff_getElem.mp ha
  obtain ⟨j, hj, rfl⟩ := List.mem_iff_getElem.mp hb
  rcases Nat.lt_trichotomy i j with hij | rfl | hji
  · have := hmono i j hi hj hij
    omega
  · rfl
  · have := hmono j i hj hi hji
    omega

theorem Sorted.insertSite (h : Sorted sites) {e : Site}
    (he : ∀ s ∈ sites, s.offset.toNat ≠ e.offset.toNat) :
    Sorted (insertSite sites e) ∧ (insertSite sites e).Perm (e :: sites) := by
  rw [SiteRegistry.insertSite]
  split
  · rename_i last hlast
    split_ifs with hle
    · exact pairwise_insert_partitionPoint h he
    · refine ⟨?_, List.perm_append_singleton e sites⟩
      -- Nothing before the last entry is greater than it.
      obtain ⟨front, rfl⟩ := List.getLast?_eq_some_iff.mp hlast
      have hfront := (List.pairwise_append.mp h).2.2
      refine List.pairwise_append.mpr ⟨h, List.pairwise_singleton _ _, fun a ha b hb => ?_⟩
      rw [List.mem_singleton.mp hb]
      rcases List.mem_append.mp ha with ha | ha
      · have := hfront a ha last (List.mem_singleton_self last)
        omega
      · rw [List.mem_singleton.mp ha]
        omega
  · rename_i hnil
    rw [List.getLast?_eq_none_iff] at hnil
    subst hnil
    exact ⟨List.pairwise_singleton _ _, .refl _⟩

/-- The registry holds the entries of the sites `l` and nothing else, sorted. -/
structure Holds (r : SiteRegistry) (l : List (Nat × DirectSite)) : Prop where
  sorted : Sorted r.sites
  perm : r.sites.Perm (l.map fun x => entryOf r.base x.1 x.2)

theorem entryOf_offset {x : Nat × DirectSite} (h : InWindow base x) :
    base + (entryOf base x.1 x.2).offset.toNat = address x := by
  obtain ⟨hlo, hhi⟩ := h
  rw [address] at hhi
  simp only [entryOf, BitVec.toNat_ofNat, address]
  omega

theorem Holds.register (h : Holds r l) (host : Nat) (sites : List DirectSite)
    (hwin : ∀ x ∈ l ++ sites.map (host, ·), InWindow r.base x)
    (hdistinct : (l ++ sites.map (host, ·)).Pairwise (address · ≠ address ·)) :
    Holds (r.register host sites) (l ++ sites.map (host, ·)) := by
  induction sites generalizing r l with
  | nil => simpa [SiteRegistry.register] using h
  | cons s rest ih =>
    have hsplit : l ++ (s :: rest).map (host, ·) = (l ++ [(host, s)]) ++ rest.map (host, ·) := by
      simp
    rw [hsplit] at hwin hdistinct ⊢
    refine @ih ⟨r.base, insertSite r.sites (entryOf r.base host s)⟩ (l ++ [(host, s)]) ?_ hwin
      hdistinct
    have hnew : ∀ e ∈ r.sites, e.offset.toNat ≠ (entryOf r.base host s).offset.toNat := by
      intro e he heq
      obtain ⟨x, hx, rfl⟩ := List.mem_map.mp (h.perm.mem_iff.mp he)
      have hne := (List.pairwise_append.mp (List.pairwise_append.mp hdistinct).1).2.2 x hx (host, s)
        (List.mem_singleton_self _)
      have h1 := entryOf_offset (hwin x (by simp [hx]))
      have h2 := entryOf_offset (hwin (host, s) (by simp))
      dsimp only at h2
      omega
    obtain ⟨hsorted, hperm⟩ := h.sorted.insertSite hnew
    refine ⟨hsorted, hperm.trans ?_⟩
    rw [List.map_append]
    exact (h.perm.cons _).trans (List.perm_append_singleton _ _).symm

/-- What the lookup returns, from what the registry holds. -/
theorem Holds.find (h : Holds r l) (hwin : ∀ x ∈ l, InWindow r.base x) (rip : Nat) (site : Site) :
    r.find rip = some site ↔ ∃ x ∈ l, address x = rip ∧ site = entryOf r.base x.1 x.2 := by
  have hsearch := binarySearchByKey_spec (h.sorted.imp fun hab => Nat.le_of_lt hab) (rip - r.base)
  rw [SiteRegistry.find]
  constructor
  · intro hfind
    split_ifs at hfind with hlo hhi
    split at hfind
    · rename_i index hindex
      obtain ⟨e, he, hkey⟩ := hsearch.1 index hindex
      rw [he, Option.some.injEq] at hfind
      subst hfind
      obtain ⟨x, hx, rfl⟩ := List.mem_map.mp (h.perm.mem_iff.mp (List.mem_of_getElem? he))
      have := entryOf_offset (hwin x hx)
      exact ⟨x, hx, by omega, rfl⟩
    · cases hfind
  · rintro ⟨x, hx, rfl, rfl⟩
    obtain ⟨hlo, hhi⟩ := hwin x hx
    have hoff := entryOf_offset (hwin x hx)
    have hmem := h.perm.mem_iff.mpr (List.mem_map_of_mem hx)
    rw [if_neg (by omega), if_neg (by omega)]
    cases hs : binarySearchByKey (·.offset.toNat) (address x - r.base) r.sites with
    | error i => exact absurd (by omega) (hsearch.2 i hs _ hmem)
    | ok i =>
      obtain ⟨e, he, hkey⟩ := hsearch.1 i hs
      dsimp only
      rw [he, Option.some.injEq]
      exact h.sorted.eq_of_offset (List.mem_of_getElem? he) hmem (by omega)

/-! ## Runs -/

theorem live_concat (ops : List SiteOp) (op : SiteOp) :
    live (ops ++ [op]) =
      match op with
      | .register host sites => live ops ++ sites.map (host, ·)
      | .clear => [] := by
  rw [live, List.foldl_append]
  rfl

theorem run_concat (r : SiteRegistry) (ops : List SiteOp) (op : SiteOp) :
    r.run (ops ++ [op]) = (r.run ops).step op := List.foldl_append

theorem run_base (r : SiteRegistry) (ops : List SiteOp) : (r.run ops).base = r.base := by
  induction ops using List.reverseRecOn with
  | nil => rfl
  | append_singleton ops op ih =>
    rw [run_concat]
    cases op <;> exact ih

/-- What a run leaves holds the sites registered since the last `clear`. -/
theorem holds_run (base : Nat) (ops : List SiteOp) (hwin : ∀ x ∈ live ops, InWindow base x)
    (hdistinct : (live ops).Pairwise (address · ≠ address ·)) :
    Holds ((new base).run ops) (live ops) := by
  induction ops using List.reverseRecOn with
  | nil => exact ⟨.nil, .refl _⟩
  | append_singleton ops op ih =>
    rw [live_concat] at hwin hdistinct ⊢
    rw [run_concat]
    cases op with
    | clear => exact ⟨.nil, .refl _⟩
    | register host sites =>
      have hholds := ih (fun x hx => hwin x (List.mem_append_left _ hx))
        (List.pairwise_append.mp hdistinct).1
      exact hholds.register host sites (by rwa [run_base]) hdistinct

/-- **The registry is sorted and its lookup exact.** -/
theorem find_run (base : Nat) (ops : List SiteOp) (hwin : ∀ x ∈ live ops, InWindow base x)
    (hdistinct : (live ops).Pairwise (address · ≠ address ·)) :
    ((new base).run ops).sites.Pairwise (fun a b => a.offset < b.offset) ∧
      (∀ rip site, ((new base).run ops).find rip = some site ↔
        ∃ x ∈ live ops, address x = rip ∧ site = entryOf base x.1 x.2) ∧
      ∀ rip, (∀ x ∈ live ops, address x ≠ rip) → ((new base).run ops).find rip = none := by
  have hbase := run_base (new base) ops
  have hholds := holds_run base ops hwin hdistinct
  have hfind := fun rip site => hholds.find (by rwa [hbase]) rip site
  rw [hbase] at hfind
  refine ⟨hholds.sorted, hfind, fun rip hrip => ?_⟩
  rw [Option.eq_none_iff_forall_ne_some]
  intro site hsite
  obtain ⟨x, hx, haddr, -⟩ := (hfind rip site).mp hsite
  exact hrip x hx haddr

/-- Three blocks, the last below the others: five sites are registered, two of them before a
`clear`. -/
def sampleSites : List SiteOp :=
  [.register 0x1300 [⟨4, 3, 9⟩, ⟨8, 3, 30⟩], .clear, .register 0x1100 [⟨4, 3, 12⟩, ⟨40, 5, 60⟩],
    .register 0x1080 [⟨0, 3, 9⟩]]

theorem find_run_sampleSites :
    (∀ x ∈ live sampleSites, InWindow 0x1000 x) ∧
      ((new 0x1000).run sampleSites).find 0x1104 = some ⟨0x104, 0x10C, 3⟩ ∧
      ((new 0x1000).run sampleSites).find 0x1304 = none := by
  have hwin : ∀ x ∈ live sampleSites, InWindow 0x1000 x := by
    simp only [InWindow]
    decide
  obtain ⟨-, hsome, hnone⟩ := find_run 0x1000 sampleSites hwin (by decide)
  exact ⟨hwin, (hsome _ _).mpr ⟨(0x1100, ⟨4, 3, 12⟩), by decide, rfl, rfl⟩, hnone _ (by decide)⟩

end SiteRegistry

end Rustarmic
