import Rustarmic.Frontend.Translator
import Rustarmic.Jit.Dispatch

/-!
# Invalidation

When guest code changes, `invalidateRange` takes out every block translated from it.  Which blocks
those are is decided by the ranges the translator recorded, widened on install and compared as
half-open intervals.

* `Placed` — what the cache knows about the block at a host address; `Placed.step` keeps it until
  the next reset, and `Placed.invalidateRange` narrows it to what an invalidation spares.
* `dooms_of_recorded`, `exists_byte_of_dooms` — an invalidation takes out a translated block exactly
  when it covers a recorded byte of it.
* `invalidatesExactly_iff` — the result: invalidation takes out exactly the blocks it should if and
  only if every byte of the block is recorded and the block does not start at the marker of an empty
  dispatch slot.

"Exactly" has two halves.  A block of which a byte was invalidated must not run again, whichever way
it is looked up; and one of which none was must stay, or invalidating next to hot code would throw
it out each time.

The recorded ranges are pairs of addresses with the end left out, and addresses wrap.  An
instruction at the top of the address space ends at zero, so that its range is empty as a half-open
interval; a block that goes on at zero has a range for that part, which is cut.  `Straight`
describes the runs of a translation before any of that happens, and `inRange_widen` says which part
of a run survives.
-/

set_option autoImplicit false

namespace Rustarmic

open Wrapping

namespace CodeCache

variable {c c' : CodeCache}

/-! ## Runs without a reset -/

/-- The caches that runs without a reset lead to. -/
def Later (c c' : CodeCache) : Prop :=
  ((system.startAt c).guarded fun _ op => op ≠ .reset).Reachable c'

theorem Later.refl (c : CodeCache) : c.Later c := .init rfl

theorem Later.step (h : c.Later c') (op : CacheOp) (hop : op ≠ .reset) (henum : op.Enumerates c') :
    c.Later (c'.step op) :=
  System.Reachable.step op h ⟨hop, henum, rfl⟩

theorem Later.reachable (hc : system.Reachable c) (h : c.Later c') : system.Reachable c' := by
  refine System.Reachable.invariant (P := system.Reachable) ?_ ?_ h
  · rintro s rfl
    exact hc
  · rintro s op t - hs ⟨-, hstep⟩
    exact .step op hs hstep

theorem Later.invariant {P : CodeCache → Prop} (hc : P c)
    (hstep : ∀ d op, op ≠ .reset → P d → P (d.step op)) (h : c.Later c') : P c' := by
  refine System.Reachable.invariant (P := P) ?_ ?_ h
  · rintro s rfl
    exact hc
  · rintro s op t - hs ⟨hop, -, rfl⟩
    exact hstep s op hop hs

/-! ## The block at a host address -/

/-- Whatever is cached at the host address `host` has a PC and ranges with `P`, and the address is
that of a block. -/
structure Placed (c : CodeCache) (host : Nat) (P : U64 → List (U64 × U64) → Prop) : Prop where
  stub_lt : c.missStub < host
  host_lt : host < c.memory.base + c.cursor
  table_of : ∀ {pc e}, c.table pc = some e → e.hostPtr = host → P pc e.ranges
  capped_of : ∀ {k e}, c.capped k = some e → e.hostPtr = host → P k.1 e.ranges

variable {host : Nat} {P : U64 → List (U64 × U64) → Prop}

theorem Placed.append (h : c.Placed host P) {bytes : List U8} {d : CodeCache} {fresh : Nat}
    (happend : c.appendRaw bytes = (d, .ok fresh)) : d.Placed host P := by
  obtain ⟨hlen, h1, h2, rfl⟩ := appendRaw_ok happend
  have hlt := h.host_lt
  exact { h with host_lt := by dsimp only; omega }

/-- After an invalidation there are only entries that were there before; when it was given all
keys, only those it spares. -/
theorem invalidateRange_entries (c : CodeCache) (srt : UnstableSort) (order : List U64)
    (start len : U64) :
    (∀ {pc e}, (c.invalidateRange srt order start len).table pc = some e → c.table pc = some e ∧
      (pc ∈ order → dooms start len e.ranges = false)) ∧
    ∀ {k e}, (c.invalidateRange srt order start len).capped k = some e → c.capped k = some e ∧
      dooms start len e.ranges = false := by
  rw [invalidateRange_eq]
  refine ⟨fun {pc e} he => ?_, fun {k e} he => ?_⟩
  · dsimp only at he
    split at he
    · cases he
    · rename_i hspared
      exact ⟨he, fun hmem => by simpa [doomed, hmem, he] using hspared⟩
  · obtain ⟨he', hspared⟩ := Option.filter_eq_some_iff.mp he
    exact ⟨he', by simpa using hspared⟩

/-- And the spared entries are all still there. -/
theorem invalidateRange_spares (c : CodeCache) (srt : UnstableSort) (order : List U64)
    (start len : U64) :
    (∀ {pc e}, c.table pc = some e → dooms start len e.ranges = false →
      (c.invalidateRange srt order start len).table pc = some e) ∧
    ∀ {k e}, c.capped k = some e → dooms start len e.ranges = false →
      (c.invalidateRange srt order start len).capped k = some e := by
  rw [invalidateRange_eq]
  refine ⟨fun {pc e} he hspared => ?_, fun {k e} he hspared => ?_⟩
  · dsimp only
    rw [if_neg (by simp [doomed, he, hspared]), he]
  · exact Option.filter_eq_some_iff.mpr ⟨he, by simpa using hspared⟩

theorem Placed.of_invalidateRange {Q : U64 → List (U64 × U64) → Prop} (h : c.Placed host P)
    (srt : UnstableSort) (order : List U64) (start len : U64)
    (htable : ∀ {pc e}, c.table pc = some e → (pc ∈ order → dooms start len e.ranges = false) →
      P pc e.ranges → Q pc e.ranges)
    (hcapped : ∀ {pc ranges}, P pc ranges → dooms start len ranges = false → Q pc ranges) :
    (c.invalidateRange srt order start len).Placed host Q := by
  obtain ⟨h1, -, h3, h4, -⟩ := foldl_removeBlock_frame (c.doomed order start len) c
  obtain ⟨ht, hc⟩ := invalidateRange_entries c srt order start len
  refine ⟨?_, ?_, fun {pc e} he hhost => ?_, fun {k e} he hhost => ?_⟩
  · rw [invalidateRange_eq, h3]
    exact h.stub_lt
  · rw [invalidateRange_eq, h1, h4]
    exact h.host_lt
  · obtain ⟨he', hspared⟩ := ht he
    exact htable he' hspared (h.table_of he' hhost)
  · obtain ⟨he', hspared⟩ := hc he
    exact hcapped (h.capped_of he' hhost) hspared

/-- **An invalidation leaves only what it does not doom.** -/
theorem Placed.invalidateRange (h : c.Placed host P) (srt : UnstableSort) {order : List U64}
    {start len : U64} (henum : (CacheOp.invalidateRange srt order start len).Enumerates c) :
    (c.invalidateRange srt order start len).Placed host
      fun pc ranges => P pc ranges ∧ dooms start len ranges = false := by
  refine h.of_invalidateRange srt order start len (fun {pc e} he hspared hP => ⟨hP, hspared ?_⟩)
    fun hP hspared => ⟨hP, hspared⟩
  rw [henum.2, contains, he]
  rfl

theorem Placed.mono (h : c.Placed host P) {Q : U64 → List (U64 × U64) → Prop}
    (hPQ : ∀ pc ranges, P pc ranges → Q pc ranges) : c.Placed host Q :=
  { h with
    table_of := fun he hhost => hPQ _ _ (h.table_of he hhost)
    capped_of := fun he hhost => hPQ _ _ (h.capped_of he hhost) }

/-- **Host addresses are not used twice** before a reset: every other operation keeps what is known
of the block at one. -/
theorem Placed.step (h : c.Placed host P) {op : CacheOp} (hop : op ≠ .reset) :
    (c.step op).Placed host P := by
  have heffect := effect_step c op
  generalize c.step op = c' at heffect ⊢
  cases heffect with
  | same => exact h
  | append happend => exact h.append happend
  | @capped srt guestPc ranges guestInsns block k d fresh happend =>
    have hd := h.append happend
    obtain ⟨hlen, h1, -, rfl⟩ := appendRaw_ok happend
    refine { hd with capped_of := ?_ }
    intro k' e he hhost
    dsimp only at he
    by_cases hk : k' = (guestPc, k)
    · subst hk
      rw [Function.update_self, Option.some.injEq] at he
      have hlt := h.host_lt
      subst he
      dsimp only at hhost
      omega
    · rw [Function.update_of_ne hk] at he
      exact h.capped_of he hhost
  | @cached _ srt guestPc ranges guestInsns block d fresh _ happend =>
    have hd := h.append happend
    obtain ⟨hlen, h1, -, hd'⟩ := appendRaw_ok happend
    obtain ⟨g1, -, g3, g4, -, -, g7, -⟩ :=
      removeBlock_frame (d.publish guestPc fresh block.chains) guestPc
    rw [installCached_eq]
    refine ⟨by rw [g3]; exact hd.stub_lt, by rw [g1, g4]; exact hd.host_lt, ?_, ?_⟩
    · intro pc e he hhost
      dsimp only at he
      by_cases hpc : pc = guestPc
      · subst hpc
        rw [Function.update_self, Option.some.injEq] at he
        have hlt := h.host_lt
        subst he
        rw [entryOf] at hhost
        dsimp only at hhost
        omega
      · rw [Function.update_of_ne hpc] at he
        exact hd.table_of he hhost
    · intro k e he hhost
      rw [g7] at he
      exact hd.capped_of he hhost
  | fill htable => exact { h with }
  | invalidate srt order start len =>
    exact h.of_invalidateRange srt order start len (fun _ _ hP => hP) fun hP _ => hP
  | reset => exact absurd rfl hop

theorem Placed.later (h : c.Placed host P) (hlater : c.Later c') : c'.Placed host P :=
  hlater.invariant (P := fun d => d.Placed host P) h fun _ _ hop hd => hd.step hop

/-- Capped blocks are below the cursor, as cached ones are. -/
def CappedBelow (c : CodeCache) : Prop :=
  ∀ k e, c.capped k = some e → e.hostPtr < c.memory.base + c.cursor

theorem CappedBelow.append (h : CappedBelow c) {bytes : List U8} {d : CodeCache} {fresh : Nat}
    (happend : c.appendRaw bytes = (d, .ok fresh)) : CappedBelow d := by
  obtain ⟨-, h1, -, rfl⟩ := appendRaw_ok happend
  intro k e he
  have hlt := h k e he
  dsimp only
  omega

theorem CappedBelow.step (h : CappedBelow c) (hlayout : Layout c) (op : CacheOp) :
    CappedBelow (c.step op) := by
  have heffect := effect_step c op
  generalize c.step op = c' at heffect ⊢
  cases heffect with
  | same => exact h
  | append happend => exact h.append happend
  | @capped srt guestPc ranges guestInsns block k d fresh happend =>
    have hd := h.append happend
    obtain ⟨hlen, h1, -, rfl⟩ := appendRaw_ok happend
    intro k' e he
    dsimp only at he
    by_cases hk : k' = (guestPc, k)
    · subst hk
      rw [Function.update_self, Option.some.injEq] at he
      subst he
      dsimp only [publish]
      omega
    · rw [Function.update_of_ne hk] at he
      exact hd _ _ he
  | @cached _ srt guestPc ranges guestInsns block d fresh _ happend =>
    have hd := h.append happend
    obtain ⟨g1, -, -, g4, -, -, g7, -⟩ :=
      removeBlock_frame (d.publish guestPc fresh block.chains) guestPc
    rw [installCached_eq]
    intro k e he
    dsimp only
    rw [g7] at he
    rw [g1, g4]
    exact hd _ _ he
  | fill htable => exact h
  | invalidate srt order start len =>
    obtain ⟨h1, -, -, h4, -⟩ := foldl_removeBlock_frame (c.doomed order start len) c
    intro k e he
    have he' := ((invalidateRange_entries c srt order start len).2 he).1
    rw [invalidateRange_eq]
    dsimp only
    rw [h1, h4]
    exact h _ _ he'
  | reset =>
    obtain ⟨d, ⟨_, _, _, _, _, -, -, rfl⟩, -, -, hd⟩ :=
      installRuntimeStubs_ok (Prod.ext rfl hlayout.stubs_fit)
    have hreset : c.reset.1.capped = fun _ => none := congrArg CodeCache.capped hd
    intro k e he
    rw [hreset] at he
    cases he

theorem cappedBelow_of_reachable (h : system.Reachable c) : CappedBelow c := by
  refine h.invariant (P := CappedBelow) ?_ ?_
  · rintro s ⟨memory, stubs, code, hnew⟩
    obtain ⟨-, d, hd, -, -, -, -, hcapped, -⟩ := new_ok hnew
    obtain ⟨d', ⟨_, _, _, _, _, -, -, rfl⟩, -, -, rfl⟩ := installRuntimeStubs_ok hd
    intro k e he
    rw [clearDispatch, hcapped] at he
    cases he
  · rintro s op t hreach hs ⟨-, rfl⟩
    exact hs.step (layout_of_reachable hreach) op

/-- A freshly installed block is the only one at its host address. -/
theorem placed_installBlock (h : system.Reachable c) {srt : UnstableSort} {guestPc : U64}
    {ranges : List (U64 × U64)} {guestInsns : U32} {block : EmittedBlock} {cap : Option U32}
    (hinstall : c.installBlock srt guestPc ranges guestInsns block cap = (c', .ok host)) :
    c'.Placed host fun pc r => pc = guestPc ∧ r = normaliseRanges guestPc ranges := by
  have hlayout := layout_of_reachable h
  have hcappedBelow := cappedBelow_of_reachable h
  have hstub := hlayout.stub_lt
  rcases installBlock_cases c srt guestPc ranges guestInsns block cap with
    ⟨e, h'⟩ | ⟨d, fresh, hd, ⟨k, -, h'⟩ | ⟨-, h'⟩⟩
  · rw [h'] at hinstall
    cases hinstall
  · rw [h'] at hinstall
    cases hinstall
    obtain ⟨hlen, h1, -, rfl⟩ := appendRaw_ok hd
    refine ⟨by dsimp only [publish]; omega, by dsimp only [publish]; omega, ?_, ?_⟩
    · intro pc e he hhost
      have hlt := hlayout.host_lt he
      omega
    · intro k' e he hhost
      dsimp only at he
      by_cases hk : k' = (guestPc, k)
      · subst hk
        rw [Function.update_self, Option.some.injEq] at he
        subst he
        exact ⟨rfl, rfl⟩
      · rw [Function.update_of_ne hk] at he
        have hlt := hcappedBelow _ _ he
        omega
  · rw [h'] at hinstall
    cases hinstall
    obtain ⟨hlen, h1, -, rfl⟩ := appendRaw_ok hd
    obtain ⟨g1, -, g3, g4, -, -, g7, -⟩ := removeBlock_frame
      (publish { c with code := ByteMemory.writeBytes c.code host block.code
                        cursor := host + block.code.length - c.memory.base }
        guestPc host block.chains) guestPc
    rw [installCached_eq]
    refine ⟨?_, ?_, ?_, ?_⟩
    · rw [g3]
      dsimp only [publish]
      omega
    · rw [g1, g4]
      dsimp only [publish]
      omega
    · intro pc e he hhost
      dsimp only at he
      by_cases hpc : pc = guestPc
      · subst hpc
        rw [Function.update_self, Option.some.injEq] at he
        subst he
        exact ⟨rfl, rfl⟩
      · rw [Function.update_of_ne hpc] at he
        have hlt := hlayout.host_lt he
        omega
    · intro k e he hhost
      rw [g7] at he
      have hlt := hcappedBelow _ _ he
      omega

/-- A lookup that returns a block's host address found its entry. -/
theorem Placed.of_lookup (h : c.Placed host P) (hslots : SlotsOk c) {pc : U64}
    (hlookup : c.lookup pc = some host) : ∃ e, c.table pc = some e ∧ e.hostPtr = host := by
  by_cases hmark : pc = emptyPc ∧ c.dispatch (dispatchIndex pc) = c.emptySlot
  · rw [lookup_emptySlot hmark, Option.some.injEq] at hlookup
    have hlt := h.stub_lt
    omega
  · rw [lookup, lookupDispatchMeta_eq hslots hmark, Option.map_map] at hlookup
    exact Option.map_eq_some_iff.mp hlookup

theorem lookup_of_table (hslots : SlotsOk c) {pc : U64} (hpc : pc ≠ emptyPc) {e : Entry}
    (htable : c.table pc = some e) : c.lookup pc = some e.hostPtr := by
  rw [lookup, lookupDispatchMeta_eq hslots fun h => hpc h.1, htable]
  rfl

end CodeCache

/-! ## Recorded bytes -/

/-- What an install makes of a range. -/
def widen (r : U64 × U64) : U64 × U64 := if r.2 ≤ r.1 then (r.1, BitVec.allOnes 64) else r

theorem le_allOnes (b : U64) : b ≤ BitVec.allOnes 64 := by
  rw [BitVec.le_def, BitVec.toNat_allOnes]
  have := b.isLt
  omega

/-- **A widened range holds the part of its run that has not wrapped**, short of the last
address. -/
theorem inRange_widen {r : U64 × Nat} (hpos : 0 < r.2) (hlt : r.2 < 2 ^ 32) {b : U64} :
    InRange (widen (runRange r)) b ↔
      (r.1 ≤ b ∧ InSpan r.1 (4 * r.2) b) ∧ b ≠ BitVec.allOnes 64 := by
  obtain ⟨s, n⟩ := r
  have hb := b.isLt
  have hs := s.isLt
  have htop : b ≠ BitVec.allOnes 64 ↔ b.toNat < 2 ^ 64 - 1 := by
    rw [Ne, ← BitVec.toNat_inj, BitVec.toNat_allOnes]
    omega
  dsimp only at hpos hlt ⊢
  have hend : (s + BitVec.ofNat 64 (4 * n)).toNat = (s.toNat + 4 * n) % 2 ^ 64 := by
    rw [BitVec.toNat_add, BitVec.toNat_ofNat]
    omega
  rw [htop, widen, runRange]
  by_cases hwrap : s.toNat + 4 * n < 2 ^ 64
  · rw [if_neg (by rw [BitVec.le_def]; dsimp only; omega), inSpan_iff_of_le (by omega)]
    simp only [InRange, BitVec.le_def, BitVec.lt_def]
    omega
  · rw [if_pos (by rw [BitVec.le_def]; dsimp only; omega)]
    have hall (h : s ≤ b) := inSpan_of_le_start (n := 4 * n) (by omega) h
    simp only [InRange, BitVec.lt_def, BitVec.toNat_allOnes]
    exact ⟨fun h => ⟨⟨h.1, hall h.1⟩, h.2⟩, fun h => ⟨h.1.1, h.2⟩⟩

theorem widen_lt_or (r : U64 × U64) :
    (widen r).1 < (widen r).2 ∨ (widen r).1 = BitVec.allOnes 64 := by
  rw [widen]
  split
  · by_cases h : r.1 = BitVec.allOnes 64
    · exact .inr h
    · exact .inl (BitVec.lt_of_le_ne (le_allOnes _) h)
  · exact .inl (BitVec.not_le.mp ‹_›)

namespace Straight

variable {σ : Type} {runs : List (U64 × Nat)} {t : Translation σ} {b start len : U64}

theorem normaliseRanges_eq (h : Straight runs t.block.ranges t.insts) (guestPc : U64) :
    CodeCache.normaliseRanges guestPc t.block.ranges = runs.map fun r => widen (runRange r) := by
  rw [CodeCache.normaliseRanges, if_neg, h.ranges_eq, List.map_map]
  · rfl
  · rw [h.ranges_eq, List.map_eq_nil_iff]
    exact h.ne_nil

/-- The invalidated interval of a call that does not overflow. -/
theorem inRange_iff_inSpan (hov : start.toNat + len.toNat < 2 ^ 64) :
    InRange (start, start + len) b ↔ InSpan start len.toNat b := by
  rw [inSpan_iff_of_le (by omega), InRange, BitVec.lt_def, BitVec.toNat_add, Nat.mod_eq_of_lt hov]

/-- **An invalidation dooms a translated block when it covers a recorded byte**, or clears the
whole address space. -/
theorem dooms_iff (h : Straight runs t.block.ranges t.insts) (guestPc : U64) (hlen : 0 < len)
    (hov : start.toNat + len.toNat < 2 ^ 64) :
    CodeCache.dooms start len (CodeCache.normaliseRanges guestPc t.block.ranges) = true ↔
      (start = 0 ∧ start + len = BitVec.allOnes 64) ∨
        ∃ b, t.Recorded b ∧ InSpan start len.toNat b := by
  have hstop : start < start + len := by
    rw [BitVec.lt_def] at hlen ⊢
    rw [BitVec.toNat_add, Nat.mod_eq_of_lt hov]
    simpa using hlen
  rw [CodeCache.dooms, CodeCache.invalidated, if_pos hov, h.normaliseRanges_eq]
  simp only [Bool.or_eq_true, Bool.and_eq_true, beq_iff_eq, CodeCache.overlaps, List.any_eq_true,
    List.mem_map, decide_eq_true_eq, h.recorded_iff]
  refine or_congr_right ?_
  -- One range at a time: it meets the interval when they share a byte, which is never the last.
  have hmeet (r : U64 × Nat) (hr : r ∈ runs) :
      (widen (runRange r)).1 < start + len ∧ start < (widen (runRange r)).2 ↔
        ∃ b, (r.1 ≤ b ∧ InSpan r.1 (4 * r.2) b) ∧ InSpan start len.toNat b := by
    have hin {b : U64} := inRange_widen (h.pos r hr) (h.lt hr) (b := b)
    constructor
    · intro hlt
      rcases widen_lt_or (runRange r) with hwide | htop
      · obtain ⟨b, hb, hb'⟩ := (meet_iff (q := (start, start + len)) hwide hstop).mp hlt
        exact ⟨b, (hin.mp hb).1, (inRange_iff_inSpan hov).mp hb'⟩
      · rw [htop] at hlt
        exact absurd hlt.1 (BitVec.not_lt.mpr (le_allOnes _))
    · rintro ⟨b, hb, hb'⟩
      have hb' := (inRange_iff_inSpan hov).mpr hb'
      have hne : b ≠ BitVec.allOnes 64 := by
        rintro rfl
        exact absurd hb'.2 (BitVec.not_lt.mpr (le_allOnes _))
      have hr' := hin.mpr ⟨hb, hne⟩
      exact (meet_iff (q := (start, start + len)) hr'.lt hstop).mpr ⟨b, hr', hb'⟩
  constructor
  · rintro ⟨_, ⟨r, hr, rfl⟩, hlt⟩
    obtain ⟨b, hb, hb'⟩ := (hmeet r hr).mp hlt
    exact ⟨b, ⟨r, hr, hb⟩, hb'⟩
  · rintro ⟨b, ⟨r, hr, hb⟩, hb'⟩
    exact ⟨_, ⟨r, hr, rfl⟩, (hmeet r hr).mpr ⟨b, hb, hb'⟩⟩

/-- An invalidation that covers a recorded byte dooms the block, overflow or not. -/
theorem dooms_of_recorded (h : Straight runs t.block.ranges t.insts) (guestPc : U64)
    (hb : t.Recorded b) (hspan : InSpan start len.toNat b) :
    CodeCache.dooms start len (CodeCache.normaliseRanges guestPc t.block.ranges) = true := by
  by_cases hov : start.toNat + len.toNat < 2 ^ 64
  · have hlen : 0 < len := by
      rw [BitVec.lt_def]
      exact (Nat.zero_le _).trans_lt hspan
    exact (h.dooms_iff guestPc hlen hov).mpr (.inr ⟨b, hb, hspan⟩)
  · rw [CodeCache.dooms, CodeCache.invalidated, if_neg hov]
    rfl

/-- An invalidation that dooms the block covers a byte of it. -/
theorem exists_byte_of_dooms (h : Straight runs t.block.ranges t.insts) (guestPc : U64)
    (hlen : 0 < len) (hov : start.toNat + len.toNat < 2 ^ 64)
    (hdooms : CodeCache.dooms start len (CodeCache.normaliseRanges guestPc t.block.ranges) = true) :
    ∃ b, t.HasByte b ∧ InSpan start len.toNat b := by
  rcases (h.dooms_iff guestPc hlen hov).mp hdooms with ⟨rfl, hstop⟩ | ⟨b, ⟨i, hi, -, hb⟩, hspan⟩
  · -- Everything but the last address is covered, and an instruction has a byte before that.
    obtain rfl : len = BitVec.allOnes 64 := (BitVec.zero_add len).symm.trans hstop
    obtain ⟨r, hr⟩ := List.exists_mem_of_ne_nil runs h.ne_nil
    have hpos := h.pos r hr
    have hbyte (k : Nat) (hk : k < 4) : t.HasByte (r.1 + BitVec.ofNat 64 k) :=
      h.hasByte_iff.mpr ⟨r, hr, by
        rw [InSpan, BitVec.add_comm, BitVec.add_sub_cancel, BitVec.toNat_ofNat]
        omega⟩
    by_cases htop : r.1 = BitVec.allOnes 64
    · exact ⟨_, hbyte 1 (by decide), by rw [htop]; decide⟩
    · refine ⟨_, hbyte 0 (by decide), ?_⟩
      show (r.1 + 0#64 - 0#64).toNat < _
      rw [BitVec.add_zero, BitVec.sub_zero]
      exact BitVec.lt_def.mp (BitVec.lt_of_le_ne (le_allOnes _) htop)
  · exact ⟨b, ⟨i, hi, hb⟩, hspan⟩

end Straight

/-! ## The result -/

namespace CodeCache

variable {c : CodeCache} {host : Nat}

/-- Some lookup returns the block at `host`. -/
def Returns (c : CodeCache) (host : Nat) : Prop :=
  (∃ pc, c.lookup pc = some host) ∨ ∃ pc cap, c.lookupCapped pc cap = some host

/-- Until the next reset, a block at `host` with the bytes `bytes` is gone for good once an
invalidation covers one of them, and every lookup that returns it still does after one that covers
none of them and does not overflow. -/
structure InvalidatesExactly (c : CodeCache) (host : Nat) (bytes : U64 → Prop) : Prop where
  gone : ∀ d, c.Later d → ∀ srt order start len,
    (CacheOp.invalidateRange srt order start len).Enumerates d → 0 < len →
      ∀ b, bytes b → InSpan start len.toNat b →
        ∀ d', (d.invalidateRange srt order start len).Later d' → ¬ d'.Returns host
  spared : ∀ d, c.Later d → ∀ srt order start len,
    (CacheOp.invalidateRange srt order start len).Enumerates d → 0 < len →
      start.toNat + len.toNat < 2 ^ 64 → (∀ b, bytes b → ¬ InSpan start len.toNat b) →
        (∀ pc, d.lookup pc = some host →
          (d.invalidateRange srt order start len).lookup pc = some host) ∧
        ∀ pc cap, d.lookupCapped pc cap = some host →
          (d.invalidateRange srt order start len).lookupCapped pc cap = some host

end CodeCache

/-- Wherever the block is installed, and however, invalidation takes it out exactly when it
should. -/
def Translation.InvalidatesExactly {σ : Type} (t : Translation σ) (startPc : U64) : Prop :=
  ∀ c srt guestInsns block cap c' host, CodeCache.system.Reachable c →
    CodeCache.installBlock c srt startPc t.block.ranges guestInsns block cap = (c', .ok host) →
      c'.InvalidatesExactly host t.HasByte

namespace CodeCache

variable {σ : Type} {t : Translation σ} {c c' d d' : CodeCache} {host : Nat} {startPc : U64}
  {runs : List (U64 × Nat)} {srt : UnstableSort} {order : List U64} {start len : U64}

/-- Nothing returns a block that has no entry left. -/
theorem Placed.not_returns (h : d.Placed host fun _ _ => False) (hreach : system.Reachable d) :
    ¬ d.Returns host := by
  rintro (⟨pc, hlookup⟩ | ⟨pc, cap, hlookup⟩)
  · obtain ⟨e, htable, hhost⟩ := h.of_lookup (slotsOk_of_reachable hreach) hlookup
    exact h.table_of htable hhost
  · obtain ⟨e, hcapped, hhost⟩ := Option.map_eq_some_iff.mp hlookup
    exact h.capped_of hcapped hhost

/-- A recorded byte is enough. -/
theorem Placed.gone (h : d.Placed host fun pc r =>
      pc = startPc ∧ r = normaliseRanges startPc t.block.ranges)
    (hreach : system.Reachable d) (hstraight : Straight runs t.block.ranges t.insts)
    (henum : (CacheOp.invalidateRange srt order start len).Enumerates d) {b : U64}
    (hb : t.Recorded b) (hspan : InSpan start len.toNat b)
    (hlater : (d.invalidateRange srt order start len).Later d') : ¬ d'.Returns host := by
  have hreach' : system.Reachable (d.invalidateRange srt order start len) :=
    reachable_step hreach (.invalidateRange srt order start len) henum
  refine (Placed.later ?_ hlater).not_returns (hlater.reachable hreach')
  refine (h.invalidateRange srt henum).mono ?_
  rintro pc r ⟨⟨rfl, rfl⟩, hspared⟩
  rw [hstraight.dooms_of_recorded pc hb hspan] at hspared
  cases hspared

/-- Without a covered byte the block keeps its entries, and lookups elsewhere than at the marker
still return it. -/
theorem Placed.spared (h : d.Placed host fun pc r =>
      pc = startPc ∧ r = normaliseRanges startPc t.block.ranges)
    (hreach : system.Reachable d) (hstraight : Straight runs t.block.ranges t.insts)
    (henum : (CacheOp.invalidateRange srt order start len).Enumerates d) (hpc : startPc ≠ emptyPc)
    (hlen : 0 < len) (hov : start.toNat + len.toNat < 2 ^ 64)
    (hfree : ∀ b, t.HasByte b → ¬ InSpan start len.toNat b) :
    (∀ pc, d.lookup pc = some host →
        (d.invalidateRange srt order start len).lookup pc = some host) ∧
      ∀ pc cap, d.lookupCapped pc cap = some host →
        (d.invalidateRange srt order start len).lookupCapped pc cap = some host := by
  have hspared : dooms start len (normaliseRanges startPc t.block.ranges) = false := by
    by_contra hdooms
    obtain ⟨b, hb, hspan⟩ :=
      hstraight.exists_byte_of_dooms startPc hlen hov (Bool.not_eq_false _ ▸ hdooms)
    exact hfree b hb hspan
  have hreach' : system.Reachable (d.invalidateRange srt order start len) :=
    reachable_step hreach (.invalidateRange srt order start len) henum
  obtain ⟨htable, hcapped⟩ := invalidateRange_spares d srt order start len
  refine ⟨fun pc hlookup => ?_, fun pc cap hlookup => ?_⟩
  · obtain ⟨e, he, rfl⟩ := h.of_lookup (slotsOk_of_reachable hreach) hlookup
    obtain ⟨rfl, hranges⟩ := h.table_of he rfl
    exact lookup_of_table (slotsOk_of_reachable hreach') hpc (htable he (hranges ▸ hspared))
  · obtain ⟨e, he, rfl⟩ := Option.map_eq_some_iff.mp hlookup
    obtain ⟨-, hranges⟩ := h.capped_of he rfl
    rw [lookupCapped, hcapped he (hranges ▸ hspared)]
    rfl

/-- The sample cache with a `ret` installed as the block at `pc` with the ranges `ranges`. -/
def withRet (pc : U64) (ranges : List (U64 × U64)) (cap : Option U32) : CodeCache :=
  (sampleCache.installBlock stableSort pc ranges 1 (plainBlock [0xC3] .full) cap).1

theorem toNat_add_one_lt {b : U64} (h : b ≠ BitVec.allOnes 64) :
    b.toNat + (1 : U64).toNat < 2 ^ 64 := by
  have hlt := BitVec.lt_def.mp (BitVec.lt_of_le_ne (le_allOnes b) h)
  rw [BitVec.toNat_allOnes] at hlt
  rw [show (1 : U64).toNat = 1 from rfl]
  omega

/-- A byte that is not recorded can be invalidated without taking the block out. -/
theorem recorded_of_invalidatesExactly (hstraight : Straight runs t.block.ranges t.insts)
    (h : t.InvalidatesExactly startPc) {b : U64} (hb : t.HasByte b) : t.Recorded b := by
  by_contra hnot
  have htop : b ≠ BitVec.allOnes 64 := by
    rintro rfl
    obtain ⟨i, hi, hspan⟩ := hb
    exact hnot ⟨i, hi, le_allOnes _, hspan⟩
  have hspared : dooms b 1 (normaliseRanges startPc t.block.ranges) = false := by
    by_contra hdooms
    rcases (hstraight.dooms_iff startPc (by decide) (toNat_add_one_lt htop)).mp
      (Bool.not_eq_false _ ▸ hdooms) with ⟨rfl, hstop⟩ | ⟨b', hb', hspan⟩
    · exact absurd hstop (by decide)
    · rw [inSpan_one.mp hspan] at hb'
      exact hnot hb'
  have hcapped : (withRet startPc t.block.ranges (some 0)).capped (startPc, 0)
      = some ⟨0x10000020, normaliseRanges startPc t.block.ranges⟩ := Function.update_self ..
  refine (h sampleCache stableSort 1 (plainBlock [0xC3] .full) (some 0)
    (withRet startPc t.block.ranges (some 0)) 0x10000020 reachable_sampleCache rfl).gone _ (.refl _)
    stableSort [] b 1 ⟨List.nodup_nil, fun pc => ?_⟩ (by decide) b hb (inSpan_self (by decide)) _
    (.refl _) (.inr ⟨startPc, 0, ?_⟩)
  · exact ⟨fun hmem => absurd hmem List.not_mem_nil, fun hmem => by cases hmem⟩
  · rw [lookupCapped, (invalidateRange_spares ..).2 hcapped hspared]
    rfl

/-- A block at PC `0` whose ranges are the byte at `x`. -/
def shadowOp (x : U64) : CacheOp :=
  .installBlock stableSort 0 [(x, x + 1)] 1 (plainBlock [0xC3] .full) none

/-- The state after it: the block at `0` has taken the slot the two PCs share. -/
theorem step_shadowOp (ranges : List (U64 × U64)) (x : U64) :
    ((withRet emptyPc ranges none).step (shadowOp x)).table = Function.update (Function.update
        (fun _ => none) emptyPc (some ⟨0x10000020, normaliseRanges emptyPc ranges, [], 1, .full⟩)) 0
        (some ⟨0x10000030, normaliseRanges 0 [(x, x + 1)], [], 1, .full⟩) ∧
      ((withRet emptyPc ranges none).step (shadowOp x)).dispatch (dispatchIndex emptyPc)
        = ⟨0, 0x10000030⟩ ∧
      ((withRet emptyPc ranges none).step (shadowOp x)).missStub = 0x10000010 := by
  have hcursor : (withRet emptyPc ranges none).cursor = 0x21 := rfl
  have hmemory : (withRet emptyPc ranges none).memory = sampleMemory := rfl
  have hhost : ((withRet emptyPc ranges none).appendRaw [0xC3]).2 = .ok 0x10000030 := by
    rw [appendRaw, hcursor, hmemory]
    rfl
  obtain ⟨d, hd⟩ : ∃ d, (withRet emptyPc ranges none).appendRaw [0xC3] = (d, .ok 0x10000030) :=
    ⟨_, Prod.ext rfl hhost⟩
  have hstep : (withRet emptyPc ranges none).step (shadowOp x) =
      (d.publish 0 0x10000030 []).installCached stableSort 0
        (entryOf 0 [(x, x + 1)] 1 (plainBlock [0xC3] .full) 0x10000030) [] := by
    simp only [step, shadowOp, installBlock, plainBlock, hd]
    rfl
  obtain ⟨-, -, -, rfl⟩ := appendRaw_ok hd
  rw [hstep, installCached_eq]
  exact ⟨rfl, rfl, (removeBlock_frame _ 0).2.2.1.trans rfl⟩

theorem dooms_shadow {x : U64} (hx : x ≠ BitVec.allOnes 64) :
    dooms x 1 (normaliseRanges 0 [(x, x + 1)]) = true := by
  have hov := toNat_add_one_lt hx
  have hlt : x < x + 1 := by
    rw [BitVec.lt_def, BitVec.toNat_add, Nat.mod_eq_of_lt hov]
    exact Nat.lt_succ_self _
  have hwide : normaliseRanges 0 [(x, x + 1)] = [(x, x + 1)] := by
    rw [normaliseRanges, if_neg (List.cons_ne_nil _ _), List.map_cons,
      if_neg (BitVec.not_le.mpr hlt)]
    rfl
  rw [hwide, dooms, invalidated, if_pos hov]
  simp only [overlaps, List.any_cons, hlt, decide_true, Bool.and_self, Bool.true_or, Bool.or_true]

/-- The marker of an empty slot and PC `0` share a slot: when the block at `0` is taken out of it,
lookups of the marker find the miss stub and no longer the block installed there. -/
theorem ne_emptyPc_of_invalidatesExactly (hstraight : Straight runs t.block.ranges t.insts)
    (h : t.InvalidatesExactly startPc) : startPc ≠ emptyPc := by
  rintro rfl
  obtain ⟨x, htop, hx⟩ := hstraight.exists_not_hasByte
  obtain ⟨htable, hslot, hmiss⟩ := step_shadowOp t.block.ranges x
  have hlater : (withRet emptyPc t.block.ranges none).Later
      ((withRet emptyPc t.block.ranges none).step (shadowOp x)) :=
    (Later.refl _).step (shadowOp x) (by rintro ⟨⟩) trivial
  generalize (withRet emptyPc t.block.ranges none).step (shadowOp x) = d at *
  have henum : (CacheOp.invalidateRange stableSort [emptyPc, 0] x 1).Enumerates d := by
    refine ⟨by decide, fun pc => ?_⟩
    rw [contains, htable, Function.update_apply, Function.update_apply]
    split_ifs <;> simp_all
  have hfree (b : U64) (hb : t.HasByte b) : ¬ InSpan x (1 : U64).toNat b := by
    intro hspan
    rw [inSpan_one.mp hspan] at hb
    exact hx hb
  have hspared : dooms x 1 (normaliseRanges emptyPc t.block.ranges) = false := by
    by_contra hdooms
    obtain ⟨b, hb, hspan⟩ := hstraight.exists_byte_of_dooms emptyPc (by decide)
      (toNat_add_one_lt htop) (Bool.not_eq_false _ ▸ hdooms)
    exact hfree b hb hspan
  have hdoomed : d.doomed [emptyPc, 0] x 1 = [0] := by
    have hmarker : d.table emptyPc = _ :=
      (congrFun htable emptyPc).trans (Function.update_of_ne (by decide) ..)
    have hzero : d.table 0 = _ := (congrFun htable 0).trans (Function.update_self ..)
    rw [Function.update_self] at hmarker
    rw [doomed, List.filter_cons_of_neg (by simp only [hmarker, Option.any_some, hspared]; decide),
      List.filter_cons_of_pos (by rw [hzero]; exact dooms_shadow htop), List.filter_nil]
  have hfound : d.lookup emptyPc = some 0x10000020 := by
    rw [lookup, lookupDispatchMeta, hslot, if_neg (by decide), lookupMetaMiss, htable]
    rfl
  have hstill := ((h sampleCache stableSort 1 (plainBlock [0xC3] .full) none _ 0x10000020
    reachable_sampleCache rfl).spared _ hlater stableSort [emptyPc, 0] x 1 henum (by decide)
    (toNat_add_one_lt htop) hfree).1 emptyPc hfound
  have hshared : dispatchIndex emptyPc = dispatchIndex 0 := by decide
  have hempty : (d.removeBlock 0).dispatch (dispatchIndex emptyPc) = d.emptySlot := by
    rcases (removeBlock_dispatch d 0).2 with ⟨-, hne⟩ | hset
    · rw [← hshared, hslot, htable, Function.update_self] at hne
      exact absurd rfl (hne rfl)
    · rw [hset, hshared, Function.update_self]
  have hmiss' : (d.removeBlock 0).missStub = 0x10000010 :=
    (removeBlock_frame d 0).2.2.1.trans hmiss
  have hempty' : (d.invalidateRange stableSort [emptyPc, 0] x 1).dispatch (dispatchIndex emptyPc) =
      (d.invalidateRange stableSort [emptyPc, 0] x 1).emptySlot := by
    rw [invalidateRange_eq, hdoomed]
    show (d.removeBlock 0).dispatch (dispatchIndex emptyPc) = ⟨emptyPc, (d.removeBlock 0).missStub⟩
    rw [hempty, emptySlot, hmiss, hmiss']
  have hgone : (d.invalidateRange stableSort [emptyPc, 0] x 1).missStub = 0x10000010 := by
    rw [invalidateRange_eq, hdoomed]
    exact hmiss'
  rw [lookup_emptySlot ⟨rfl, hempty'⟩, hgone] at hstill
  exact absurd hstill (by decide)

end CodeCache

/-- **Invalidation takes out a translated block exactly when it should**, wherever and however the
block is installed, if and only if the block does not start at the marker of an empty dispatch slot
and none of its bytes is reached only by running past the top of the address space. -/
theorem invalidatesExactly_iff {σ : Type} {T : InstTranslator} {block : Block} {startPc : U64}
    {fetch : U64 → σ → Option U32 × σ} {memory : σ} {opts : TranslateOptions} {t : Translation σ}
    (h : translateBlockInto T block startPc fetch memory opts = (t, .ok ())) :
    t.InvalidatesExactly startPc ↔ startPc ≠ emptyPc ∧ ∀ b, t.HasByte b → t.Recorded b := by
  obtain ⟨runs, hstraight⟩ := straight_translateBlockInto h
  constructor
  · intro hexact
    exact ⟨CodeCache.ne_emptyPc_of_invalidatesExactly hstraight hexact, fun b hb =>
      CodeCache.recorded_of_invalidatesExactly hstraight hexact hb⟩
  · rintro ⟨hpc, hrecorded⟩ c srt guestInsns emitted cap c' host hreach hinstall
    have hplaced := CodeCache.placed_installBlock hreach hinstall
    have hreach' : CodeCache.system.Reachable c' := by
      have hstep := CodeCache.reachable_step hreach
        (.installBlock srt startPc t.block.ranges guestInsns emitted cap) trivial
      rwa [CodeCache.step, hinstall] at hstep
    refine ⟨?_, ?_⟩
    · intro d hlater srt' order start len henum hlen b hb hspan d' hlater'
      exact (hplaced.later hlater).gone (hlater.reachable hreach') hstraight henum
        (hrecorded b hb) hspan hlater'
    · intro d hlater srt' order start len henum hlen hov hfree
      exact (hplaced.later hlater).spared (hlater.reachable hreach') hstraight henum hpc hlen hov
        hfree

/-- `NOP` and nothing else. -/
def nopTranslator : InstTranslator where
  translateInstruction b pc inst :=
    if inst = 0xD503201F then ((b.push { Armlet.new .hint .void with pc }).1, .ok .continues)
    else (b, .error (.unsupported pc inst))
  ranges_eq b pc inst := by
    split
    · exact b.push_ranges _
    · rfl
  cycles_eq b pc inst := by
    split
    · exact b.push_cycles _
    · rfl

/-- Two `NOP`s from `startPc` on. -/
def nopPair (startPc : U64) : Translation Unit × Except Error Unit :=
  translateBlockInto nopTranslator (Block.new 0) startPc (fun _ m => (some 0xD503201F, m)) ()
    ⟨2, true⟩

/-- A block of two `NOP`s, the second of which is at `0`, outlives an invalidation of that
instruction. -/
theorem wrapped_nop_outlives_invalidation :
    (nopPair 0xFFFFFFFFFFFFFFFC).2 = .ok () ∧
      (nopPair 0xFFFFFFFFFFFFFFFC).1.block.ranges = [(0xFFFFFFFFFFFFFFFC, 4)] ∧
      ((CodeCache.withRet 0xFFFFFFFFFFFFFFFC [(0xFFFFFFFFFFFFFFFC, 4)] none).invalidateRange
        CodeCache.stableSort [0xFFFFFFFFFFFFFFFC] 0 4).lookup 0xFFFFFFFFFFFFFFFC
          = some 0x10000020 ∧
      ¬ (nopPair 0xFFFFFFFFFFFFFFFC).1.InvalidatesExactly 0xFFFFFFFFFFFFFFFC := by
  have hlookup : ((CodeCache.withRet 0xFFFFFFFFFFFFFFFC [(0xFFFFFFFFFFFFFFFC, 4)]
      none).invalidateRange CodeCache.stableSort [0xFFFFFFFFFFFFFFFC] 0 4).lookup
        0xFFFFFFFFFFFFFFFC = some 0x10000020 := rfl
  refine ⟨rfl, rfl, hlookup, fun h => ?_⟩
  have henum : (CacheOp.invalidateRange CodeCache.stableSort [0xFFFFFFFFFFFFFFFC] 0 4).Enumerates
      (CodeCache.withRet 0xFFFFFFFFFFFFFFFC [(0xFFFFFFFFFFFFFFFC, 4)] none) := by
    refine ⟨List.nodup_singleton _, fun pc => ?_⟩
    show _ ↔ (Function.update (fun _ => none) 0xFFFFFFFFFFFFFFFC (some _) pc).isSome = true
    rw [Function.update_apply]
    split_ifs <;> simp_all
  have hbyte : (nopPair 0xFFFFFFFFFFFFFFFC).1.HasByte 0 :=
    ⟨⟨0, 0xFFFFFFFFFFFFFFFC⟩, .tail _ (.head _), by decide⟩
  exact (h CodeCache.sampleCache CodeCache.stableSort 1 (CodeCache.plainBlock [0xC3] .full) none
    (CodeCache.withRet 0xFFFFFFFFFFFFFFFC [(0xFFFFFFFFFFFFFFFC, 4)] none) 0x10000020
    CodeCache.reachable_sampleCache rfl).gone _ (.refl _) CodeCache.stableSort [0xFFFFFFFFFFFFFFFC]
    0 4 henum (by decide) 0 hbyte (by decide) _ (.refl _) (.inl ⟨_, hlookup⟩)

theorem invalidatesExactly_nopPair : (nopPair 0x1000).1.InvalidatesExactly 0x1000 := by
  have hpair : translateBlockInto nopTranslator (Block.new 0) 0x1000
      (fun _ m => (some 0xD503201F, m)) () ⟨2, true⟩ = ((nopPair 0x1000).1, .ok ()) := rfl
  refine (invalidatesExactly_iff hpair).mpr ⟨by decide, ?_⟩
  rintro b ⟨i, hi, hspan⟩
  have hstart : i.runStart = 0x1000 ∧ (i.pc = 0x1000 ∨ i.pc = 0x1004) := by
    have hinsts : (nopPair 0x1000).1.insts = [⟨0x1000, 0x1000⟩, ⟨0x1004, 0x1000⟩] := rfl
    rw [hinsts] at hi
    simp only [List.mem_cons, List.not_mem_nil, or_false] at hi
    rcases hi with rfl | rfl
    · exact ⟨rfl, .inl rfl⟩
    · exact ⟨rfl, .inr rfl⟩
  refine ⟨i, hi, ?_, hspan⟩
  rw [hstart.1, BitVec.le_def]
  rcases hstart.2 with hpc | hpc
  · rw [hpc, inSpan_iff_of_le (by decide)] at hspan
    exact hspan.1
  · rw [hpc, inSpan_iff_of_le (by decide), BitVec.le_def] at hspan
    exact le_trans (by decide) hspan.1

end Rustarmic
