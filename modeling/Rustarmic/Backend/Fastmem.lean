import Rustarmic.Backend.Exclusive

/-!
# Fastmem guards

Generated code decides with a few compares whether an access goes straight to host memory or to the
callbacks.

* `FastmemMode` — how the host memory is laid out; `FastmemMode.of` picks one from a block's
  settings.
* `emitFastmemGuard` — the compares of each mode, on 64-bit registers.
* `window_guard`, `pageTable_guard`, `direct_guard` — what each guard admits, in exact arithmetic.

There are three layouts.  A *window* is one flat range with a base and a size, and the guard
compares both ends.  A *page table* has a byte of permissions for each page, and the guard looks up
the page of the first byte; an access that goes into the next page is not admitted.  The *direct*
layout reserves as much host address space as the guest can name and lets the processor find out the
rest, so that its guard looks at the upper bits of the address only.

The compares are on 64-bit registers and wrap.  A window may be as large as the address space or
smaller than an access, and the offset of an address below the base is huge; the lemmas say what is
admitted with natural numbers, in which nothing wraps, and what the host address is then.
Everything after this file uses only these.
-/

set_option autoImplicit false

namespace Rustarmic

/-- `DIRECT_BITS_RANGE`. -/
abbrev DirectBits := { bits : Nat // 1 ≤ bits ∧ bits ≤ 63 }

abbrev PageBits := { bits : Nat // 13 ≤ bits ∧ bits ≤ 42 }

inductive FastmemMode where
  /-- Every access calls the memory callbacks. -/
  | off
  /-- One flat window described by `mem_base_va` and `mem_size`. -/
  | window
  /-- Per-page permission table; the payload is the guest address width. -/
  | pageTable (bits : PageBits)
  | direct (bits : DirectBits)
  deriving DecidableEq

def FastmemMode.of (fastmemDirectBits fastmemPageBits : U8) (useFastmem : Bool) : FastmemMode :=
  if h : 1 ≤ fastmemDirectBits.toNat ∧ fastmemDirectBits.toNat ≤ 63 then .direct ⟨_, h⟩
  else if h : 13 ≤ fastmemPageBits.toNat ∧ fastmemPageBits.toNat ≤ 42 then .pageTable ⟨_, h⟩
  else if useFastmem then .window else .off

def FastmemMode.isDirect : FastmemMode → Bool
  | .direct _ => true
  | _ => false

/-- The context fields the guards read. -/
structure FastRegion where
  memBase : U64
  memBaseVa : U64
  memSize : U64
  /-- A byte for each guest page. -/
  pageTable : U64 → U8

/-- Loads may bypass the read callback. -/
def pageDirectRead : U8 := 1

/-- Stores may bypass the write callback. -/
def pageDirectWrite : U8 := 2

/-! ## The guards -/

/-- The offset into the window, if the access fits. -/
def emitFastmemBoundsCheck (r : FastRegion) (w : Width) (addr : U64) : Option U64 :=
  if addr < r.memBaseVa then none
  else
    let offset := addr - r.memBaseVa
    -- The size less the width is compared, as the offset plus the width could overflow.
    if r.memSize < BitVec.ofNat 64 w.bytes then none
    else if r.memSize - BitVec.ofNat 64 w.bytes < offset then none
    else some offset

/-- The host address of an access that goes inline. -/
def emitFastmemGuard (mode : FastmemMode) (perm : U8) (r : FastRegion) (w : Width) (addr : U64) :
    Option U64 :=
  match mode with
  | .off => none
  | .window => (emitFastmemBoundsCheck r w addr).map (r.memBase + ·)
  | .direct bits => if addr >>> bits.val ≠ 0 then none else some (r.memBase + addr)
  | .pageTable bits =>
    -- The pages of an access that straddles a boundary may have different permissions.
    if 1 < w.bytes ∧ BitVec.ofNat 32 (0x1000 - w.bytes) < addr.setWidth 32 &&& 0xFFF#32 then none
    else
      let page := addr >>> 12
      if BitVec.ofNat 64 (2 ^ (bits.val - 12)) ≤ page then none
      else if r.pageTable page &&& perm = 0 then none
      else some (r.memBase + addr)

/-! ## What they admit -/

theorem window_guard (perm : U8) (r : FastRegion) (w : Width) (addr : U64) :
    emitFastmemGuard .window perm r w addr =
      if r.memBaseVa.toNat ≤ addr.toNat ∧
          addr.toNat - r.memBaseVa.toNat + w.bytes ≤ r.memSize.toNat then
        some (r.memBase + (addr - r.memBaseVa))
      else none := by
  have hw : (BitVec.ofNat 64 w.bytes).toNat = w.bytes := by
    cases w <;> rfl
  simp only [emitFastmemGuard, emitFastmemBoundsCheck, BitVec.lt_def, hw]
  by_cases hbase : addr.toNat < r.memBaseVa.toNat
  · rw [if_pos hbase, if_neg (by omega), Option.map_none]
  have hoffset : (addr - r.memBaseVa).toNat = addr.toNat - r.memBaseVa.toNat :=
    BitVec.toNat_sub_of_le (BitVec.le_def.mpr (Nat.le_of_not_lt hbase))
  rw [if_neg hbase, hoffset]
  by_cases hsize : r.memSize.toNat < w.bytes
  · rw [if_pos hsize, if_neg (by omega), Option.map_none]
  have hroom : (r.memSize - BitVec.ofNat 64 w.bytes).toNat = r.memSize.toNat - w.bytes := by
    rw [BitVec.toNat_sub_of_le (by rw [BitVec.le_def, hw]; omega), hw]
  rw [if_neg hsize, hroom]
  by_cases hfits : r.memSize.toNat - w.bytes < addr.toNat - r.memBaseVa.toNat
  · rw [if_pos hfits, if_neg (by omega), Option.map_none]
  · rw [if_neg hfits, if_pos (by omega), Option.map_some]

theorem direct_guard (bits : DirectBits) (perm : U8) (r : FastRegion) (w : Width) (addr : U64) :
    emitFastmemGuard (.direct bits) perm r w addr =
      if addr.toNat < 2 ^ bits.val then some (r.memBase + addr) else none := by
  have hshift : addr >>> bits.val ≠ 0 ↔ ¬ addr.toNat < 2 ^ bits.val := by
    have hzero : (0 : U64).toNat = 0 := rfl
    have hpos := Nat.two_pow_pos bits.val
    rw [Ne, ← BitVec.toNat_inj, BitVec.toNat_ushiftRight, Nat.shiftRight_eq_div_pow, hzero,
      Nat.div_eq_zero_iff]
    omega
  simp only [emitFastmemGuard]
  by_cases h : addr.toNat < 2 ^ bits.val
  · rw [if_pos h, if_neg fun hs => hshift.mp hs h]
  · rw [if_neg h, if_pos (hshift.mpr h)]

theorem pageTable_guard (bits : PageBits) (perm : U8) (r : FastRegion) (w : Width) (addr : U64) :
    emitFastmemGuard (.pageTable bits) perm r w addr =
      if addr.toNat % 4096 + w.bytes ≤ 4096 ∧ addr.toNat + w.bytes ≤ 2 ^ bits.val ∧
          r.pageTable (addr >>> 12) &&& perm ≠ 0 then
        some (r.memBase + addr)
      else none := by
  have hbits := bits.property
  have hoffset : (addr.setWidth 32 &&& 0xFFF#32).toNat = addr.toNat % 4096 := by
    rw [BitVec.toNat_and, BitVec.toNat_setWidth, show (0xFFF#32).toNat = 2 ^ 12 - 1 from rfl,
      Nat.and_two_pow_sub_one_eq_mod]
    omega
  have hroom : (BitVec.ofNat 32 (0x1000 - w.bytes)).toNat = 4096 - w.bytes := by
    cases w <;> rfl
  have hbytes : w.bytes ≤ 16 := by
    cases w <;> decide
  have hpages : 2 ^ bits.val = 4096 * 2 ^ (bits.val - 12) := by
    rw [show (4096 : Nat) = 2 ^ 12 from rfl, ← Nat.pow_add]
    congr 1
    omega
  have hlimit : (BitVec.ofNat 64 (2 ^ (bits.val - 12))).toNat = 2 ^ (bits.val - 12) := by
    rw [BitVec.toNat_ofNat]
    exact Nat.mod_eq_of_lt (Nat.pow_lt_pow_right (by decide) (by omega))
  have hpage : (addr >>> 12).toNat = addr.toNat / 4096 := by
    rw [BitVec.toNat_ushiftRight, Nat.shiftRight_eq_div_pow]
  have hpos := w.bytes_pos
  simp only [emitFastmemGuard, BitVec.lt_def, BitVec.le_def, hoffset, hroom, hlimit, hpage]
  by_cases hstraddle : 1 < w.bytes ∧ 4096 - w.bytes < addr.toNat % 4096
  · rw [if_pos hstraddle, if_neg (by omega)]
  rw [if_neg hstraddle]
  by_cases habove : 2 ^ (bits.val - 12) ≤ addr.toNat / 4096
  · rw [if_pos habove, if_neg (by omega)]
  rw [if_neg habove]
  by_cases hperm : r.pageTable (addr >>> 12) &&& perm = 0
  · rw [if_pos hperm, if_neg fun h => h.2.2 hperm]
  · rw [if_neg hperm, if_pos ⟨by omega, by omega, hperm⟩]

end Rustarmic
