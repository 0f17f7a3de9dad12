import Rustarmic.Lib.Packed
import Rustarmic.Optimizer.ByteMaps

/-!
# Affine byte maps in machine code

`emit` is the code for an affine map of the sixteen bytes in `xmm0`: one instruction where the
processor has GFNI, and otherwise one of several sequences of SSE instructions, chosen by the shape
of the matrix.

* `Instr` and `run` are the instructions it uses and what they do to the registers.
* `Applies code m` says that `code` applies the matrix `m` to every byte of `xmm0`; the shortcuts
  and the loop over the rows each have a lemma that says so.
* `emit_exact`: whatever the shape, the code computes what the GFNI instruction would.

The shifts are of 16-bit lanes, so each sequence has to mask away, or never reads, what comes across
from the other byte of a lane.
-/

set_option autoImplicit false

namespace Rustarmic

namespace Gfni

open Lanes Packed Optimizer

/-! ## The instructions -/

/-- The instructions `emit` uses; vector registers by number, `mov` and `movq` by way of `rax`. -/
inductive Instr where
  | mov (value : U64)
  | movq (dst : Nat)
  | movdqa (dst src : Nat)
  | punpcklqdq (dst src : Nat)
  | pxor (dst src : Nat)
  | pand (dst src : Nat)
  | por (dst src : Nat)
  | psrlw (dst count : Nat)
  | psllw (dst count : Nat)
  | psraw (dst count : Nat)
  | psrldq (dst bytes : Nat)
  | pmovsxbw (dst src : Nat)
  | packsswb (dst src : Nat)
  | gf2p8affineqb (dst matrix : Nat) (addend : U8)
  deriving DecidableEq, Repr

/-- The registers the instructions work on. -/
structure Registers where
  rax : U64
  xmm : Nat → U128

namespace Registers

def set (s : Registers) (r : Nat) (x : U128) : Registers :=
  { s with xmm := Function.update s.xmm r x }

@[simp] theorem xmm_set (s : Registers) (r r' : Nat) (x : U128) :
    (s.set r x).xmm r' = if r' = r then x else s.xmm r' := Function.update_apply _ _ _ _

end Registers

/-- What one instruction does.  `GF2P8AFFINEQB` takes the matrix of each half from the same half of
its operand. -/
def Instr.exec (s : Registers) : Instr → Registers
  | mov value => { s with rax := value }
  | movq dst => s.set dst (s.rax.setWidth 128)
  | movdqa dst src => s.set dst (s.xmm src)
  | punpcklqdq dst src => s.set dst (Packed.punpcklqdq (s.xmm dst) (s.xmm src))
  | pxor dst src => s.set dst (s.xmm dst ^^^ s.xmm src)
  | pand dst src => s.set dst (s.xmm dst &&& s.xmm src)
  | por dst src => s.set dst (s.xmm dst ||| s.xmm src)
  | psrlw dst count => s.set dst (Packed.psrlw (s.xmm dst) count)
  | psllw dst count => s.set dst (Packed.psllw (s.xmm dst) count)
  | psraw dst count => s.set dst (Packed.psraw (s.xmm dst) count)
  | psrldq dst bytes => s.set dst (s.xmm dst >>> (8 * bytes))
  | pmovsxbw dst src => s.set dst (Packed.pmovsxbw (s.xmm src))
  | packsswb dst src => s.set dst (Packed.packsswb (s.xmm dst) (s.xmm src))
  | gf2p8affineqb dst matrix addend => s.set dst (ofLanes 128 8 fun k =>
      Optimizer.gf2p8affineqb (lane 64 (s.xmm matrix) (k / 8)) addend (lane 8 (s.xmm dst) k))

def run (code : List Instr) (s : Registers) : Registers := code.foldl Instr.exec s

@[simp] theorem run_nil (s : Registers) : run [] s = s := rfl

@[simp] theorem run_cons (i : Instr) (code : List Instr) (s : Registers) :
    run (i :: code) s = run code (i.exec s) := rfl

@[simp] theorem run_append (code code' : List Instr) (s : Registers) :
    run (code ++ code') s = run code' (run code s) := List.foldl_append

/-! ## The code -/

/-- Both halves of a register become `value`. -/
def broadcast (register : Nat) (value : U64) : List Instr :=
  [.mov value, .movq register, .punpcklqdq register register]

/-- Exchange neighbouring groups of `shift` bits; `mask` has the low group of each pair. -/
def swapRound (shift : Nat) (mask : U8) : List Instr :=
  [.movdqa 1 0, .psrlw 1 shift] ++ broadcast 2 (repeatByte mask) ++
    [.pand 1 2, .pand 0 2, .psllw 0 shift, .por 0 1]

def emitReverse : List Instr := [(1, 0x55), (2, 0x33), (4, 0x0F)].flatMap fun r => swapRound r.1 r.2

/-- Shift the bytes of each half as 16-bit numbers. -/
def emitSignedShift (shift : Nat) : List Instr :=
  [.pmovsxbw 1 0, .psraw 1 shift, .psrldq 0 8, .pmovsxbw 2 0, .psraw 2 shift, .packsswb 1 2,
    .movdqa 0 1]

def emitShiftedDiagonal (delta : Int) (mask : U8) : List Instr :=
  (if delta < 0 then [.psllw 0 (-delta).toNat] else if 0 < delta then [.psrlw 0 delta.toNat]
    else []) ++
    if mask = 0xFF then [] else broadcast 1 (repeatByte mask) ++ [.pand 0 1]

/-- The parity of a row and each byte, in the lowest bit of the byte. -/
def rowParity (row : U8) : List Instr :=
  if isPowerOfTwo row then [.movdqa 2 0, .psrlw 2 (trailingZeros row)]
  else broadcast 2 (repeatByte row) ++ [.pand 2 0] ++
    [4, 2, 1].flatMap fun shift => [.movdqa 3 2, .psrlw 3 shift, .pxor 2 3]

/-- One row, added to what `xmm1` has of the result. -/
def emitRow (m : U64) (output : Nat) : List Instr :=
  let row := rowOf m output
  if row = 0 then []
  else rowParity row ++ broadcast 3 0x0101010101010101 ++ [.pand 2 3, .psllw 2 output, .por 1 2]

def emitRows (m : U64) : List Instr :=
  .pxor 1 1 :: (List.range 8).flatMap (emitRow m) ++ [.movdqa 0 1]

def emitAddend (addend : U8) : List Instr :=
  if addend = 0 then [] else broadcast 1 (repeatByte addend) ++ [.pxor 0 1]

/-- The code for a matrix and an addend. -/
def emit (hasGfni : Bool) (m : U64) (addend : U8) : List Instr :=
  if hasGfni then broadcast 1 m ++ [.gf2p8affineqb 0 1 addend]
  else if m = identityMatrix then emitAddend addend
  else if m = 0 then
    if addend = 0 then [.pxor 0 0] else broadcast 0 (repeatByte addend)
  else if m = reverseMatrix then emitReverse ++ emitAddend addend
  else match signedRightShift m with
    | some shift => emitSignedShift shift ++ emitAddend addend
    | none => match shiftedDiagonal m with
      | some (delta, mask) => emitShiftedDiagonal delta mask ++ emitAddend addend
      | none => emitRows m ++ emitAddend addend

/-! ## What the pieces do -/

variable {m : U64} {s : Registers} {q r : Nat}

@[simp] theorem xmm_broadcast (register : Nat) (value : U64) (s : Registers) (r' : Nat) :
    (run (broadcast register value) s).xmm r' =
      if r' = register then (value ++ value : U128) else s.xmm r' := by
  by_cases hr : r' = register
  · simp [broadcast, Instr.exec, hr, Packed.punpcklqdq]
  · simp [broadcast, Instr.exec, hr]

/-- Every byte of a repeated byte is that byte. -/
theorem getLsbD_repeat (c : U8) (hq : q < 16) (hr : r < 8) :
    (repeatByte c ++ repeatByte c : U128).getLsbD (8 * q + r) = c.getLsbD r := by
  have hlane := lane_halves (repeatByte c) (repeatByte c) hq
  have hbyte : lane 8 (repeatByte c ++ repeatByte c : U128) q = c := by
    rw [hlane]
    by_cases hlow : q < 8
    · rw [if_pos hlow, byteAt_repeatByte _ hlow]
    · rw [if_neg hlow, byteAt_repeatByte _ (by omega)]
  rw [← congrArg (BitVec.getLsbD · r) hbyte]
  simp only [getLsbD_lane, decide_eq_true hr, Bool.true_and]

/-- The code applies the matrix to every byte of `xmm0`. -/
def Applies (code : List Instr) (m : U64) : Prop :=
  ∀ s : Registers, ∀ k < 16,
    lane 8 ((run code s).xmm 0) k = linear m (lane 8 (s.xmm 0) k)

/-- The same bit by bit. -/
theorem applies_of_bits {code : List Instr}
    (h : ∀ s : Registers, ∀ q < 16, ∀ r < 8, ((run code s).xmm 0).getLsbD (8 * q + r) =
      parity (rowOf m r &&& lane 8 (s.xmm 0) q)) : Applies code m := by
  intro s k hk
  refine BitVec.eq_of_getLsbD_eq fun i hi => ?_
  rw [getLsbD_lane, decide_eq_true hi, Bool.true_and, h s k hk i hi, getLsbD_linear _ _ hi]

theorem Applies.emitAddend {code : List Instr} (h : Applies code m) (addend : U8) (s : Registers)
    {k : Nat} (hk : k < 16) :
    lane 8 ((run (code ++ emitAddend addend) s).xmm 0) k =
      Optimizer.gf2p8affineqb m addend (lane 8 (s.xmm 0) k) := by
  rw [gf2p8affineqb_eq, ← h s k hk, run_append, Gfni.emitAddend]
  by_cases hzero : addend = 0
  · rw [if_pos hzero, hzero]
    exact (BitVec.xor_zero).symm
  · rw [if_neg hzero, run_append]
    simp only [run_cons, run_nil, Instr.exec, Registers.xmm_set, xmm_broadcast, if_true,
      zero_ne_one, if_false]
    refine BitVec.eq_of_getLsbD_eq fun i hi => ?_
    rw [getLsbD_lane, decide_eq_true hi, Bool.true_and, BitVec.getLsbD_xor, getLsbD_repeat _ hk hi,
      BitVec.getLsbD_xor, getLsbD_lane, decide_eq_true hi, Bool.true_and]

/-! ## The shortcuts -/

theorem applies_identity : Applies [] identityMatrix := by
  intro s k _
  rw [(by decide : identityMatrix = diagonal 0xFF), linear_diagonal]
  exact BitVec.allOnes_and.symm

/-- Where a round takes a bit of a byte from. -/
def swapped (shift : Nat) (mask : U8) (r : Nat) : Nat :=
  if mask.getLsbD r then r + shift else r - shift

/-- A round moves the bits within their bytes when the groups of its mask alternate. -/
theorem swapRound_bit {shift : Nat} {mask : U8}
    (hmask : ∀ r < 8, if mask.getLsbD r then r + shift < 8 ∧ ¬ mask.getLsbD ((r + 8 - shift) % 8)
      else shift ≤ r ∧ mask.getLsbD (r - shift)) (hshift : shift ≤ 8) (s : Registers)
    (hq : q < 16) (hr : r < 8) :
    ((run (swapRound shift mask) s).xmm 0).getLsbD (8 * q + r) =
      (s.xmm 0).getLsbD (8 * q + swapped shift mask r) := by
  have hi : 8 * q + r < 128 := by omega
  have hrun : (run (swapRound shift mask) s).xmm 0 =
      Packed.psllw (s.xmm 0 &&& (repeatByte mask ++ repeatByte mask : U128)) shift |||
        Packed.psrlw (s.xmm 0) shift &&& (repeatByte mask ++ repeatByte mask : U128) := by
    simp -implicitDefEqProofs [swapRound, Instr.exec]
  rw [hrun, BitVec.getLsbD_or, BitVec.getLsbD_and, getLsbD_psllw hi, getLsbD_psrlw hi,
    BitVec.getLsbD_and, getLsbD_repeat _ hq hr, swapped]
  have hr' := hmask r hr
  by_cases hset : mask.getLsbD r
  · rw [if_pos hset] at hr' ⊢
    rw [hset, Bool.and_true, decide_eq_true (by omega : (8 * q + r) % 16 + shift < 16)]
    by_cases hle : shift ≤ (8 * q + r) % 16
    · have hclear : (repeatByte mask ++ repeatByte mask : U128).getLsbD (8 * q + r - shift) =
          false := by
        rw [(by omega : 8 * q + r - shift =
            8 * ((8 * q + r - shift) / 8) + (8 * q + r - shift) % 8),
          getLsbD_repeat _ (by omega) (by omega)]
        rw [(by omega : (8 * q + r - shift) % 8 = (r + 8 - shift) % 8)]
        exact Bool.eq_false_iff.mpr hr'.2
      rw [hclear, Bool.and_false, Bool.and_false, Bool.false_or, Bool.true_and, Nat.add_assoc]
    · rw [decide_eq_false hle, Bool.false_and, Bool.false_or, Bool.true_and, Nat.add_assoc]
  · rw [if_neg hset] at hr' ⊢
    rw [Bool.eq_false_iff.mpr hset, Bool.and_false, Bool.or_false,
      decide_eq_true (by omega : shift ≤ (8 * q + r) % 16), Bool.true_and,
      (by omega : 8 * q + r - shift = 8 * q + (r - shift)), getLsbD_repeat _ hq (by omega), hr'.2,
      Bool.and_true]

theorem applies_reverse : Applies emitReverse reverseMatrix := by
  refine applies_of_bits fun s q hq r hr => ?_
  have hrun : run emitReverse s =
      run (swapRound 4 0x0F) (run (swapRound 2 0x33) (run (swapRound 1 0x55) s)) := by
    simp -implicitDefEqProofs only [emitReverse, List.flatMap_cons, List.flatMap_nil, run_append, run_nil]
  have hfour : ∀ r < 8, swapped 4 0x0F r < 8 := by decide
  have htwo : ∀ r < 8, swapped 2 0x33 (swapped 4 0x0F r) < 8 := by decide
  have hall : ∀ r < 8, swapped 1 0x55 (swapped 2 0x33 (swapped 4 0x0F r)) = 7 - r := by decide
  have hrow : ∀ r < 8, rowOf reverseMatrix r = 1#8 <<< (7 - r) := by decide
  rw [hrun, swapRound_bit (by decide) (by decide) _ hq hr,
    swapRound_bit (by decide) (by decide) _ hq (hfour r hr),
    swapRound_bit (by decide) (by decide) _ hq (htwo r hr), hall r hr, hrow r hr,
    parity_bit _ (by omega), getLsbD_lane, decide_eq_true (by omega : 7 - r < 8), Bool.true_and]

theorem applies_signedShift {shift : Nat} (h : signedRightShift m = some shift) :
    Applies (emitSignedShift shift) m := by
  intro s k hk
  have hm : m = matrix (signedRow shift) := by
    have hfound := List.find?_some h
    rw [beq_iff_eq] at hfound
    rw [hfound, rightShiftMatrix]
    rfl
  have hrun : (run (emitSignedShift shift) s).xmm 0 =
      Packed.packsswb (Packed.psraw (Packed.pmovsxbw (s.xmm 0)) shift)
        (Packed.psraw (Packed.pmovsxbw (s.xmm 0 >>> 64)) shift) := by
    simp -implicitDefEqProofs [emitSignedShift, Instr.exec]
  rw [hrun, lane_packsswb_psraw hk, hm, linear_signedRow]

/-- One row in the search of `shiftedDiagonal`. -/
def visitRow (m : U64) (acc : Option (Option Int × U8)) (output : Nat) :
    Option (Option Int × U8) :=
  acc.bind fun (delta, mask) =>
    let row := rowOf m output
    if row = 0 then some (delta, mask)
    else if ¬ isPowerOfTwo row then none
    else
      let rowDelta : Int := trailingZeros row - output
      if delta.any (· != rowDelta) then none
      else some (some rowDelta, mask ||| 1#8 <<< output)

/-- A row of a shifted diagonal: no bit, or one at the common distance. -/
def RowAt (m : U64) (delta : Option Int) (mask : U8) (output : Nat) : Prop :=
  (rowOf m output = 0 ∧ ¬ mask.getLsbD output) ∨
    ∃ t : Nat, t < 8 ∧ rowOf m output = 1#8 <<< t ∧ delta = some ((t : Int) - output) ∧
      mask.getLsbD output

theorem visitRow_spec {n : Nat} (hn : n < 8) {delta delta' : Option Int} {mask mask' : U8}
    (h : visitRow m (some (delta, mask)) n = some (delta', mask')) (hclear : ¬ mask.getLsbD n) :
    RowAt m delta' mask' n ∧ (delta.isSome → delta' = delta) ∧
      ∀ i < 8, i ≠ n → mask'.getLsbD i = mask.getLsbD i := by
  rw [visitRow, Option.bind_some] at h
  dsimp only at h
  split at h
  next hrow =>
    obtain ⟨rfl, rfl⟩ := Prod.mk.inj (Option.some.inj h)
    exact ⟨Or.inl ⟨hrow, hclear⟩, fun _ => rfl, fun _ _ _ => rfl⟩
  next =>
    split at h
    · cases h
    next hpow =>
      obtain ⟨t, ht, hrow⟩ := (isPowerOfTwo_iff _).mp (not_not.mp hpow)
      rw [hrow, trailingZeros_bit t ht] at h
      split at h
      · cases h
      next hsame =>
        obtain ⟨rfl, rfl⟩ := Prod.mk.inj (Option.some.inj h)
        refine ⟨Or.inr ⟨t, ht, hrow, rfl, ?_⟩, fun hsome => ?_, fun i hi hne => ?_⟩
        · rw [BitVec.getLsbD_or, BitVec.getLsbD_shiftLeft, BitVec.getLsbD_one]
          simp [hn]
        · obtain ⟨d, rfl⟩ := Option.isSome_iff_exists.mp hsome
          simp only [Option.any_some, bne_iff_ne, ne_eq, not_not] at hsame
          rw [hsame]
        · rw [BitVec.getLsbD_or, BitVec.getLsbD_shiftLeft, BitVec.getLsbD_one]
          grind

theorem foldl_visitRow {n : Nat} (hn : n ≤ 8) {delta : Option Int} {mask : U8}
    (h : (List.range n).foldl (visitRow m) (some (none, 0)) = some (delta, mask)) :
    (∀ i < n, RowAt m delta mask i) ∧ ∀ i < 8, n ≤ i → ¬ mask.getLsbD i := by
  induction n generalizing delta mask with
  | zero =>
    obtain ⟨rfl, rfl⟩ := Prod.mk.inj (Option.some.inj h)
    exact ⟨fun i hi => absurd hi (Nat.not_lt_zero i), fun i _ _ => by simp⟩
  | succ n ih =>
    rw [List.range_succ, List.foldl_append, List.foldl_cons, List.foldl_nil] at h
    cases hprev : (List.range n).foldl (visitRow m) (some (none, 0)) with
    | none =>
      rw [hprev] at h
      cases h
    | some acc =>
      obtain ⟨delta', mask'⟩ := acc
      rw [hprev] at h
      obtain ⟨hrows, hclear⟩ := ih (by omega) hprev
      obtain ⟨hrow, hdelta, hmask⟩ := visitRow_spec (by omega) h (hclear n (by omega) le_rfl)
      refine ⟨fun i hi => ?_, fun i hi hle => ?_⟩
      · by_cases heq : i = n
        · rwa [heq]
        · have hbit := hmask i (by omega) heq
          rcases hrows i (by omega) with ⟨hzero, hc⟩ | ⟨t, ht, hone, hd, hc⟩
          · exact Or.inl ⟨hzero, by rwa [hbit]⟩
          · exact Or.inr ⟨t, ht, hone, by rw [hdelta (by rw [hd]; rfl), hd], by rwa [hbit]⟩
      · rw [hmask i hi (by omega)]
        exact hclear i hi (by omega)

theorem rowAt_of_shiftedDiagonal {delta : Int} {mask : U8}
    (h : shiftedDiagonal m = some (delta, mask)) : ∀ i < 8, RowAt m (some delta) mask i := by
  have heq : shiftedDiagonal m = ((List.range 8).foldl (visitRow m) (some (none, 0))).bind
      fun (delta, mask) => delta.map fun delta => (delta, mask) := rfl
  rw [heq] at h
  obtain ⟨⟨delta', mask'⟩, hfold, h⟩ := Option.bind_eq_some_iff.mp h
  obtain ⟨d, rfl, hd⟩ := Option.map_eq_some_iff.mp h
  obtain ⟨rfl, rfl⟩ := Prod.mk.inj hd
  exact (foldl_visitRow le_rfl hfold).1

/-- The shift of a shifted diagonal, before the mask. -/
def shifted (delta : Int) (x : U128) : U128 :=
  if delta < 0 then Packed.psllw x (-delta).toNat
  else if 0 < delta then Packed.psrlw x delta.toNat else x

/-- A bit that stays in its byte. -/
theorem getLsbD_shifted {delta : Int} {x : U128} {t : Nat} (hq : q < 16) (hr : r < 8) (ht : t < 8)
    (hdelta : delta = (t : Int) - r) : (shifted delta x).getLsbD (8 * q + r) =
      x.getLsbD (8 * q + t) := by
  rw [shifted]
  by_cases hneg : delta < 0
  · rw [if_pos hneg, getLsbD_psllw (by omega), decide_eq_true (by omega), Bool.true_and,
      (by omega : 8 * q + r - (-delta).toNat = 8 * q + t)]
  · rw [if_neg hneg]
    by_cases hpos : 0 < delta
    · rw [if_pos hpos, getLsbD_psrlw (by omega), decide_eq_true (by omega), Bool.true_and,
        (by omega : 8 * q + r + delta.toNat = 8 * q + t)]
    · rw [if_neg hpos, (by omega : r = t)]

theorem xmm_emitShiftedDiagonal (delta : Int) (mask : U8) (s : Registers) :
    (run (emitShiftedDiagonal delta mask) s).xmm 0 =
      if mask = 0xFF then shifted delta (s.xmm 0)
      else shifted delta (s.xmm 0) &&& (repeatByte mask ++ repeatByte mask : U128) := by
  have hshift : ∀ s : Registers, (run (if delta < 0 then [.psllw 0 (-delta).toNat]
      else if 0 < delta then [.psrlw 0 delta.toNat] else []) s).xmm 0 = shifted delta (s.xmm 0) := by
    intro s
    rw [shifted]
    split_ifs <;> simp -implicitDefEqProofs [Instr.exec]
  rw [emitShiftedDiagonal, run_append]
  by_cases hmask : mask = 0xFF
  · rw [if_pos hmask, if_pos hmask, run_nil, hshift]
  · rw [if_neg hmask, if_neg hmask, ← hshift]
    simp -implicitDefEqProofs [Instr.exec]

theorem applies_shiftedDiagonal {delta : Int} {mask : U8}
    (h : shiftedDiagonal m = some (delta, mask)) : Applies (emitShiftedDiagonal delta mask) m := by
  refine applies_of_bits fun s q hq r hr => ?_
  rw [xmm_emitShiftedDiagonal]
  rcases rowAt_of_shiftedDiagonal h r hr with ⟨hrow, hclear⟩ | ⟨t, ht, hrow, hdelta, hset⟩
  · have hmask : mask ≠ 0xFF := by
      rintro rfl
      exact hclear ((by decide : ∀ r < 8, (0xFF#8).getLsbD r = true) r hr)
    rw [if_neg hmask, BitVec.getLsbD_and, getLsbD_repeat _ hq hr, Bool.eq_false_iff.mpr hclear,
      Bool.and_false, hrow]
    exact (parity_and_zero _).symm
  · have hbit := getLsbD_shifted (x := s.xmm 0) hq hr ht (Option.some.inj hdelta)
    rw [hrow, parity_bit _ ht, getLsbD_lane, decide_eq_true ht, Bool.true_and]
    by_cases hmask : mask = 0xFF
    · rw [if_pos hmask, hbit]
    · rw [if_neg hmask, BitVec.getLsbD_and, getLsbD_repeat _ hq hr, hset, Bool.and_true, hbit]

/-! ## The loop over the rows -/

/-- Add the bits `shift` places up. -/
def fold (x : U128) (shift : Nat) : U128 := x ^^^ Packed.psrlw x shift

theorem getLsbD_fold {x : U128} {shift i : Nat} (hi : i < 128) (hin : i % 16 + shift < 16) :
    (fold x shift).getLsbD i = (x.getLsbD i ^^ x.getLsbD (i + shift)) := by
  rw [fold, BitVec.getLsbD_xor, getLsbD_psrlw hi, decide_eq_true hin, Bool.true_and]

/-- Three folds collect a byte in its lowest bit; what they make of the other bits does not
matter. -/
theorem getLsbD_folds (x : U128) (hq : q < 16) :
    (fold (fold (fold x 4) 2) 1).getLsbD (8 * q) = parity (lane 8 x q) := by
  have hbit : ∀ r < 8, (lane 8 x q).getLsbD r = x.getLsbD (8 * q + r) := by
    intro r hr
    rw [getLsbD_lane, decide_eq_true hr, Bool.true_and]
  rw [parity_eq, xorBits_congr hbit, getLsbD_fold (by omega) (by omega),
    getLsbD_fold (by omega) (by omega), getLsbD_fold (by omega) (by omega),
    getLsbD_fold (by omega) (by omega), getLsbD_fold (by omega) (by omega),
    getLsbD_fold (by omega) (by omega), getLsbD_fold (by omega) (by omega)]
  simp only [xorBits_succ, xorBits_zero, Nat.add_assoc, Nat.reduceAdd, Nat.add_zero]
  generalize x.getLsbD (8 * q) = b0, x.getLsbD (8 * q + 1) = b1, x.getLsbD (8 * q + 2) = b2,
    x.getLsbD (8 * q + 3) = b3, x.getLsbD (8 * q + 4) = b4, x.getLsbD (8 * q + 5) = b5,
    x.getLsbD (8 * q + 6) = b6, x.getLsbD (8 * q + 7) = b7
  simp only [Bool.xor_false, Bool.xor_left_comm, Bool.xor_comm]

theorem xmm_rowParity (row : U8) (s : Registers) :
    (run (rowParity row) s).xmm 0 = s.xmm 0 ∧ (run (rowParity row) s).xmm 1 = s.xmm 1 ∧
      ∀ q < 16, ((run (rowParity row) s).xmm 2).getLsbD (8 * q) =
        parity (row &&& lane 8 (s.xmm 0) q) := by
  rw [rowParity]
  by_cases hpow : isPowerOfTwo row
  · rw [if_pos hpow]
    refine ⟨by simp -implicitDefEqProofs [Instr.exec], by simp -implicitDefEqProofs [Instr.exec],
      fun q hq => ?_⟩
    have hrun : (run [.movdqa 2 0, .psrlw 2 (trailingZeros row)] s).xmm 2 =
        Packed.psrlw (s.xmm 0) (trailingZeros row) := by
      simp -implicitDefEqProofs [Instr.exec]
    obtain ⟨t, ht, rfl⟩ := (isPowerOfTwo_iff row).mp hpow
    rw [hrun, trailingZeros_bit t ht, getLsbD_psrlw (by omega), decide_eq_true (by omega),
      Bool.true_and, parity_bit _ ht, getLsbD_lane, decide_eq_true ht, Bool.true_and]
  · rw [if_neg hpow]
    have hrun : (run (broadcast 2 (repeatByte row) ++ [.pand 2 0] ++
        [4, 2, 1].flatMap fun shift => [.movdqa 3 2, .psrlw 3 shift, .pxor 2 3]) s).xmm 2 =
        fold (fold (fold ((repeatByte row ++ repeatByte row : U128) &&& s.xmm 0) 4) 2) 1 := by
      simp -implicitDefEqProofs [Instr.exec, fold]
    refine ⟨?_, ?_, fun q hq => ?_⟩
    · simp -implicitDefEqProofs [Instr.exec]
    · simp -implicitDefEqProofs [Instr.exec]
    · rw [hrun, getLsbD_folds _ hq, lane_and]
      refine congrArg (fun c => parity (c &&& lane 8 (s.xmm 0) q)) ?_
      refine BitVec.eq_of_getLsbD_eq fun r hr => ?_
      rw [getLsbD_lane, decide_eq_true hr, Bool.true_and, getLsbD_repeat _ hq hr]

/-- The lowest bit of each byte, moved up to bit `output`. -/
theorem getLsbD_output (x : U128) {output : Nat} (hout : output < 8) (hq : q < 16) (hr : r < 8) :
    (Packed.psllw (x &&& (repeatByte 1 ++ repeatByte 1 : U128)) output).getLsbD (8 * q + r) =
      (decide (r = output) && x.getLsbD (8 * q)) := by
  have hone : ∀ b < 8, (1 : U8).getLsbD b = decide (b = 0) := by decide
  rw [getLsbD_psllw (by omega), BitVec.getLsbD_and]
  by_cases hle : output ≤ r
  · rw [(by omega : 8 * q + r - output = 8 * q + (r - output)), getLsbD_repeat _ hq (by omega),
      hone _ (by omega), decide_eq_true (by omega : output ≤ (8 * q + r) % 16), Bool.true_and]
    by_cases heq : r = output
    · rw [heq, Nat.sub_self, Nat.add_zero, decide_eq_true rfl, decide_eq_true rfl, Bool.and_true,
        Bool.true_and]
    · rw [decide_eq_false heq, decide_eq_false (by omega : ¬ r - output = 0), Bool.and_false,
        Bool.false_and]
  · rw [decide_eq_false (by omega : ¬ r = output), Bool.false_and]
    by_cases hin : output ≤ (8 * q + r) % 16
    · rw [(by omega : 8 * q + r - output = 8 * (q - 1) + (8 + r - output)),
        getLsbD_repeat _ (by omega) (by omega), hone _ (by omega),
        decide_eq_false (by omega : ¬ 8 + r - output = 0), Bool.and_false, Bool.and_false]
    · rw [decide_eq_false hin, Bool.false_and]

/-- One row leaves the operand alone and adds its output bit. -/
theorem xmm_emitRow {output : Nat} (hout : output < 8) (s : Registers) :
    (run (emitRow m output) s).xmm 0 = s.xmm 0 ∧
      ∀ q < 16, ∀ r < 8, ((run (emitRow m output) s).xmm 1).getLsbD (8 * q + r) =
        ((s.xmm 1).getLsbD (8 * q + r) ||
          (decide (r = output) && parity (rowOf m output &&& lane 8 (s.xmm 0) q))) := by
  rw [emitRow]
  by_cases hzero : rowOf m output = 0
  · rw [if_pos hzero]
    refine ⟨rfl, fun q _ r _ => ?_⟩
    rw [hzero, run_nil]
    exact (congrArg _ (congrArg _ (parity_and_zero _))).trans (by simp) |>.symm
  · rw [if_neg hzero]
    obtain ⟨h0, h1, h2⟩ := xmm_rowParity (rowOf m output) s
    have hones : (0x0101010101010101 : U64) = repeatByte 1 := by decide
    generalize hrow : run (rowParity (rowOf m output)) s = s' at h0 h1 h2
    rw [run_append, run_append, hrow, hones]
    refine ⟨by simpa -implicitDefEqProofs [Instr.exec] using h0, fun q hq r hr => ?_⟩
    have hrun : (run [.pand 2 3, .psllw 2 output, .por 1 2]
        (run (broadcast 3 (repeatByte 1)) s')).xmm 1 = s'.xmm 1 |||
          Packed.psllw (s'.xmm 2 &&& (repeatByte 1 ++ repeatByte 1 : U128)) output := by
      simp -implicitDefEqProofs [Instr.exec]
    rw [hrun, BitVec.getLsbD_or, getLsbD_output _ hout hq hr, h2 q hq, h1]

/-- After the first rows, the first bits of every byte are there. -/
theorem xmm_emitRow_range {n : Nat} (hn : n ≤ 8) (s : Registers) (hclear : s.xmm 1 = 0) :
    (run ((List.range n).flatMap (emitRow m)) s).xmm 0 = s.xmm 0 ∧
      ∀ q < 16, ∀ r < 8, ((run ((List.range n).flatMap (emitRow m)) s).xmm 1).getLsbD (8 * q + r) =
        (decide (r < n) && parity (rowOf m r &&& lane 8 (s.xmm 0) q)) := by
  induction n with
  | zero =>
    refine ⟨rfl, fun q _ r _ => ?_⟩
    rw [decide_eq_false (Nat.not_lt_zero r), Bool.false_and]
    exact (congrArg (BitVec.getLsbD · (8 * q + r)) hclear).trans BitVec.getLsbD_zero
  | succ n ih =>
    obtain ⟨h0, hbits⟩ := ih (by omega)
    obtain ⟨h0', hbits'⟩ := @xmm_emitRow m n (by omega)
      (run ((List.range n).flatMap (emitRow m)) s)
    rw [List.range_succ, List.flatMap_append, List.flatMap_singleton, run_append]
    refine ⟨h0'.trans h0, fun q hq r hr => ?_⟩
    rw [hbits' q hq r hr, hbits q hq r hr, h0]
    by_cases heq : r = n
    · subst heq
      rw [decide_eq_false (Nat.lt_irrefl r), Bool.false_and, Bool.false_or, decide_eq_true rfl,
        decide_eq_true (Nat.lt_succ_self r)]
    · have hlt : decide (r < n + 1) = decide (r < n) := decide_eq_decide.mpr (by omega)
      rw [decide_eq_false heq, Bool.false_and, Bool.or_false, hlt]

theorem applies_rows : Applies (emitRows m) m := by
  refine applies_of_bits fun s q hq r hr => ?_
  have hclear : (Instr.exec s (.pxor 1 1)).xmm 1 = 0 := by
    rw [Instr.exec, Registers.xmm_set, if_pos rfl, BitVec.xor_self]
    rfl
  have hkeep : (Instr.exec s (.pxor 1 1)).xmm 0 = s.xmm 0 := by
    rw [Instr.exec, Registers.xmm_set, if_neg (by decide)]
  obtain ⟨-, hbits⟩ := xmm_emitRow_range (m := m) le_rfl _ hclear
  have hrun : (run (emitRows m) s).xmm 0 =
      (run ((List.range 8).flatMap (emitRow m)) (Instr.exec s (.pxor 1 1))).xmm 1 := by
    rw [emitRows, List.cons_append, run_cons, run_append, run_cons, run_nil, Instr.exec,
      Registers.xmm_set, if_pos rfl]
  rw [hrun, hbits q hq r hr, decide_eq_true hr, Bool.true_and, hkeep]

/-! ## Exactness -/

theorem emitGfni_exact (m : U64) (addend : U8) (s : Registers) {k : Nat} (hk : k < 16) :
    lane 8 ((run (broadcast 1 m ++ [.gf2p8affineqb 0 1 addend]) s).xmm 0) k =
      gf2p8affineqb m addend (lane 8 (s.xmm 0) k) := by
  have hhalf : lane 64 (m ++ m : U128) (k / 8) = m := by
    refine BitVec.eq_of_getLsbD_eq fun i hi => ?_
    rw [getLsbD_lane, decide_eq_true hi, Bool.true_and, BitVec.getLsbD_append]
    by_cases hlow : k / 8 = 0
    · rw [hlow, Nat.mul_zero, Nat.zero_add, if_pos hi]
    · rw [(by omega : k / 8 = 1), if_neg (by omega), Nat.mul_one, Nat.add_sub_cancel_left]
  rw [run_append, run_cons, run_nil, Instr.exec, Registers.xmm_set, if_pos rfl,
    lane_ofLanes _ (by omega), xmm_broadcast, xmm_broadcast, if_pos rfl, if_neg (by decide), hhalf]

/-- The matrix of zeros needs no operand. -/
theorem emitZero_exact (addend : U8) (s : Registers) {k : Nat} (hk : k < 16) :
    lane 8 ((run (if addend = 0 then [.pxor 0 0] else broadcast 0 (repeatByte addend)) s).xmm 0) k =
      gf2p8affineqb 0 addend (lane 8 (s.xmm 0) k) := by
  have hlinear : ∀ x, linear 0 x = 0 := by
    intro x
    rw [(by decide : (0 : U64) = diagonal 0), linear_diagonal]
    exact BitVec.zero_and
  rw [gf2p8affineqb_eq, hlinear]
  by_cases hzero : addend = 0
  · rw [if_pos hzero, hzero, run_cons, run_nil, Instr.exec, Registers.xmm_set, if_pos rfl,
      BitVec.xor_self, BitVec.xor_self]
    refine BitVec.eq_of_getLsbD_eq fun i hi => ?_
    rw [getLsbD_lane, BitVec.getLsbD_zero, Bool.and_false]
    exact BitVec.getLsbD_zero.symm
  · rw [if_neg hzero, xmm_broadcast, if_pos rfl]
    refine BitVec.eq_of_getLsbD_eq fun i hi => ?_
    rw [getLsbD_lane, decide_eq_true hi, Bool.true_and, getLsbD_repeat _ hk hi]
    exact congrArg (BitVec.getLsbD · i) BitVec.zero_xor.symm

/-- The sequence without GFNI, byte by byte. -/
theorem lane_emit (m : U64) (addend : U8) (s : Registers) {k : Nat} (hk : k < 16) :
    lane 8 ((run (emit false m addend) s).xmm 0) k =
      gf2p8affineqb m addend (lane 8 (s.xmm 0) k) := by
  rw [emit, if_neg Bool.false_ne_true]
  by_cases hid : m = identityMatrix
  · rw [if_pos hid, hid]
    exact applies_identity.emitAddend addend s hk
  rw [if_neg hid]
  by_cases hzero : m = 0
  · rw [if_pos hzero, hzero]
    exact emitZero_exact addend s hk
  rw [if_neg hzero]
  by_cases hrev : m = reverseMatrix
  · rw [if_pos hrev, hrev]
    exact applies_reverse.emitAddend addend s hk
  rw [if_neg hrev]
  split
  next shift hshift => exact (applies_signedShift hshift).emitAddend addend s hk
  next =>
    split
    next delta mask hdiag => exact (applies_shiftedDiagonal hdiag).emitAddend addend s hk
    next => exact applies_rows.emitAddend addend s hk

/-- **The code for a matrix and an addend computes what the GFNI instruction does**, on all sixteen
bytes and whichever shape of the matrix it is chosen for. -/
theorem emit_exact (hasGfni : Bool) (m : U64) (addend : U8) (s : Registers) :
    (run (emit hasGfni m addend) s).xmm 0 =
      ofLanes 128 8 fun k => gf2p8affineqb m addend (lane 8 (s.xmm 0) k) := by
  refine ext_lane (by decide : 0 < 8) fun k hk => ?_
  rw [lane_ofLanes _ (by omega)]
  cases hasGfni
  · exact lane_emit m addend s (by omega)
  · exact emitGfni_exact m addend s (by omega)

end Gfni

end Rustarmic
