import Rustarmic.Backend.VectorCompare

/-!
# Shifts of vectors by a constant

Lanes of 16, 32 and 64 bits are shifted by one instruction each, except that there is no signed
shift of 64-bit lanes: it is an unsigned shift, with copies of the sign from a comparison with zero
put in.  Bytes are shifted as 16-bit lanes and masked, or by way of sign-extended 16-bit lanes; with
GFNI they are multiplied by a matrix.

* `exists_emitOpVecShlImm`, `exists_emitOpVecUshrImm`, `exists_emitOpVecSshrImm` — what the code for
  each leaves in its result: every active lane shifted.

The three lowerings have one frame, `emitShiftWith`: bring the operand into a working register,
shift its lanes, clear the upper half of a 64-bit result, and put it where it belongs.  What varies
is the list of instructions in the middle, and a lemma for each says what it leaves in the working
register.

A mask takes away the bits that have crossed from one byte of a lane to the other (`psllw_and_mask`,
`psrlw_and_mask`).  The comparison that gives the sign of a 64-bit lane is the one of
`Backend.VectorCompare` and has temporaries of its own, which is why the working register must not
be one of those.
-/

set_option autoImplicit false

namespace Rustarmic

namespace VectorCode

open Lanes Packed Optimizer

/-! ## The code -/

/-- The distance of a shift. -/
def shiftOf (a : Armlet) : Nat := ((a.imm >>> 1).setWidth 32 : U32).toNat

/-- `from_le_bytes` of eight equal bytes, in both halves of `xmm1`. -/
def broadcastByteMask (byte : U8) : List Instr := [.broadcast 1 (repeatByte byte)]

/-- The code for bytes with GFNI. -/
def emitByteShiftAffine (locs : Nat → Loc) (a : Armlet) (d : Nat) (m : U64) :
    Option (List Instr) := do
  let load ← intoXmmQ (locs (a.args.get 0)) 0
  let store ← storeXmmQ (locs d) 0
  pure (load ++ [.affine (Gfni.emit true m 0)] ++ narrowForm a 0 ++ store)

/-- Every shift: the operand in the register in which the result is made, and there the `lanes`. -/
def emitShiftWith (locs : Nat → Loc) (a : Armlet) (d : Nat) (lanes : Nat → List Instr) :
    Option (List Instr) := do
  let working := workingXmmFor (locs d) 0
  let load ← intoXmmQ (locs (a.args.get 0)) working
  let store ← storeXmmQ (locs d) working
  pure (load ++ lanes working ++ narrowForm a working ++ store)

def shlLanes (lane shift working : Nat) : List Instr :=
  match lane with
  | 0 => [.psll 16 working shift] ++ broadcastByteMask (0xFF#8 <<< shift) ++ [.pand working 1]
  | 1 => [.psll 16 working shift]
  | 2 => [.psll 32 working shift]
  | _ => [.psll 64 working shift]

def emitOpVecShlImm (hasGfni : Bool) (locs : Nat → Loc) (a : Armlet) (d : Nat) :
    Option (List Instr) :=
  if a.op = .vecShlImm8 ∧ hasGfni then
    emitByteShiftAffine locs a d (matrix (leftRow (shiftOf a)))
  else emitShiftWith locs a d (shlLanes a.op.sizeLog2 (shiftOf a))

def ushrLanes (lane shift working : Nat) : List Instr :=
  match lane with
  | 0 => [.psrl 16 working shift] ++ broadcastByteMask (0xFF#8 >>> shift) ++ [.pand working 1]
  | 1 => [.psrl 16 working shift]
  | 2 => [.psrl 32 working shift]
  | _ => [.psrl 64 working shift]

def emitOpVecUshrImm (hasGfni : Bool) (locs : Nat → Loc) (a : Armlet) (d : Nat) :
    Option (List Instr) :=
  if a.op = .vecUshrImm8 ∧ hasGfni then
    emitByteShiftAffine locs a d (rightShiftMatrix (shiftOf a) false)
  else emitShiftWith locs a d (ushrLanes a.op.sizeLog2 (shiftOf a))

def sshrLanes (q : Bool) (lane shift working : Nat) : List Instr :=
  match lane with
  | 0 => [.pmovsxbw 1 working, .psra 16 1 shift] ++
      (if q then [.psrldq working 8, .pmovsxbw 2 working, .psra 16 2 shift, .packsswb 1 2]
        else [.packsswb 1 1]) ++
      if working ≠ 1 then [.mov (.xmm working) (.xmm 1)] else []
  | 1 => [.psra 16 working shift]
  | 2 => [.psra 32 working shift]
  | _ => [.pxor 1 1] ++ emitPcmpgtqSse41 1 working ++
      [.psll 64 1 (64 - shift), .psrl 64 working shift, .por working 1]

def emitOpVecSshrImm (hasGfni : Bool) (locs : Nat → Loc) (a : Armlet) (d : Nat) :
    Option (List Instr) :=
  if a.op = .vecSshrImm8 ∧ hasGfni then
    emitByteShiftAffine locs a d (rightShiftMatrix (shiftOf a) true)
  else emitShiftWith locs a d (sshrLanes (qForm a) a.op.sizeLog2 (shiftOf a))

/-- The entries of the dispatch table for the shifts. -/
def emitShift (hasGfni : Bool) (locs : Nat → Loc) (a : Armlet) (d : Nat) : Option (List Instr) :=
  match a.op with
  | .vecShlImm8 | .vecShlImm16 | .vecShlImm32 | .vecShlImm64 => emitOpVecShlImm hasGfni locs a d
  | .vecUshrImm8 | .vecUshrImm16 | .vecUshrImm32 | .vecUshrImm64 =>
    emitOpVecUshrImm hasGfni locs a d
  | .vecSshrImm8 | .vecSshrImm16 | .vecSshrImm32 | .vecSshrImm64 =>
    emitOpVecSshrImm hasGfni locs a d
  | _ => none

/-! ## What it does -/

section lanes

variable {shift working : Nat}

/-- Lanes of `8 << lane` bits. -/
def shiftLanes (f : ∀ w, BitVec w → BitVec w) (lane : Nat) (x : U128) : U128 :=
  match lane with
  | 0 => mapLanes 8 (f 8) x
  | 1 => mapLanes 16 (f 16) x
  | 2 => mapLanes 32 (f 32) x
  | _ => mapLanes 64 (f 64) x

theorem getLsbD_repeatHalves (byte : U8) {i : Nat} (hi : i < 128) :
    (repeatByte byte ++ repeatByte byte : U128).getLsbD i = byte.getLsbD (i % 8) := by
  have h := Gfni.getLsbD_repeat byte (by omega : i / 8 < 16) (Nat.mod_lt i (by decide : 0 < 8))
  rwa [Nat.div_add_mod] at h

theorem getLsbD_mapLanes {w : Nat} (f : BitVec w → BitVec w) (x : U128) {i : Nat} (hi : i < 128) :
    (mapLanes w f x).getLsbD i = (f (lane w x (i / w))).getLsbD (i % w) := by
  rw [mapLanes, getLsbD_ofLanes, decide_eq_true hi, Bool.true_and]

theorem psllw_and_mask (x : U128) (shift : Nat) :
    psll 16 x shift &&& (repeatByte (0xFF#8 <<< shift) ++ repeatByte (0xFF#8 <<< shift) : U128) =
      mapLanes 8 (· <<< shift) x := by
  refine BitVec.eq_of_getLsbD_eq fun i hi => ?_
  have hone : (0xFF#8).getLsbD (i % 8 - shift) = true := by
    rw [show (0xFF#8 : U8) = BitVec.allOnes 8 from rfl, BitVec.getLsbD_allOnes]
    exact decide_eq_true (by omega)
  rw [BitVec.getLsbD_and, getLsbD_repeatHalves _ hi, getLsbD_mapLanes _ _ hi,
    show psll 16 x shift = psllw x shift from rfl, getLsbD_psllw hi, BitVec.getLsbD_shiftLeft,
    BitVec.getLsbD_shiftLeft, hone, getLsbD_lane, decide_eq_true (by omega : i % 8 < 8)]
  by_cases hle : shift ≤ i % 8
  · rw [decide_eq_true (by omega : shift ≤ i % 16), decide_eq_false (by omega : ¬ i % 8 < shift),
      decide_eq_true (by omega : i % 8 - shift < 8),
      (by omega : 8 * (i / 8) + (i % 8 - shift) = i - shift)]
    simp
  · rw [decide_eq_true (by omega : i % 8 < shift)]
    simp

theorem psrlw_and_mask (x : U128) (shift : Nat) :
    psrl 16 x shift &&& (repeatByte (0xFF#8 >>> shift) ++ repeatByte (0xFF#8 >>> shift) : U128) =
      mapLanes 8 (· >>> shift) x := by
  refine BitVec.eq_of_getLsbD_eq fun i hi => ?_
  have hone : (0xFF#8).getLsbD (shift + i % 8) = decide (shift + i % 8 < 8) := by
    rw [show (0xFF#8 : U8) = BitVec.allOnes 8 from rfl, BitVec.getLsbD_allOnes]
  rw [BitVec.getLsbD_and, getLsbD_repeatHalves _ hi, getLsbD_mapLanes _ _ hi,
    show psrl 16 x shift = psrlw x shift from rfl, getLsbD_psrlw hi, BitVec.getLsbD_ushiftRight,
    BitVec.getLsbD_ushiftRight, hone, getLsbD_lane]
  by_cases hlt : shift + i % 8 < 8
  · rw [decide_eq_true hlt, decide_eq_true (by omega : i % 16 + shift < 16),
      (by omega : 8 * (i / 8) + (shift + i % 8) = i + shift)]
    simp
  · rw [decide_eq_false hlt, Bool.and_false, Bool.false_and]

/-- The signed shift of 64-bit lanes: copies of the sign are put in above the unsigned shift. -/
theorem psrl_or_sign (x : U128) (hs : shift ≤ 64) :
    psrl 64 x shift ||| psll 64 (pcmpgt 64 0 x) (64 - shift) =
      mapLanes 64 (·.sshiftRight shift) x := by
  refine ext_lane (by decide : 0 < 64) fun k hk => ?_
  rw [lane_or, psrl, psll, lane_mapLanes _ (by omega), lane_mapLanes _ (by omega),
    lane_mapLanes _ (by omega), lane_pcmpgt (by omega)]
  have hsign : (lane 64 x k).slt (lane 64 (0 : U128) k) = (lane 64 x k).msb := by
    have hzero : lane 64 (0 : U128) k = 0 := BitVec.eq_of_getLsbD_eq fun i _ => by simp
    rw [hzero, BitVec.ofNat_eq_ofNat, BitVec.slt_zero_eq_msb]
  rw [hsign]
  generalize lane 64 x k = y
  refine BitVec.eq_of_getLsbD_eq fun i hi => ?_
  rw [BitVec.getLsbD_or, BitVec.getLsbD_ushiftRight, BitVec.getLsbD_shiftLeft,
    BitVec.getLsbD_sshiftRight, decide_eq_true hi, decide_eq_false (by omega : ¬ 64 ≤ i), fill]
  by_cases hlt : shift + i < 64
  · rw [if_pos hlt, decide_eq_true (by omega : i < 64 - shift)]
    simp
  · rw [if_neg hlt, decide_eq_false (by omega : ¬ i < 64 - shift), BitVec.getLsbD_of_ge y _ (by omega)]
    cases y.msb
    · simp
    · rw [if_pos rfl, BitVec.getLsbD_allOnes, decide_eq_true (by omega)]
      rfl

/-- The low half of a form of 64 bits is all that counts. -/
theorem form_congr {a : Armlet} {x y : U128}
    (h : ∀ i < if qForm a then 128 else 64, x.getLsbD i = y.getLsbD i) : form a x = form a y := by
  rw [form, form]
  split at h
  · rename_i hq
    rw [if_pos hq, if_pos hq]
    exact BitVec.eq_of_getLsbD_eq h
  · rename_i hq
    rw [if_neg hq, if_neg hq, Packed.movq, Packed.movq]
    refine congrArg (BitVec.setWidth 128) (BitVec.eq_of_getLsbD_eq fun i hi => ?_)
    rw [BitVec.getLsbD_setWidth, BitVec.getLsbD_setWidth, h i hi]

theorem run_shlLanes (lane : Nat) (hw : working ≠ 1) (m : Contents) :
    run (shlLanes lane shift working) m (.xmm working) =
      shiftLanes (fun _ => (· <<< shift)) lane (m (.xmm working)) := by
  unfold shlLanes shiftLanes
  split
  · rw [← psllw_and_mask]
    simp [broadcastByteMask, hw]
  · simp [psll]
  · simp [psll]
  · simp [psll]

theorem run_ushrLanes (lane : Nat) (hw : working ≠ 1) (m : Contents) :
    run (ushrLanes lane shift working) m (.xmm working) =
      shiftLanes (fun _ => (· >>> shift)) lane (m (.xmm working)) := by
  unfold ushrLanes shiftLanes
  split
  · rw [← psrlw_and_mask]
    simp [broadcastByteMask, hw]
  · simp [psrl]
  · simp [psrl]
  · simp [psrl]

/-- Bytes by way of sign-extended 16-bit lanes. -/
theorem run_sshrBytes {a : Armlet} (hw1 : working ≠ 1) (m : Contents) :
    form a (run (sshrLanes (qForm a) 0 shift working) m (.xmm working)) =
      form a (mapLanes 8 (·.sshiftRight shift) (m (.xmm working))) := by
  have hwide : packsswb (psraw (pmovsxbw (m (.xmm working))) shift)
      (psraw (pmovsxbw (m (.xmm working) >>> 64)) shift) =
      mapLanes 8 (·.sshiftRight shift) (m (.xmm working)) := by
    refine ext_lane (by decide : 0 < 8) fun k hk => ?_
    rw [lane_packsswb_psraw (by omega), lane_mapLanes _ (by omega)]
  rw [← hwide]
  cases hq : qForm a with
  | true =>
    refine congrArg (form a) ?_
    simp [sshrLanes, hw1, Ne.symm hw1, psra, psraw]
  | false =>
    refine form_congr fun i hi => ?_
    rw [hq, if_neg Bool.false_ne_true] at hi
    have hrun : run (sshrLanes false 0 shift working) m (.xmm working) =
        packsswb (psraw (pmovsxbw (m (.xmm working))) shift)
          (psraw (pmovsxbw (m (.xmm working))) shift) := by
      simp [sshrLanes, hw1, psra, psraw]
    rw [hrun, packsswb, packsswb, getLsbD_ofLanes, getLsbD_ofLanes, if_pos (by omega),
      if_pos (by omega)]

theorem sshrLanes_long (q : Bool) (lane : Nat) : sshrLanes q (lane + 3) shift working =
    [.pxor 1 1] ++ emitPcmpgtqSse41 1 working ++
      [.psll 64 1 (64 - shift), .psrl 64 working shift, .por working 1] := rfl

theorem shiftLanes_bytes (f : ∀ w, BitVec w → BitVec w) (x : U128) :
    shiftLanes f 0 x = mapLanes 8 (f 8) x := rfl

theorem shiftLanes_long (f : ∀ w, BitVec w → BitVec w) (lane : Nat) (x : U128) :
    shiftLanes f (lane + 3) x = mapLanes 64 (f 64) x := rfl

theorem run_sshrLanes {a : Armlet} (lane : Nat) (hw : ∀ r, 0 < r → r < 6 → working ≠ r)
    (hs : shift ≤ 64) (m : Contents) :
    form a (run (sshrLanes (qForm a) lane shift working) m (.xmm working)) =
      form a (shiftLanes (fun _ => (·.sshiftRight shift)) lane (m (.xmm working))) := by
  have hw1 := hw 1 (by decide) (by decide)
  match lane with
  | 0 => exact run_sshrBytes hw1 m
  | 1 => exact congrArg (form a) (if_pos rfl)
  | 2 => exact congrArg (form a) (if_pos rfl)
  | lane + 3 =>
    have hzero : run [.pxor 1 1] m (.xmm 1) = 0 := by simp
    have hkeep : run [.pxor 1 1] m (.xmm working) = m (.xmm working) := by simp [hw1]
    obtain ⟨hgt, hother⟩ := @run_emitPcmpgtqSse41 1 working (hw 4 (by decide) (by decide))
      (run [.pxor 1 1] m)
    have hsame := hother (.xmm working) (fun h => hw1 (Place.xmm.inj h)) fun _ => nofun
    rw [hzero, hkeep, gtq, if_neg (by decide)] at hgt
    rw [hkeep] at hsame
    refine congrArg (form a) ?_
    rw [sshrLanes_long, shiftLanes_long, ← psrl_or_sign _ hs, run_append, run_append]
    generalize run (emitPcmpgtqSse41 1 working) (run [.pxor 1 1] m) = m' at hgt hsame ⊢
    simp [hgt, hsame, hw1, Ne.symm hw1]

end lanes

/-! ## The lowerings -/

section lowerings

variable {locs : Nat → Loc} {a : Armlet} {d : Nat} {pa pd : Place}

theorem exists_emitShiftWith (ha : VectorAt (locs (a.args.get 0)) pa) (hd : VectorAt (locs d) pd)
    {lanes : Nat → List Instr} {f : U128 → U128}
    (h : ∀ working, (∀ r, 0 < r → r < 6 → working ≠ r) → ∀ m,
      form a (run (lanes working) m (.xmm working)) = form a (f (m (.xmm working)))) :
    ∃ code, emitShiftWith locs a d lanes = some code ∧ ∀ m, run code m pd = form a (f (m pa)) := by
  obtain ⟨load, hload, hrun⟩ := exists_intoXmmQ ha.place (workingXmmFor (locs d) 0)
  obtain ⟨store, hstore, hfinish⟩ := exists_finish (a := a) hd (workingXmmFor (locs d) 0)
  refine ⟨_, by rw [emitShiftWith, hload, hstore]; rfl, fun m => ?_⟩
  rw [List.append_assoc, run_append, hfinish, run_append, h _ hd.working.2, hrun, if_pos rfl]

theorem exists_emitByteShiftAffine (ha : VectorAt (locs (a.args.get 0)) pa)
    (hd : VectorAt (locs d) pd) {m : U64} {f : U8 → U8} (hf : ∀ x, linear m x = f x) :
    ∃ code, emitByteShiftAffine locs a d m = some code ∧
      ∀ c, run code c pd = form a (mapLanes 8 f (c pa)) := by
  obtain ⟨load, hload, hrun⟩ := exists_intoXmmQ ha.place 0
  obtain ⟨store, hstore, hfinish⟩ := exists_finish (a := a) hd 0
  refine ⟨_, by rw [emitByteShiftAffine, hload, hstore]; rfl, fun c => ?_⟩
  rw [List.append_assoc, run_append, hfinish, run_append, run_cons, run_nil]
  refine congrArg (form a) (ext_lane (by decide : 0 < 8) fun k hk => ?_)
  have hlane := Gfni.emitGfni_exact m 0 ⟨0, fun r => run load c (.xmm r)⟩ (by omega : k < 16)
  dsimp only at hlane
  rw [hrun c (.xmm 0), if_pos rfl, gf2p8affineqb_eq, hf, BitVec.ofNat_eq_ofNat, BitVec.xor_zero] at hlane
  rw [lane_mapLanes _ (by omega), ← hlane]
  rfl

theorem sizeLog2_bytes : Op.vecShlImm8.sizeLog2 = 0 ∧ Op.vecUshrImm8.sizeLog2 = 0 ∧
    Op.vecSshrImm8.sizeLog2 = 0 := by decide

/-- **Shifts to the left.** -/
theorem exists_emitOpVecShlImm (hasGfni : Bool) (ha : VectorAt (locs (a.args.get 0)) pa)
    (hd : VectorAt (locs d) pd) : ∃ code, emitOpVecShlImm hasGfni locs a d = some code ∧
      ∀ m, run code m pd =
        form a (shiftLanes (fun _ => (· <<< shiftOf a)) a.op.sizeLog2 (m pa)) := by
  rw [emitOpVecShlImm]
  split
  · rename_i hop
    rw [hop.1, sizeLog2_bytes.1]
    simp only [shiftLanes_bytes]
    exact exists_emitByteShiftAffine (f := (· <<< shiftOf a)) ha hd (linear_leftRow _)
  · exact exists_emitShiftWith ha hd fun working hw m =>
      congrArg (form a) (run_shlLanes _ (hw 1 (by decide) (by decide)) m)

/-- **Unsigned shifts to the right.** -/
theorem exists_emitOpVecUshrImm (hasGfni : Bool) (ha : VectorAt (locs (a.args.get 0)) pa)
    (hd : VectorAt (locs d) pd) : ∃ code, emitOpVecUshrImm hasGfni locs a d = some code ∧
      ∀ m, run code m pd =
        form a (shiftLanes (fun _ => (· >>> shiftOf a)) a.op.sizeLog2 (m pa)) := by
  rw [emitOpVecUshrImm]
  split
  · rename_i hop
    rw [hop.1, sizeLog2_bytes.2.1]
    simp only [shiftLanes_bytes]
    exact exists_emitByteShiftAffine (f := (· >>> shiftOf a)) ha hd (linear_rightRow _)
  · exact exists_emitShiftWith ha hd fun working hw m =>
      congrArg (form a) (run_ushrLanes _ (hw 1 (by decide) (by decide)) m)

/-- **Signed shifts to the right**, by up to 64. -/
theorem exists_emitOpVecSshrImm (hasGfni : Bool) (ha : VectorAt (locs (a.args.get 0)) pa)
    (hd : VectorAt (locs d) pd) (hs : shiftOf a ≤ 64) :
    ∃ code, emitOpVecSshrImm hasGfni locs a d = some code ∧
      ∀ m, run code m pd =
        form a (shiftLanes (fun _ => (·.sshiftRight (shiftOf a))) a.op.sizeLog2 (m pa)) := by
  rw [emitOpVecSshrImm]
  split
  · rename_i hop
    rw [hop.1, sizeLog2_bytes.2.2]
    simp only [shiftLanes_bytes]
    exact exists_emitByteShiftAffine (f := (·.sshiftRight (shiftOf a))) ha hd (linear_signedRow _)
  · exact exists_emitShiftWith ha hd fun working hw m => run_sshrLanes _ hw hs m

end lowerings

end VectorCode

end Rustarmic
