import Rustarmic.Backend.FloatCode
import Rustarmic.Backend.AbsoluteOps
import Rustarmic.Backend.VectorNodes

/-!
# Inline maximum and minimum

FMAX and FMIN from instructions that return their second operand for zeros and for NaNs: both orders
are computed, and combined bit by bit, and where there is a NaN the sum is taken instead.

* `emitVecFmaxmin`, `emitScalarFmaxmin` — the sequences.
* `blended_eq` — what they compute on a lane is what the instruction helper computes.
* `fmaxmin_exact` — in every block, wherever the operands are.

Each part of the sequence repairs one thing.

* **Zeros of different signs** are equal for the host, and it returns the second operand.  Taken in
  both orders the two results are the two zeros, and the bitwise *and* of them is the positive one,
  as a maximum should be; for a minimum it is the *or*.  Operands that differ as numbers give the
  same result in both orders, which either operation leaves alone.
* **A NaN** should give itself, quieted, from whichever operand it comes.  The host's sum does just
  that, with the first operand first, and the lanes in which the comparison is unordered take it.

A signalling NaN is not covered.  The helper would quiet the first *signalling* one and report it,
and the sequence takes the first NaN; `Quiet` excludes it.
-/

set_option autoImplicit false

namespace Rustarmic

namespace VectorCode

open Interp Lanes AbsoluteCompare

/-! ## The code -/

def maxmin (max : Bool) : FloatOp := if max then .max else .min

/-- Bitwise AND of the two maxima, OR of the two minima. -/
def both (max : Bool) (dst src : Nat) : FloatInstr := .base (if max then .pand dst src else .por dst src)

/-- What is done with the operands in `working` and `other`; `instr` says whether to all lanes. -/
def fmaxminCode (instr : FloatOp → Nat → Nat → FloatInstr) (max : Bool) (working other : Nat) :
    List FloatInstr :=
  [.base (.mov (.xmm 2) (.xmm working)), .base (.mov (.xmm 3) (.xmm other)), instr (maxmin max) 2 other,
    instr (maxmin max) 3 working, both max 2 3, .base (.mov (.xmm 3) (.xmm working)),
    instr .cmpunord 3 other, instr .add working other, .base (.pand working 3), .pandn 3 2,
    .base (.por working 3)]

def emitVecFmaxmin (locs : Nat → Loc) (a : Armlet) (d : Nat) (max : Bool) :
    Option (List FloatInstr) := do
  let f := fmt (vecFpIsDouble a.op)
  let working := workingXmmFor (locs d) 0
  let load ← intoXmmQ (locs (a.args.get 0)) working
  let (loadOther, other) ← getXmmQ (locs (a.args.get 1)) 1
  let store ← storeXmmQ (locs d) working
  pure ((load ++ loadOther).map .base ++ fmaxminCode (fun op => .packed op f) max working other ++
    (narrowForm a working ++ store).map .base)

/-- The entries of the dispatch table. -/
def emitFmaxmin (locs : Nat → Loc) (a : Armlet) (d : Nat) : Option (List FloatInstr) :=
  match a.op with
  | .vecFMax_S | .vecFMax_D => emitVecFmaxmin locs a d true
  | .vecFMin_S | .vecFMin_D => emitVecFmaxmin locs a d false
  | _ => none

/-- On `xmm0` and `xmm1`, the result in `xmm0`. -/
def emitScalarFmaxmin (double max : Bool) : List FloatInstr :=
  fmaxminCode (fun op => .scalar op (fmt double)) max 0 1

/-! ## One lane -/

section lane

variable {host : HostFloat} {f : Fmt} {a b : U64} {max : Bool} {fpsr : U32}

/-- Both orders, combined. -/
def combined (host : HostFloat) (f : Fmt) (max : Bool) (a b : U64) : U64 :=
  let x := (maxmin max).apply host f a b
  let y := (maxmin max).apply host f b a
  if max then x &&& y else x ||| y

/-- What the sequences compute on a lane. -/
def blended (host : HostFloat) (f : Fmt) (max : Bool) (a b : U64) : U64 :=
  if f.isNan a || f.isNan b then FloatOp.add.apply host f a b else combined host f max a b

theorem eq_zero_of_low (ha : f.Encodes a) (h : f.low a = 0) : a = f.zero (f.sign a) :=
  Fmt.encoding_ext ha (Fmt.encodes_zero _) (Fmt.sign_zero _).symm (h.trans (Fmt.low_zero _).symm)

/-- Equal operands are the same one, or zeros. -/
theorem zeros_combined (f : Fmt) (max s t : Bool) :
    (if max then f.zero t &&& f.zero s else f.zero t ||| f.zero s) =
      f.zero (if max then s && t else s || t) := by
  cases f <;> cases max <;> cases s <;> cases t <;> rfl

theorem combined_eq (ha : f.Encodes a) (hb : f.Encodes b) (hna : f.isNan a = false)
    (hnb : f.isNan b = false) : combined host f max a b = pick f a b max := by
  have hgt : hostGt f a b = decide (f.units b < f.units a) := by simp [hostGt, hna, hnb]
  have hlt : hostGt f b a = decide (f.units a < f.units b) := by simp [hostGt, hna, hnb]
  have happly : combined host f max a b =
      if max then (if hostGt f a b then a else b) &&& (if hostGt f b a then b else a)
      else (if hostGt f b a then a else b) ||| (if hostGt f a b then b else a) := by
    cases max <;> rfl
  rw [happly, hgt, hlt, pick]
  rcases lt_trichotomy (f.units a) (f.units b) with h | h | h
  · have hz : ¬(f.low a = 0 ∧ f.low b = 0) := by
      rintro ⟨h1, h2⟩
      simp [Fmt.units, h1, h2, BinaryFormat.mag_zero] at h
    rw [if_neg hz, decide_eq_true h, decide_eq_false h.not_gt]
    cases max <;> simp
  · rw [h, decide_eq_false (lt_irrefl _)]
    by_cases hz : f.low a = 0 ∧ f.low b = 0
    · have hzeros := zeros_combined f max (f.sign a) (f.sign b)
      rw [← eq_zero_of_low ha hz.1, ← eq_zero_of_low hb hz.2] at hzeros
      rw [if_pos hz, ← hzeros]
      simp [BitVec.or_comm]
    · rw [if_neg hz, Fmt.eq_of_units_eq ha hb h hz]
      cases max <;> simp
  · have hz : ¬(f.low a = 0 ∧ f.low b = 0) := by
      rintro ⟨h1, h2⟩
      simp [Fmt.units, h1, h2, BinaryFormat.mag_zero] at h
    rw [if_neg hz, decide_eq_true h, decide_eq_false h.not_gt]
    cases max <;> simp

/-- **On a lane the sequences compute what the instruction helper computes.** -/
theorem blended_eq (hf : f ≠ .h) (ha : f.Encodes a) (hb : f.Encodes b) (hsa : f.isSnan a = false)
    (hsb : f.isSnan b = false) :
    blended host f max a b = (fmaxmin f a b max false ⟨0, fpsr⟩).1 := by
  obtain ⟨hz, hd⟩ := clear_fz fpsr
  generalize (⟨0, fpsr⟩ : St) = st at *
  have hquiet : ∀ x, (processNan f x st).1 = f.quiet x := fun _ => processNan_of_dn hd
  rw [fmaxmin_eq]
  simp only [Bool.false_and, Bool.false_eq_true, if_false]
  rw [processNans_pair, hsa, hsb, blended]
  cases hna : f.isNan a
  case true => simp [FloatOp.apply, quietFirst, hna, hquiet]
  cases hnb : f.isNan b
  case true => simp [FloatOp.apply, quietFirst, hna, hnb, hquiet]
  simp [fmaxminNumbers_eq hf ha hb hna hnb, flushIn_of_fz hz, combined_eq ha hb hna hnb]

end lane

/-! ## The registers -/

section registers

variable {host : HostFloat} {instr : FloatOp → Nat → Nat → FloatInstr}
  {apply : FloatOp → U128 → U128 → U128} {max : Bool} {working other : Nat}

/-- The sum where there is a NaN, both orders elsewhere. -/
def blendedBits (apply : FloatOp → U128 → U128 → U128) (max : Bool) (x y : U128) : U128 :=
  let unord := apply .cmpunord x y
  apply .add x y &&& unord ||| (~~~unord &&&
    if max then apply .max x y &&& apply .max y x else apply .min x y ||| apply .min y x)

theorem run_fmaxminCode (hinstr : ∀ op dst src m q, (instr op dst src).exec host m q =
      if q = .xmm dst then apply op (m (.xmm dst)) (m (.xmm src)) else m q)
    (hw2 : working ≠ 2) (hw3 : working ≠ 3) (ho2 : other ≠ 2) (ho3 : other ≠ 3) (m : Contents) :
    runFloat host (fmaxminCode instr max working other) m (.xmm working) =
      blendedBits apply max (m (.xmm working)) (m (.xmm other)) := by
  cases max <;> simp [fmaxminCode, both, maxmin, blendedBits, hinstr, hw2, hw3, ho2, ho3, hw2.symm, hw3.symm]

/-- On a lane that every operation computes. -/
theorem lane_blendedBits {f : Fmt} {k : Nat} {x y : U128}
    (happly : ∀ op x y, lane f.bits (apply op x y) k =
      lanewise f.bits (fun a b => op.apply host f a b) (lane f.bits x k) (lane f.bits y k))
    (hk : f.bits * k + f.bits ≤ 128) : lane f.bits (blendedBits apply max x y) k =
      lanewise f.bits (blended host f max) (lane f.bits x k) (lane f.bits y k) := by
  have hunord (a b : BitVec f.bits) : lanewise f.bits (fun a b => FloatOp.cmpunord.apply host f a b) a b =
      Packed.fill f.bits (f.isNan (a.setWidth 64) || f.isNan (b.setWidth 64)) := maskOf_lane f _
  have hboth : lane f.bits (if max then apply .max x y &&& apply .max y x
      else apply .min x y ||| apply .min y x) k =
      lanewise f.bits (combined host f max) (lane f.bits x k) (lane f.bits y k) := by
    cases max with
    | true =>
      rw [if_pos rfl, lane_and, happly, happly]
      exact BitVec.setWidth_and.symm
    | false =>
      rw [if_neg Bool.false_ne_true, lane_or, happly, happly]
      exact BitVec.setWidth_or.symm
  rw [blendedBits, lane_or, lane_and, lane_and, lane_not _ _ hk, happly, happly, hunord, blend_fill, hboth]
  exact (apply_ite (BitVec.setWidth f.bits) _ _ _).symm

end registers

/-! ## The sequences -/

/-- The lane of the instruction helper, without a preference for numbers and with FPCR zero. -/
def fmaxminLane (f : Fmt) (max : Bool) (fpsr : U32) : BitVec f.bits → BitVec f.bits → BitVec f.bits :=
  lanewise f.bits fun a b => (fmaxmin f a b max false ⟨0, fpsr⟩).1

/-- A lane with no signalling NaN. -/
def Quiet (f : Fmt) (x : BitVec f.bits) : Prop := f.isSnan (x.setWidth 64) = false

instance (f : Fmt) (x : BitVec f.bits) : Decidable (Quiet f x) := inferInstanceAs (Decidable (_ = false))

theorem lanewise_blended (host : HostFloat) {f : Fmt} (hf : f ≠ .h) (max : Bool) (fpsr : U32)
    {x y : BitVec f.bits} (hx : Quiet f x) (hy : Quiet f y) :
    lanewise f.bits (blended host f max) x y = fmaxminLane f max fpsr x y := by
  rw [lanewise, blended_eq hf (encodes_lane x) (encodes_lane y) hx hy]
  rfl

variable {host : HostFloat}

theorem scalar_exact (double max : Bool) (fpsr : U32) (m : Contents)
    (h0 : Quiet (fmt double) (lane (fmt double).bits (m (.xmm 0)) 0))
    (h1 : Quiet (fmt double) (lane (fmt double).bits (m (.xmm 1)) 0)) :
    lane (fmt double).bits (runFloat host (emitScalarFmaxmin double max) m (.xmm 0)) 0 =
      fmaxminLane (fmt double) max fpsr (lane (fmt double).bits (m (.xmm 0)) 0)
        (lane (fmt double).bits (m (.xmm 1)) 0) := by
  have hle : (fmt double).bits ≤ 128 := ((bits_dvd _).2.2).trans (by decide)
  rw [← lanewise_blended host (fmt_ne_h double) max fpsr h0 h1, emitScalarFmaxmin,
    run_fmaxminCode (fun op dst src m q => exec_scalar m q dst src op (fmt double)) (by decide)
      (by decide) (by decide) (by decide)]
  exact lane_blendedBits (fun op x y => lane_lowest _ hle) (by omega)

section nodes

variable {locs : Nat → Loc} {a : Armlet} {d : Nat} {pa pb pd : Place}

theorem exists_emitVecFmaxmin (max : Bool) (ha : VectorAt (locs (a.args.get 0)) pa)
    (hb : VectorAt (locs (a.args.get 1)) pb) (hd : VectorAt (locs d) pd) (hpb : pb ≠ pd) :
    ∃ code, emitVecFmaxmin locs a d max = some code ∧ ∀ m, runFloat host code m pd =
      form a (blendedBits (fun op => Packed.zipLanes (fmt (vecFpIsDouble a.op)).bits
        (lanewise _ fun a' b' => op.apply host (fmt (vecFpIsDouble a.op)) a' b')) max (m pa) (m pb)) := by
  obtain ⟨load, loadOther, other, hload, hget, hother, hrun⟩ := exists_load ha hb hd hpb
  obtain ⟨store, hstore, hfinish⟩ := exists_finish (a := a) hd (workingXmmFor (locs d) 0)
  have hw2 := hd.working.2 2 (by decide) (by decide)
  have hw3 := hd.working.2 3 (by decide) (by decide)
  unfold emitVecFmaxmin
  dsimp only
  generalize workingXmmFor (locs d) 0 = working at *
  refine ⟨(load ++ loadOther).map .base ++
    fmaxminCode (fun op => .packed op (fmt (vecFpIsDouble a.op))) max working other ++
      (narrowForm a working ++ store).map .base, ?_, fun m => ?_⟩
  · rw [hload, hget, hstore]
    rfl
  · rw [runFloat_append, runFloat_append, runFloat_base, runFloat_base, hfinish,
      run_fmaxminCode (fun op dst src m q => exec_packed m q dst src op _) hw2 hw3
        (hother 2 (by decide) (by decide)) (hother 3 (by decide) (by decide)), run_append, (hrun m).1,
      (hrun m).2]

/-- The result by its active lanes. -/
theorem form_blended {f : Fmt} (hf : f ≠ .h) (max : Bool) (fpsr : U32) {x y : U128}
    (h : ∀ k < activeLanes f.bits (qForm a) false, Quiet f (lane f.bits x k) ∧ Quiet f (lane f.bits y k)) :
    form a (blendedBits (fun op => Packed.zipLanes f.bits
        (lanewise f.bits fun a' b' => op.apply host f a' b')) max x y) =
      ofLanes 128 f.bits (upTo (activeLanes f.bits (qForm a) false) fun k =>
        fmaxminLane f max fpsr (lane f.bits x k) (lane f.bits y k)) := by
  obtain ⟨hpos, hdvd, -⟩ := bits_dvd f
  refine halfForm_row hpos hdvd fun k hk => ?_
  have hle := activeLanes_le hpos hdvd hk
  rw [@lane_blendedBits host _ _ _ _ _ _ (fun op x y => Packed.lane_zipLanes _ hle) hle,
    lanewise_blended host hf max fpsr (h k hk).1 (h k hk).2]

end nodes

end VectorCode

open VectorCode Interp Lanes AbsoluteCompare

/-! ## In a block -/

def maxMinOps : List Op := [.vecFMax_S, .vecFMax_D, .vecFMin_S, .vecFMin_D]

/-- Whether a node computes the maximum. -/
def isMax (op : Op) : Bool := op = .vecFMax_S || op = .vecFMax_D

/-- The code for the node `i` leaves the maximum or minimum of its operands in its place, when no
active lane is a signalling NaN. -/
def MaxMinExact (host : HostFloat) (locs : Nat → Loc) (b : Block) (i : Nat) : Prop :=
  let f := fmt (vecFpIsDouble (b.get i).op)
  let active := activeLanes f.bits (qForm (b.get i)) false
  ∃ code pa pb p, emitFmaxmin locs (b.get i) i = some code ∧
    placeOf (locs ((b.get i).args.get 0)) = some pa ∧
    placeOf (locs ((b.get i).args.get 1)) = some pb ∧ placeOf (locs i) = some p ∧
    ∀ m fpsr, (∀ k < active, Quiet f (lane f.bits (m pa) k) ∧ Quiet f (lane f.bits (m pb) k)) →
      runFloat host code m p = ofLanes 128 f.bits (upTo active fun k =>
        fmaxminLane f (isMax (b.get i).op) fpsr (lane f.bits (m pa) k) (lane f.bits (m pb) k))

/-- **The inline maximum and minimum are those of the instruction helper**: on the lowest lane, and
in every block, wherever linear scan puts the operands; the inactive upper half is zero. -/
theorem fmaxmin_exact (host : HostFloat) (features : HostFeatures) {b : Block} {live : List ValueRef}
    (hwalk : b.Walk b.head live) (htail : b.tail = live.getLastD linkNone) (hssa : b.Ssa live)
    (hsize : b.code.size < Block.maxNodes) (terminalUses : List ValueRef) :
    (∀ (double max : Bool) (fpsr : U32) (m : Contents), let f := fmt double
      Quiet f (lane f.bits (m (.xmm 0)) 0) → Quiet f (lane f.bits (m (.xmm 1)) 0) →
      lane f.bits (runFloat host (emitScalarFmaxmin double max) m (.xmm 0)) 0 =
        fmaxminLane f max fpsr (lane f.bits (m (.xmm 0)) 0) (lane f.bits (m (.xmm 1)) 0)) ∧
    ∀ i ∈ live, IsVector b i → VectorArgs b i [0, 1] → (b.get i).op ∈ maxMinOps →
      MaxMinExact host (locsOf features b terminalUses) b i := by
  refine ⟨fun double max fpsr m => scalar_exact double max fpsr m, fun i hi hv hargs hop => ?_⟩
  obtain ⟨p, hp⟩ := @vectorAt_linearScan features b live terminalUses hwalk htail hsize i hi hv
  obtain ⟨pa, ha, -⟩ := @exists_operand features b live terminalUses i hwalk htail hssa hsize hi hv _
    hargs 0 (by decide)
  obtain ⟨pb, hb, hpb⟩ := @exists_operand features b live terminalUses i hwalk htail hssa hsize hi hv _
    hargs 1 (by decide)
  obtain ⟨code, hcode, hrun⟩ :=
    @exists_emitVecFmaxmin host _ _ _ _ _ _ (isMax (b.get i).op) ha hb hp (hpb p hp)
  refine ⟨code, pa, pb, p, ?_, ha.place, hb.place, hp.place, fun m fpsr hquiet => ?_⟩
  · rw [← hcode, emitFmaxmin]
    simp only [maxMinOps, List.mem_cons, List.not_mem_nil, or_false] at hop
    rcases hop with h | h | h | h <;> rw [h] <;> rfl
  · rw [hrun, form_blended (fmt_ne_h _) (isMax (b.get i).op) fpsr hquiet]

/-- `V2 := max V0 V1`, in lanes of doubles, one of them. -/
def maxOthers : Block := (Block.new 0x1000).pushAll
  [(Armlet.new .getV .u128).withImm 0, (Armlet.new .getV .u128).withImm 1,
    ((Armlet.new .vecFMax_D .u128).withArgs [1, 2]).withImm 0,
    ((Armlet.new .setV .void).withArgs [3]).withImm 2]

theorem fmaxmin_exact_others :
    MaxMinExact exactHost (locsOf ⟨true, true⟩ maxOthers []) maxOthers 3 := by
  have hlinked : maxOthers.Linked [1, 2, 3, 4] := (Block.Linked.new 0x1000).pushAll (by decide) _
  exact (fmaxmin_exact exactHost ⟨true, true⟩ hlinked.walk (by decide) (by decide) (by decide) []).2 3
    (by decide) (by decide) (by decide) (by decide)

end Rustarmic
