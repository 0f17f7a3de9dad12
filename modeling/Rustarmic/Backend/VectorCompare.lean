import Rustarmic.Backend.VectorOperand

/-!
# Comparisons of vectors

The processor compares signed lanes of up to 32 bits.  Lanes of 64 bits are compared by their halves
(`emitPcmpgtqSse41`), in four registers that are saved around it; unsigned lanes are compared with
their top bits flipped, and "greater or equal" is the negation of "less".

* `run_emitPcmpgtqSse41` — what the comparison by halves leaves in every place.
* `gtq` — what it leaves in its result.
* `exists_emitCompare` — what the code for a comparison of 64-bit lanes leaves in its result.
* `compare64_exact_iff`, in `Backend.VectorAlloc` — when that is the comparison.

The saved registers are xmm4 to xmm7, which the comparison uses as temporaries, and they are
restored at the end.  That is right as long as the result is not one of them.  The allocator hands
out xmm6 and xmm7 when it runs short of registers, so that a result may be there, and then it is the
*saved contents* that remain: `gtq` gives the first operand in that case, not the comparison.

So the exactness of the lowering depends on where the allocator has put the result and on nothing
else, and that is what the equivalence says.  For the other places it is proved for every operand,
both forms, and all four comparisons.
-/

set_option autoImplicit false

namespace Rustarmic

namespace VectorCode

open Lanes Packed

/-! ## The code -/

/-- The temporaries of the comparison, and the registers saved in them. -/
def savedXmms : List (Nat × Nat) := [(0, 4), (16, 5), (32, 6), (48, 7)]

/-- Compare the upper halves: greater in `xmm4`, equal in `xmm7`. -/
def compareHigh (dst src : Nat) : List Instr :=
  [.mov (.xmm 4) (.xmm dst), .mov (.xmm 5) (.xmm src), .psrl 64 4 32, .psrl 64 5 32,
    .mov (.xmm 7) (.xmm 4), .pcmpeq 32 7 5, .pcmpgt 32 4 5, .pshufd 4 4 0xA0, .pshufd 7 7 0xA0]

/-- Compare the lower halves with their top bits flipped. -/
def compareLow (dst : Nat) : List Instr :=
  [.pcmpeq 32 6 6, .psll 32 6 31, .mov (.xmm dst) (.stack 64), .mov (.xmm 5) (.stack 80),
    .pxor dst 6, .pxor 5 6, .pcmpgt 32 dst 5, .pshufd dst dst 0xA0]

def combineHalves (dst : Nat) : List Instr := [.pand 7 dst, .por 4 7, .mov (.xmm dst) (.xmm 4)]

/-- Save the registers and both operands. -/
def save (dst src : Nat) : List Instr :=
  savedXmms.map (fun s => .mov (.stack s.1) (.xmm s.2)) ++
    [.mov (.stack 64) (.xmm dst), .mov (.stack 80) (.xmm src)]

def restore : List Instr := savedXmms.map fun s => .mov (.xmm s.2) (.stack s.1)

/-- The signed 64-bit comparison without SSE4.2, 96 bytes below the stack pointer. -/
def emitPcmpgtqSse41 (dst src : Nat) : List Instr :=
  save dst src ++ (compareHigh dst src ++ compareLow dst ++ combineHalves dst) ++ restore

/-- The signed comparison of lanes of `8 << lane` bits. -/
def emitPcmpgt (lane dst src : Nat) : List Instr :=
  if lane = 3 then emitPcmpgtqSse41 dst src else [.pcmpgt (8 <<< lane) dst src]

def qForm (a : Armlet) : Bool := a.imm &&& 1#64 != 0#64

/-- Clear the upper half of a result of 64 bits. -/
def narrowForm (a : Armlet) (working : Nat) : List Instr :=
  if qForm a then [] else [.movq working working]

/-- All ones in `xmm2`, and the complement of `working`. -/
def invert (working : Nat) : List Instr := [.pcmpeq 32 2 2, .pxor working 2]

def emitOpVecCmgt (locs : Nat → Loc) (a : Armlet) (d : Nat) : Option (List Instr) := do
  let working := workingXmmFor (locs d) 0
  let load ← intoXmmQ (locs (a.args.get 0)) working
  let (loadOther, other) ← getXmmQ (locs (a.args.get 1)) 1
  let store ← storeXmmQ (locs d) working
  pure (load ++ loadOther ++ emitPcmpgt a.op.sizeLog2 working other ++ narrowForm a working ++ store)

def emitOpVecCmge (locs : Nat → Loc) (a : Armlet) (d : Nat) : Option (List Instr) := do
  let working := workingXmmFor (locs d) 0
  let load ← intoXmmQ (locs (a.args.get 1)) working
  let (loadVn, vn) ← getXmmQ (locs (a.args.get 0)) 1
  let store ← storeXmmQ (locs d) working
  pure (load ++ loadVn ++ emitPcmpgt a.op.sizeLog2 working vn ++ invert working ++
    narrowForm a working ++ store)

/-- The operands in the order in which they are compared. -/
def unsignedOperands (a : Armlet) (inverted : Bool) : ValueRef × ValueRef :=
  if inverted then (a.args.get 1, a.args.get 0) else (a.args.get 0, a.args.get 1)

def emitUnsignedCmp (locs : Nat → Loc) (a : Armlet) (d : Nat) (inverted : Bool) :
    Option (List Instr) :=
  let lane := a.op.sizeLog2
  let working := workingXmmFor (locs d) 0
  let (workSrc, otherSrc) := unsignedOperands a inverted
  if lane = 0 then do
    let load ← intoXmmQ (locs workSrc) working
    let (loadRhs, rhs) ← getXmmQ (locs otherSrc) 1
    let store ← storeXmmQ (locs d) working
    pure (load ++ loadRhs ++ [.psubusb working rhs, .pxor 2 2, .pcmpeq 8 working 2] ++
      (if inverted then [] else [.pcmpeq 32 1 1, .pxor working 1]) ++ narrowForm a working ++ store)
  else do
    let load ← intoXmmQ (locs workSrc) working
    let (loadOther, other) ← getXmmQ (locs otherSrc) 1
    let store ← storeXmmQ (locs d) working
    pure ([.pcmpeq 32 2 2, .psll (8 <<< lane) 2 ((8 <<< lane) - 1)] ++ load ++ [.pxor working 2] ++
      loadOther ++ (if other = 1 then [] else [.mov (.xmm 1) (.xmm other)]) ++ [.pxor 1 2] ++
      emitPcmpgt lane working 1 ++ (if inverted then invert working else []) ++
      narrowForm a working ++ store)

def emitOpVecCmhi (locs : Nat → Loc) (a : Armlet) (d : Nat) : Option (List Instr) :=
  emitUnsignedCmp locs a d false

def emitOpVecCmhs (locs : Nat → Loc) (a : Armlet) (d : Nat) : Option (List Instr) :=
  emitUnsignedCmp locs a d true

/-- The entries of the dispatch table for the ordered comparisons. -/
def emitCompare (locs : Nat → Loc) (a : Armlet) (d : Nat) : Option (List Instr) :=
  match a.op with
  | .vecCmGt8 | .vecCmGt16 | .vecCmGt32 | .vecCmGt64 => emitOpVecCmgt locs a d
  | .vecCmGe8 | .vecCmGe16 | .vecCmGe32 | .vecCmGe64 => emitOpVecCmge locs a d
  | .vecCmHi8 | .vecCmHi16 | .vecCmHi32 | .vecCmHi64 => emitOpVecCmhi locs a d
  | .vecCmHs8 | .vecCmHs16 | .vecCmHs32 | .vecCmHs64 => emitOpVecCmhs locs a d
  | _ => none

/-! ## The comparison by halves -/

/-- What the comparison of 64-bit lanes leaves in the register `dst`. -/
def gtq (dst : Nat) (x y : U128) : U128 := if dst ∈ savedXmms.map (·.2) then x else pcmpgt 64 x y

section halves

variable {dst src : Nat}

/-- The registers are saved and the operands are in the temporaries. -/
structure Saved (dst src : Nat) (m m' : Contents) : Prop where
  xmm : ∀ r, m' (.xmm r) = m (.xmm r)
  frame : ∀ off, m' (.frame off) = m (.frame off)
  saved : ∀ s ∈ savedXmms, m' (.stack s.1) = m (.xmm s.2)
  dst : m' (.stack 64) = m (.xmm dst)
  src : m' (.stack 80) = m (.xmm src)

theorem saved_run (m : Contents) :
    Saved dst src m (run (save dst src) m) := by
  constructor <;> simp [save, savedXmms]

/-- What is used of the upper halves. -/
structure High (x y : U128) (m m' : Contents) : Prop where
  greater : m' (.xmm 4) =
    Packed.pshufd (Packed.pcmpgt 32 (Packed.psrl 64 x 32) (Packed.psrl 64 y 32)) 0xA0
  equal : m' (.xmm 7) =
    Packed.pshufd (Packed.pcmpeq 32 (Packed.psrl 64 x 32) (Packed.psrl 64 y 32)) 0xA0
  stack : ∀ off, m' (.stack off) = m (.stack off)

theorem high_run (hsrc : src ≠ 4) (m : Contents) :
    High (m (.xmm dst)) (m (.xmm src)) m (run (compareHigh dst src) m) := by
  constructor <;>
    simp [compareHigh, hsrc]

theorem run_compareLow (h4 : dst ≠ 4) (h5 : dst ≠ 5) (h6 : dst ≠ 6) (h7 : dst ≠ 7)
    (m : Contents) : run (compareLow dst) m (.xmm dst) = Packed.pshufd (Packed.pcmpgt 32
      (m (.stack 64) ^^^ Packed.psll 32 (BitVec.allOnes 128) 31)
      (m (.stack 80) ^^^ Packed.psll 32 (BitVec.allOnes 128) 31)) 0xA0 ∧
      run (compareLow dst) m (.xmm 4) = m (.xmm 4) ∧ run (compareLow dst) m (.xmm 7) = m (.xmm 7) := by
  have hone : ∀ x : U128, Packed.pcmpeq 32 x x = BitVec.allOnes 128 :=
    pcmpeq_self (by decide) (by decide)
  refine ⟨?_, ?_, ?_⟩
  · simp [compareLow, h5, Ne.symm h5, Ne.symm h6, hone]
  · simp [compareLow, Ne.symm h4]
  · simp [compareLow, Ne.symm h7]

/-- Between the two halves of the frame only the saved registers and the result are written. -/
theorem middle_writes {p : Place} (h : p ≠ .xmm dst) (hp : ∀ s ∈ savedXmms, p ≠ .xmm s.2) :
    ∀ i ∈ compareHigh dst src ++ compareLow dst ++ combineHalves dst, i.writes p = false := by
  simp only [savedXmms, List.mem_cons, List.not_mem_nil, or_false, forall_eq_or_imp,
    forall_eq] at hp
  obtain ⟨h4, h5, h6, h7⟩ := hp
  simp [compareHigh, compareLow, combineHalves, Instr.writes, h, h4, h5, h6, h7]

/-- The result, in a register that is not among the saved ones. -/
theorem run_middle {m m' : Contents} (hm : Saved dst src m m')
    (hdst : ∀ s ∈ savedXmms, dst ≠ s.2) (hsrc : src ≠ 4) :
    run (compareHigh dst src ++ compareLow dst ++ combineHalves dst) m' (.xmm dst) =
      pcmpgt 64 (m (.xmm dst)) (m (.xmm src)) := by
  simp only [savedXmms, List.mem_cons, List.not_mem_nil, or_false, forall_eq_or_imp,
    forall_eq] at hdst
  obtain ⟨h4, h5, h6, h7⟩ := hdst
  have hhigh := @high_run dst src hsrc m'
  obtain ⟨hlow, hgreater, hequal⟩ := run_compareLow h4 h5 h6 h7 (run (compareHigh dst src) m')
  rw [hhigh.stack, hhigh.stack, hm.dst, hm.src] at hlow
  rw [hhigh.greater, hm.xmm, hm.xmm] at hgreater
  rw [hhigh.equal, hm.xmm, hm.xmm] at hequal
  rw [run_append, run_append, ← pcmpgtHalves_eq, pcmpgtHalves]
  simp [combineHalves, hlow, hgreater, hequal]

theorem run_restore (m : Contents) (p : Place) :
    run restore m p =
      if p = .xmm 7 then m (.stack 48) else if p = .xmm 6 then m (.stack 32)
      else if p = .xmm 5 then m (.stack 16) else if p = .xmm 4 then m (.stack 0) else m p := by
  simp [restore, savedXmms]

/-- What was saved is restored, and nothing else is written but the result. -/
theorem run_restored {m m₁ m₂ : Contents} (hm : Saved dst src m m₁)
    (hstack : ∀ off, m₂ (.stack off) = m₁ (.stack off)) {p : Place}
    (hp : (∀ s ∈ savedXmms, p ≠ .xmm s.2) → m₂ p = m p) : run restore m₂ p = m p := by
  rw [run_restore, hstack, hstack, hstack, hstack, hm.saved (0, 4) (by decide),
    hm.saved (16, 5) (by decide), hm.saved (32, 6) (by decide), hm.saved (48, 7) (by decide)]
  split_ifs with h7 h6 h5 h4
  · rw [h7]
  · rw [h6]
  · rw [h5]
  · rw [h4]
  · exact hp (by simp [savedXmms, h4, h5, h6, h7])

/-- **The comparison by halves.**  What it leaves in its result, and everything else that is not a
temporary as it was. -/
theorem run_emitPcmpgtqSse41 (hsrc : src ≠ 4) (m : Contents) :
    run (emitPcmpgtqSse41 dst src) m (.xmm dst) = gtq dst (m (.xmm dst)) (m (.xmm src)) ∧
      ∀ p, p ≠ .xmm dst → (∀ off, p ≠ .stack off) → run (emitPcmpgtqSse41 dst src) m p = m p := by
  have hsaved := @saved_run dst src m
  have hmiddle := run_middle hsaved
  have hwrites {p : Place} (h : p ≠ .xmm dst) (hp : ∀ s ∈ savedXmms, p ≠ .xmm s.2) :=
    run_of_not_writes (@middle_writes dst src p h hp) (run (save dst src) m)
  have hstack (off : Nat) := hwrites (p := .stack off) nofun fun _ _ => nofun
  rw [emitPcmpgtqSse41, run_append, run_append]
  refine ⟨?_, fun p hp hstacks => run_restored hsaved hstack fun hout => ?_⟩
  · rw [gtq]
    split_ifs with hmem
    · refine run_restored hsaved hstack fun hout => ?_
      obtain ⟨s, hs, rfl⟩ := List.mem_map.mp hmem
      exact absurd rfl (hout s hs)
    · have hdst : ∀ s ∈ savedXmms, dst ≠ s.2 := fun s hs heq =>
        hmem (List.mem_map.mpr ⟨s, hs, heq.symm⟩)
      have hne (s) (hs : s ∈ savedXmms) : (Place.xmm dst) ≠ .xmm s.2 := fun heq =>
        hdst s hs (Place.xmm.inj heq)
      rw [run_restore, if_neg (hne (48, 7) (by decide)), if_neg (hne (32, 6) (by decide)),
        if_neg (hne (16, 5) (by decide)), if_neg (hne (0, 4) (by decide)), hmiddle hdst hsrc]
  · rw [hwrites hp hout]
    cases p with
    | xmm r => exact hsaved.xmm r
    | frame off => exact hsaved.frame off
    | stack off => exact absurd rfl (hstacks off)

end halves

/-! ## The lowerings of 64-bit lanes -/

/-- The upper half is cleared in a form of 64 bits. -/
def form (a : Armlet) (x : U128) : U128 := if qForm a then x else Packed.movq x

/-- The top bit of every 64-bit lane. -/
def flip64 : U128 := psll 64 (BitVec.allOnes 128) 63

/-- The result of a comparison of 64-bit lanes that is made in the register `working`. -/
def compareResult (op : Op) (working : Nat) (x y : U128) : U128 :=
  match op with
  | .vecCmGt64 => gtq working x y
  | .vecCmGe64 => ~~~gtq working y x
  | .vecCmHi64 => gtq working (x ^^^ flip64) (y ^^^ flip64)
  | _ => ~~~gtq working (y ^^^ flip64) (x ^^^ flip64)

section lowerings

variable {locs : Nat → Loc} {a : Armlet} {d : Nat} {pa pb pd : Place}

/-- The end of every lowering. -/
theorem exists_finish (hd : VectorAt (locs d) pd) (working : Nat) :
    ∃ store, storeXmmQ (locs d) working = some store ∧
      ∀ m, run (narrowForm a working ++ store) m pd = form a (m (.xmm working)) := by
  obtain ⟨store, hstore, hrun⟩ := exists_storeXmmQ hd.place working
  refine ⟨store, hstore, fun m => ?_⟩
  rw [run_append, hrun, if_pos rfl, narrowForm, form]
  split
  · rfl
  · simp

theorem run_invert {working : Nat} (h : working ≠ 2) (m : Contents) :
    run (invert working) m (.xmm working) = ~~~m (.xmm working) := by
  rw [← BitVec.xor_allOnes, ← pcmpeq_self (by decide : 0 < 32) (by decide) (m (.xmm 2))]
  simp [invert, h]

/-- The first operand in the register in which the result is made, the second in some register. -/
theorem exists_load {lx ly : Loc} {px py : Place} (hx : VectorAt lx px) (hy : VectorAt ly py)
    (hd : VectorAt (locs d) pd) (hne : py ≠ pd) :
    ∃ load loadOther other, intoXmmQ lx (workingXmmFor (locs d) 0) = some load ∧
      getXmmQ ly 1 = some (loadOther, other) ∧ (∀ r, 1 < r → r < 6 → other ≠ r) ∧ ∀ m,
        run loadOther (run load m) (.xmm (workingXmmFor (locs d) 0)) = m px ∧
        run loadOther (run load m) (.xmm other) = m py := by
  obtain ⟨load, hload, hrunLoad⟩ := exists_intoXmmQ hx.place (workingXmmFor (locs d) 0)
  obtain ⟨loadOther, other, hget, hother, hrunOther⟩ := exists_getXmmQ hy.place 1
  refine ⟨load, loadOther, other, hload, hget, ?_, fun m => ⟨?_, ?_⟩⟩
  · rcases hother with rfl | rfl
    · exact fun r _ hr h => hy.ne_scratch hr (congrArg Place.xmm h)
    · exact fun r hr _ => hr.ne
  · have hwork := hd.working.2 1 (by decide) (by decide)
    rw [(hrunOther _).2 _ fun h => hwork (Place.xmm.inj h), hrunLoad, if_pos rfl]
  · rw [(hrunOther _).1, hrunLoad, if_neg (hd.ne_working hy hne)]

theorem exists_emitOpVecCmgt (ha : VectorAt (locs (a.args.get 0)) pa)
    (hb : VectorAt (locs (a.args.get 1)) pb) (hd : VectorAt (locs d) pd) (hpb : pb ≠ pd)
    (hlane : a.op.sizeLog2 = 3) :
    ∃ code, emitOpVecCmgt locs a d = some code ∧
      ∀ m, run code m pd = form a (gtq (workingXmmFor (locs d) 0) (m pa) (m pb)) := by
  obtain ⟨load, loadOther, other, hload, hget, hother, hrun⟩ := exists_load ha hb hd hpb
  obtain ⟨store, hstore, hfinish⟩ := exists_finish (a := a) hd (workingXmmFor (locs d) 0)
  unfold emitOpVecCmgt
  dsimp only
  generalize workingXmmFor (locs d) 0 = working at *
  refine ⟨load ++ loadOther ++ emitPcmpgt a.op.sizeLog2 working other ++ narrowForm a working ++
    store, ?_, fun m => ?_⟩
  · rw [hload, hget, hstore]
    rfl
  · rw [List.append_assoc, run_append, hfinish, run_append, run_append, emitPcmpgt, if_pos hlane,
      (run_emitPcmpgtqSse41 (hother 4 (by decide) (by decide)) _).1, (hrun m).1, (hrun m).2]

theorem exists_emitOpVecCmge (ha : VectorAt (locs (a.args.get 0)) pa)
    (hb : VectorAt (locs (a.args.get 1)) pb) (hd : VectorAt (locs d) pd) (hpa : pa ≠ pd)
    (hlane : a.op.sizeLog2 = 3) :
    ∃ code, emitOpVecCmge locs a d = some code ∧
      ∀ m, run code m pd = form a (~~~gtq (workingXmmFor (locs d) 0) (m pb) (m pa)) := by
  obtain ⟨load, loadVn, vn, hload, hget, hvn, hrun⟩ := exists_load hb ha hd hpa
  obtain ⟨store, hstore, hfinish⟩ := exists_finish (a := a) hd (workingXmmFor (locs d) 0)
  have hwork := hd.working.2 2 (by decide) (by decide)
  unfold emitOpVecCmge
  dsimp only
  generalize workingXmmFor (locs d) 0 = working at *
  refine ⟨load ++ loadVn ++ emitPcmpgt a.op.sizeLog2 working vn ++ invert working ++
    narrowForm a working ++ store, ?_, fun m => ?_⟩
  · rw [hload, hget, hstore]
    rfl
  · rw [List.append_assoc, run_append, hfinish, run_append, run_append, run_append, emitPcmpgt,
      if_pos hlane, run_invert hwork, (run_emitPcmpgtqSse41 (hvn 4 (by decide) (by decide)) _).1,
      (hrun m).1, (hrun m).2]

/-- Both operands with their top bits flipped, in `working` and `xmm1`. -/
theorem run_flipped {load loadOther : List Instr} {working other : Nat} {px py : Place}
    (hload : ∀ m q, run load m q = if q = .xmm working then m px else m q)
    (hother : ∀ m, run loadOther m (.xmm other) = m py ∧
      ∀ q, q ≠ .xmm 1 → run loadOther m q = m q)
    (hw1 : working ≠ 1) (hw2 : working ≠ 2) (hpx : px ≠ .xmm 2) (hpy : py ≠ .xmm 2)
    (hne : py ≠ .xmm working) (m : Contents) :
    let m' := run ([.pcmpeq 32 2 2, .psll 64 2 63] ++ load ++ [.pxor working 2] ++ loadOther ++
      (if other = 1 then [] else [.mov (.xmm 1) (.xmm other)]) ++ [.pxor 1 2]) m
    m' (.xmm working) = m px ^^^ flip64 ∧ m' (.xmm 1) = m py ^^^ flip64 := by
  have hone (x : U128) : Packed.pcmpeq 32 x x = BitVec.allOnes 128 :=
    pcmpeq_self (by decide) (by decide) x
  have hstart (q : Place) : run [.pcmpeq 32 2 2, .psll 64 2 63] m q =
      if q = .xmm 2 then flip64 else m q := by
    split
    · rename_i hq
      simp [hq, hone, flip64]
    · rename_i hq
      simp [hq]
  simp only [run_append]
  generalize run [.pcmpeq 32 2 2, .psll 64 2 63] m = m₁ at *
  have hleft (q : Place) : run [.pxor working 2] (run load m₁) q =
      if q = .xmm working then m px ^^^ flip64 else m₁ q := by
    rw [run_cons, run_nil, exec_pxor, hload, hload, if_pos rfl,
      if_neg fun h => hw2 (Place.xmm.inj h).symm, hstart px, if_neg hpx, hstart (.xmm 2), if_pos rfl]
    split
    · rfl
    · rename_i hq
      rw [hload, if_neg hq]
  generalize run [.pxor working 2] (run load m₁) = m₂ at *
  obtain ⟨hright, hkeep⟩ := hother m₂
  have hcopy (q : Place) : run (if other = 1 then [] else [.mov (.xmm 1) (.xmm other)])
      (run loadOther m₂) q = if q = .xmm 1 then m py else m₂ q := by
    rw [hleft, if_neg hne, hstart, if_neg hpy] at hright
    split_ifs with ho hq hq
    · rw [hq, ← ho]
      exact hright
    · exact hkeep q hq
    · simp [hq, hright]
    · simp [hq, hkeep q hq]
  rw [run_cons, run_nil, exec_pxor, exec_pxor, hcopy, hcopy, hcopy, if_pos rfl, if_pos rfl,
    if_neg fun h => hw1 (Place.xmm.inj h), if_neg fun h => hw1 (Place.xmm.inj h), if_neg nofun,
    hleft, hleft, if_pos rfl, if_neg fun h => hw2 (Place.xmm.inj h).symm, hstart, if_pos rfl]
  exact ⟨rfl, rfl⟩

theorem exists_emitUnsignedCmp {inverted : Bool} {px py : Place}
    (hx : VectorAt (locs (unsignedOperands a inverted).1) px)
    (hy : VectorAt (locs (unsignedOperands a inverted).2) py) (hd : VectorAt (locs d) pd)
    (hne : py ≠ pd) (hlane : a.op.sizeLog2 = 3) :
    ∃ code, emitUnsignedCmp locs a d inverted = some code ∧ ∀ m, run code m pd =
      form a ((if inverted then (~~~·) else id)
        (gtq (workingXmmFor (locs d) 0) (m px ^^^ flip64) (m py ^^^ flip64))) := by
  obtain ⟨load, hload, hrunLoad⟩ := exists_intoXmmQ hx.place (workingXmmFor (locs d) 0)
  obtain ⟨loadOther, other, hget, hother, hrunOther⟩ := exists_getXmmQ hy.place 1
  obtain ⟨store, hstore, hfinish⟩ := exists_finish (a := a) hd (workingXmmFor (locs d) 0)
  have hw1 := hd.working.2 1 (by decide) (by decide)
  have hw2 := hd.working.2 2 (by decide) (by decide)
  have hw := hd.ne_working hy hne
  have hx2 := hx.ne_scratch (by decide : 2 < 6)
  have hy2 := hy.ne_scratch (by decide : 2 < 6)
  unfold emitUnsignedCmp
  dsimp only
  rw [hlane, if_neg (by decide)]
  generalize workingXmmFor (locs d) 0 = working at *
  refine ⟨[.pcmpeq 32 2 2, .psll 64 2 63] ++ load ++ [.pxor working 2] ++ loadOther ++
    (if other = 1 then [] else [.mov (.xmm 1) (.xmm other)]) ++ [.pxor 1 2] ++
    emitPcmpgt 3 working 1 ++ (if inverted then invert working else []) ++
    narrowForm a working ++ store, ?_, fun m => ?_⟩
  · rw [hload, hget, hstore]
    rfl
  · obtain ⟨hleft, hright⟩ := run_flipped hrunLoad hrunOther hw1 hw2 hx2 hy2 hw m
    rw [List.append_assoc, run_append, hfinish, run_append, run_append, emitPcmpgt, if_pos rfl]
    generalize run (_ ++ [Instr.pxor 1 2]) m = m₁ at *
    have hgt := (@run_emitPcmpgtqSse41 working 1 (by decide) m₁).1
    rw [hleft, hright] at hgt
    cases inverted with
    | false => rw [if_neg Bool.false_ne_true, run_nil, hgt, if_neg Bool.false_ne_true, id]
    | true => rw [if_pos rfl, run_invert hw2, hgt, if_pos rfl]

/-- The operations on 64-bit lanes. -/
def compareOps : List Op := [.vecCmGt64, .vecCmGe64, .vecCmHi64, .vecCmHs64]

/-- **The code for a comparison of 64-bit lanes**, for operands apart from the result. -/
theorem exists_emitCompare (hop : a.op ∈ compareOps) (ha : VectorAt (locs (a.args.get 0)) pa)
    (hb : VectorAt (locs (a.args.get 1)) pb) (hd : VectorAt (locs d) pd) (hpa : pa ≠ pd)
    (hpb : pb ≠ pd) : ∃ code, emitCompare locs a d = some code ∧ ∀ m, run code m pd =
      form a (compareResult a.op (workingXmmFor (locs d) 0) (m pa) (m pb)) := by
  have hlane : a.op.sizeLog2 = 3 := by
    have hall : ∀ op ∈ compareOps, op.sizeLog2 = 3 := by decide
    exact hall _ hop
  rw [emitCompare]
  simp only [compareOps, List.mem_cons, List.not_mem_nil, or_false] at hop
  rcases hop with hop | hop | hop | hop <;> rw [hop]
  · exact exists_emitOpVecCmgt ha hb hd hpb hlane
  · exact exists_emitOpVecCmge ha hb hd hpa hlane
  · exact exists_emitUnsignedCmp ha hb hd hpb hlane
  · exact @exists_emitUnsignedCmp locs a d pd true pb pa hb ha hd hpa hlane

end lowerings

/-! ## What they should be -/

/-- The comparison of two lanes. -/
def compares (op : Op) (x y : U64) : Bool :=
  match op with
  | .vecCmGt64 => y.toInt < x.toInt
  | .vecCmGe64 => y.toInt ≤ x.toInt
  | .vecCmHi64 => y.toNat < x.toNat
  | _ => y.toNat ≤ x.toNat

/-- All ones in every active lane in which the comparison holds. -/
def vectorCompare (a : Armlet) (x y : U128) : U128 :=
  ofLanes 128 64 (upTo (if qForm a then 2 else 1) fun k =>
    fill 64 (compares a.op (lane 64 x k) (lane 64 y k)))

theorem form_eq (a : Armlet) (x : U128) :
    form a x = ofLanes 128 64 (upTo (if qForm a then 2 else 1) (lane 64 x)) := by
  refine BitVec.eq_of_getLsbD_eq fun i hi => ?_
  rw [getLsbD_ofLanes, decide_eq_true hi, Bool.true_and, upTo, form]
  cases qForm a with
  | true =>
    rw [if_pos rfl, if_pos rfl, if_pos (by omega), getLsbD_lane, decide_eq_true (by omega),
      Nat.div_add_mod, Bool.true_and]
  | false =>
    rw [if_neg Bool.false_ne_true, if_neg Bool.false_ne_true, Packed.movq, BitVec.getLsbD_setWidth,
      BitVec.getLsbD_setWidth, decide_eq_true hi, Bool.true_and]
    by_cases hlow : i < 64
    · rw [if_pos (by omega), getLsbD_lane, decide_eq_true hlow, decide_eq_true (by omega),
        Nat.div_add_mod]
    · rw [if_neg (by omega), decide_eq_false hlow, Bool.false_and]
      exact BitVec.getLsbD_zero.symm

theorem not_fill (p : Bool) : ~~~fill 64 p = fill 64 !p := by
  cases p <;> decide

/-- A lane of the result, made in a register that is not among the saved ones. -/
theorem lane_compareResult {op : Op} (hop : op ∈ compareOps) {working : Nat}
    (hw : working ∉ savedXmms.map (·.2)) (x y : U128) {k : Nat} (hk : k < 2) :
    lane 64 (compareResult op working x y) k = fill 64 (compares op (lane 64 x k) (lane 64 y k)) := by
  have hgt (x y : U128) :
      lane 64 (gtq working x y) k = fill 64 ((lane 64 y k).slt (lane 64 x k)) := by
    rw [gtq, if_neg hw, lane_pcmpgt (by omega)]
  have hflip : lane 64 flip64 k = BitVec.intMin (63 + 1) := by
    rw [flip64, psll, lane_mapLanes _ (by omega), lane_allOnes (by omega)]
    rfl
  simp only [compareOps, List.mem_cons, List.not_mem_nil, or_false] at hop
  rcases hop with rfl | rfl | rfl | rfl
  · exact hgt x y
  · rw [compareResult, lane_not _ _ (by omega), hgt, not_fill, compares, BitVec.slt, ← decide_not]
    simp only [not_lt]
  · change lane 64 (gtq working (x ^^^ flip64) (y ^^^ flip64)) k =
      fill 64 ((lane 64 y k).ult (lane 64 x k))
    rw [hgt, lane_xor, lane_xor, hflip, slt_xor_intMin]
  · change lane 64 (~~~gtq working (y ^^^ flip64) (x ^^^ flip64)) k =
      fill 64 (decide ((lane 64 y k).toNat ≤ (lane 64 x k).toNat))
    rw [lane_not _ _ (by omega), hgt, lane_xor, lane_xor, hflip, slt_xor_intMin, not_fill,
      BitVec.ult, ← decide_not]
    simp only [not_lt]

/-- **A comparison of 64-bit lanes is exact**, made in a register that is not among the saved
ones. -/
theorem form_compareResult {a : Armlet} (hop : a.op ∈ compareOps) {working : Nat}
    (hw : working ∉ savedXmms.map (·.2)) (x y : U128) :
    form a (compareResult a.op working x y) = vectorCompare a x y := by
  rw [form_eq, vectorCompare]
  refine congrArg (ofLanes 128 64) (funext fun k => ?_)
  have hactive : (if qForm a then 2 else 1) ≤ 2 := by split <;> decide
  rw [upTo, upTo]
  generalize (if qForm a then 2 else 1) = active at *
  split
  · rename_i hk
    exact lane_compareResult hop hw x y (Nat.lt_of_lt_of_le hk hactive)
  · rfl

/-- Made in one of the others it is wrong when both operands are one. -/
theorem form_compareResult_ne {a : Armlet} (hop : a.op ∈ compareOps) {working : Nat}
    (hw : working ∈ savedXmms.map (·.2)) :
    form a (compareResult a.op working 1 1) ≠ vectorCompare a 1 1 := by
  intro h
  have hlow := congrArg (lane 64 · 0) h
  rw [form_eq, vectorCompare, lane_ofLanes _ (by decide), lane_ofLanes _ (by decide), upTo, upTo,
    if_pos (by split <;> decide), if_pos (by split <;> decide)] at hlow
  simp only [compareOps, List.mem_cons, List.not_mem_nil, or_false] at hop
  rcases hop with hop | hop | hop | hop <;>
  · rw [hop] at hlow
    simp only [compareResult, gtq, if_pos hw] at hlow
    revert hlow
    decide +kernel

end VectorCode

end Rustarmic
