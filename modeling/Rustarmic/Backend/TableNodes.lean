import Rustarmic.Backend.TableLookup
import Rustarmic.Backend.VectorNodes

/-!
# What the nodes of a table lookup do

Lookups and comparisons of unsigned bytes are run as their code, which clears the result before it
reads the table: the result has to be apart from the operands (`VectorLowering.Apart`), as the
register allocator sees to.

* `VectorLowering.tableStep` — what a node does.
* `VectorLowering.byteStep`, `VectorLowering.tableStep_eq` — the same in terms of bytes.
* `VectorLowering.exists_linearScan_apart` — the register allocator keeps operands apart.

A node is run on registers as the allocator has laid them out.  Its operands are put where it reads
them (`filled`), the sequence of instructions is run, and what is then in the place of the result is
its value.  If two operands had the same place, the second one would overwrite the first, and the
step would be about another node; `filled_apply` is where this is used.

**Why the allocator keeps them apart.**  The range of an operand ends at the position of the node
that uses it for the last time, and the range of the result begins there.  The two ranges meet at
this position, and a place is free again only behind the range of its holder; only an identity or an
operation in two-address form is handed the place of an operand (`ne_operand_linearScan`,
`ne_operands_linearScan`).  `exists_linearScan_apart` says that the places `linear_scan` really
chooses are apart, for every block and every terminal; it is about the same places in which the code
is run.
-/

set_option autoImplicit false

namespace Rustarmic

open Lanes Packed VectorCode TableLookup

namespace VectorLowering

variable (L : VectorLowering) {n : ValueRef} {a : Armlet} {f f' : Frame}

/-! ## Places -/

/-- How many operands a node has that is run as its code. -/
def operandCount : Op → Nat
  | .vecTbl | .vecCmHs8 => 2
  | .vecTbl2 => 3
  | .vecTbl3 => 4
  | _ => 0

/-- The operands of a node are where it reads them. -/
def fill (a : Armlet) (f : Frame) (m : Contents) (k : Fin 4) : Contents :=
  if k.val < operandCount a.op then
    match placeOf (L.locs (a.args.get k)) with
    | some p => m.set p (a.arg f k).bits
    | none => m
  else m

def filled (a : Armlet) (f : Frame) : Contents := (List.finRange 4).foldl (L.fill a f) L.contents

/-- The operands of a node and its result are in different places. -/
structure Apart (n : ValueRef) (a : Armlet) : Prop where
  result : ∀ k : Fin 4, k.val < operandCount a.op →
    placeOf (L.locs (a.args.get k)) ≠ placeOf (L.locs n)
  operands : ∀ k k' : Fin 4, k.val < operandCount a.op → k'.val < operandCount a.op →
    placeOf (L.locs (a.args.get k)) = placeOf (L.locs (a.args.get k')) → a.args.get k = a.args.get k'

variable {L}

theorem fill_apply (h : L.Apart n a) {k k' : Fin 4} (hk : k.val < operandCount a.op) {p : Place}
    (hp : placeOf (L.locs (a.args.get k)) = some p) (m : Contents) :
    L.fill a f m k' p = (a.arg f k).bits ∨ L.fill a f m k' p = m p ∧ k' ≠ k := by
  have hself : L.fill a f m k p = (a.arg f k).bits := by
    rw [fill, if_pos hk, hp]
    exact Contents.set_self ..
  by_cases hkk : k' = k
  · exact .inl (hkk ▸ hself)
  · rw [fill]
    split_ifs with hk'
    · cases hp' : placeOf (L.locs (a.args.get k')) with
      | none => exact .inr ⟨rfl, hkk⟩
      | some p' =>
        dsimp only
        rw [Contents.set_apply]
        split_ifs with heq
        · have hsame := h.operands k' k hk' hk (by rw [hp', hp, heq])
          rw [Armlet.arg, Armlet.arg, hsame]
          exact .inl rfl
        · exact .inr ⟨rfl, hkk⟩
    · exact .inr ⟨rfl, hkk⟩

theorem foldl_fill (h : L.Apart n a) {k : Fin 4} (hk : k.val < operandCount a.op) {p : Place}
    (hp : placeOf (L.locs (a.args.get k)) = some p) (l : List (Fin 4)) (m : Contents)
    (hm : m p = (a.arg f k).bits ∨ k ∈ l) : l.foldl (L.fill a f) m p = (a.arg f k).bits := by
  induction l generalizing m with
  | nil => exact hm.resolve_right List.not_mem_nil
  | cons k' l ih =>
    refine ih _ ?_
    rcases @fill_apply L n a f h k k' hk p hp m with hval | ⟨hval, hne⟩
    · exact .inl hval
    · rw [hval]
      exact hm.imp_right fun hmem => (List.mem_cons.mp hmem).resolve_left hne.symm

theorem filled_apply (h : L.Apart n a) {k : Fin 4} (hk : k.val < operandCount a.op) {p : Place}
    (hp : placeOf (L.locs (a.args.get k)) = some p) : L.filled a f p = (a.arg f k).bits :=
  foldl_fill h hk hp _ _ (.inr (List.mem_finRange k))

/-! ## Steps -/

variable (L)

/-- The result of code that is run on the operands. -/
def placed (n : ValueRef) (a : Armlet) (f : Frame) (m : Contents) : Option Frame :=
  (placeOf (L.locs n)).map fun pd => f.define n ⟨a.ty, m pd⟩

/-- The byte operations that are values of lanes. -/
def byteValue (a : Armlet) (f : Frame) : Option Value :=
  match a.op with
  | .vecSub8 =>
    some ⟨a.ty, form a (zipLanes 8 (· - ·) (a.arg f 0).bits (a.arg f 1).bits)⟩
  | .vecExtractLo64 => some (.ofU64 a.ty (a.arg f 0).lo64)
  | _ => none

/-- What node `n` does. -/
def tableStep (n : ValueRef) (a : Armlet) (f : Frame) : Option Frame :=
  L.step n a f <|>
    match a.op with
    | .vecTbl | .vecTbl2 | .vecTbl3 =>
      (emitTbl L.locs a n).bind fun code => L.placed n a f (TableLookup.run code (L.filled a f))
    | .vecCmHs8 =>
      (emitOpVecCmhs L.locs a n).bind fun code => L.placed n a f (VectorCode.run code (L.filled a f))
    | _ => (byteValue a f).map (f.define n)

/-- The same as bytes. -/
def byteStep (n : ValueRef) (a : Armlet) (f : Frame) : Option Frame :=
  let x k := (a.arg f k).bits
  L.step n a f <|>
    match a.op with
    | .vecTbl => some (f.define n ⟨a.ty, form a (tableLanes [x 0] (x 1))⟩)
    | .vecTbl2 => some (f.define n ⟨a.ty, form a (tableLanes [x 0, x 1] (x 2))⟩)
    | .vecTbl3 => some (f.define n ⟨a.ty, form a (tableLanes [x 0, x 1, x 2] (x 3))⟩)
    | .vecCmHs8 => some (f.define n ⟨a.ty, form a (geBytes (x 0) (x 1))⟩)
    | _ => (byteValue a f).map (f.define n)

variable {L}

theorem tableStep_eq (h : L.Apart n a) (f : Frame) :
    L.tableStep n a f = L.byteStep n a f := by
  obtain ⟨pa, ha⟩ := L.vectorAt (a.args.get 0)
  obtain ⟨pb, hb⟩ := L.vectorAt (a.args.get 1)
  obtain ⟨pc, hc⟩ := L.vectorAt (a.args.get 2)
  obtain ⟨pi, hi⟩ := L.vectorAt (a.args.get 3)
  obtain ⟨pd, hd⟩ := L.vectorAt n
  have hne {k : Fin 4} {p : Place} (hk : k.val < operandCount a.op)
      (hp : placeOf (L.locs (a.args.get k)) = some p) : p ≠ pd := by
    rintro rfl
    exact h.result k hk (hp.trans hd.place.symm)
  have hval {k : Fin 4} {p : Place} (hk : k.val < operandCount a.op)
      (hp : placeOf (L.locs (a.args.get k)) = some p) : L.filled a f p = (a.arg f k).bits :=
    filled_apply h hk hp
  rw [tableStep, byteStep]
  congr 1
  funext _
  -- Each operation that is run as its code, and the others.
  by_cases h1 : a.op = .vecTbl
  · obtain ⟨code, hcode, hrun⟩ := exists_emitOpVecTbl (a := a) ha hb hd
    simp only [h1, operandCount] at hval ⊢
    rw [emitTbl, h1]
    dsimp only
    rw [hcode, Option.bind_some, placed, hd.place, Option.map_some, hrun, hval (by decide) ha.place,
      hval (by decide) hb.place]
  by_cases h2 : a.op = .vecTbl2
  · simp only [h2, operandCount] at hval hne ⊢
    obtain ⟨code, hcode, hrun⟩ := exists_emitOpVecTbl2 (a := a) ha hb hc hd
      (hne (by decide) ha.place) (hne (by decide) hb.place)
    rw [emitTbl, h2]
    dsimp only
    rw [hcode, Option.bind_some, placed, hd.place, Option.map_some, hrun, hval (by decide) ha.place,
      hval (by decide) hb.place, hval (by decide) hc.place]
  by_cases h3 : a.op = .vecTbl3
  · simp only [h3, operandCount] at hval hne ⊢
    obtain ⟨code, hcode, hrun⟩ := exists_emitOpVecTbl3 (a := a) ha hb hc hi hd
      (hne (by decide) ha.place) (hne (by decide) hb.place) (hne (by decide) hc.place)
    rw [emitTbl, h3]
    dsimp only
    rw [hcode, Option.bind_some, placed, hd.place, Option.map_some, hrun, hval (by decide) ha.place,
      hval (by decide) hb.place, hval (by decide) hc.place, hval (by decide) hi.place]
  by_cases h4 : a.op = .vecCmHs8
  · simp only [h4, operandCount] at hval hne ⊢
    obtain ⟨code, hcode, hrun⟩ := exists_emitOpVecCmhs8 (a := a) ha hb hd (hne (by decide) ha.place)
      (by rw [h4]; rfl)
    rw [hcode, Option.bind_some, placed, hd.place, Option.map_some, hrun, hval (by decide) ha.place,
      hval (by decide) hb.place]
  split
  all_goals first | contradiction | rfl

/-- The register allocator keeps the vectors that a node reads and makes apart: a lowering whose
vectors are where `linearScan` puts them. -/
theorem exists_linearScan_apart (features : HostFeatures) {b : Block} {live : List ValueRef}
    (hwalk : b.Walk b.head live) (htail : b.tail = live.getLastD linkNone) (hssa : b.Ssa live)
    (hsize : b.code.size < Block.maxNodes) (terminalUses : List ValueRef) (hasGfni : Bool)
    (contents : Contents) :
    ∃ L : VectorLowering, L.hasGfni = hasGfni ∧ L.contents = contents ∧
      (∀ i ∈ live, IsVector b i → L.locs i = locsOf features b terminalUses i) ∧
      ∀ i ∈ live, IsVector b i →
        (∀ k : Fin 4, k.val < operandCount (b.get i).op →
          ((b.get i).args.get k).isSome ∧ IsVector b ((b.get i).args.get k)) → L.Apart i (b.get i) := by
  obtain ⟨L, hgfni, hcontents, hlocs⟩ := exists_linearScan features hwalk htail hsize terminalUses
    hasGfni contents
  refine ⟨L, hgfni, hcontents, hlocs, fun i hi hv hargs => ?_⟩
  have hmem (k : Fin 4) (hk : ((b.get i).args.get k).isSome) : (b.get i).args.get k ∈ live := by
    obtain ⟨l₁, l₂, hlive⟩ := List.append_of_mem hi
    subst hlive
    exact List.mem_append_left _ (hssa.arg_mem k hk)
  have hplace {j : ValueRef} (hj : j ∈ live) (hv : IsVector b j) :
      ∃ p, placeOf (locsOf features b terminalUses j) = some p :=
    (vectorAt_linearScan hwalk htail hsize hj hv).imp fun _ h => h.place
  obtain ⟨q, hq⟩ := hplace hi hv
  constructor
  · intro k hk
    obtain ⟨hsome, hvk⟩ := hargs k hk
    obtain ⟨p, hp⟩ := hplace (hmem k hsome) hvk
    rw [hlocs _ (hmem k hsome) hvk, hlocs i hi hv, hp, hq]
    exact fun h => ne_operand_linearScan hwalk htail hssa hsize hi hv hsome hp hq (Option.some.inj h)
  · intro k k' hk hk' heq
    obtain ⟨hsome, hvk⟩ := hargs k hk
    obtain ⟨hsome', hvk'⟩ := hargs k' hk'
    obtain ⟨p, hp⟩ := hplace (hmem k hsome) hvk
    obtain ⟨p', hp'⟩ := hplace (hmem k' hsome') hvk'
    rw [hlocs _ (hmem k hsome) hvk, hlocs _ (hmem k' hsome') hvk', hp, hp'] at heq
    by_contra hne
    exact ne_operands_linearScan hwalk htail hssa hsize hi hsome hsome' hvk hvk' hne hp hp'
      (Option.some.inj heq)

theorem byteStep_of_step (h : L.step n a f = some f') : L.byteStep n a f = some f' := by
  rw [byteStep, h]
  rfl

end VectorLowering

end Rustarmic
