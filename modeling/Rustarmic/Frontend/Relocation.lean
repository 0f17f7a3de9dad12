import Mathlib.Data.List.GetD
import Rustarmic.Frontend.Bitfield
import Rustarmic.Frontend.Branches
import Rustarmic.Frontend.LoadPair
import Rustarmic.Frontend.Lowering
import Rustarmic.Lib.Relocation

/-!
# Translators wherever they stand

A translator does not know where its instruction stands: `IrEmitter::push` hands it the index that
the block has reached, and all it can do with an index is to put it into the arguments of a later
node.  So the same instruction gives different nodes in the middle of a block and at its start, and
they differ in the arguments only.  The model of a family translator as a `Lowering` rests on this,
since there an instruction has *one* list of nodes, written as if it stood at the start of a block,
and placing it renumbers the arguments (`Emission.placed`).  Here that is proved of every translator
of the modelled classes, by running it at the end of two blocks of which the second one is `d` nodes
longer.

What is compared is `Lib.Relocation`'s `Alike`, at these parameters:

* **Nodes are related by `Moves`.**  The second node is the first one with its arguments `shifted`,
  its PC is that of the instruction, and its arguments are smaller than its own index.  The last
  part is what an optimizer or a register allocator needs of a block, and no translator checks it:
  it holds because a translator only has the values that it was given.
* **Ends are alike.**  Both return the same status and the same terminal up to the shift, or both
  fail with the same error.  That the error is none of `Stop.panic` is part of the relation, because
  where the model has a branch that the source marks as unreachable (an access of three bytes, a
  rotation of an addition) or an arithmetic step that it computes with a check (the masks of the
  bitfield translator), the proof has to rule it out there.

## How the proofs go

There is one rule for every function of the emitter, and a translator's lemma calls them in the
order in which the translator calls the functions; nothing is unfolded below that level.
`ReturnsValue`, `ReturnsUnit`, `Continues` and `Terminates` are the four shapes that such a program
has.  The index only grows, so a value that was defined stays defined, and that is the side
condition that `omega` closes at each step.

* `relocates_push` — a node, and with it every function of the emitter.
* `Movewide.relocates` and so on — one lemma for each class of instructions, which
  `GuestInsn.relocates` collects.
-/

set_option autoImplicit false

namespace Rustarmic

open Emitting Emitting.Prog Interp

/-- A value, in a block that is `d` nodes longer.  Index zero stands for "no value" and stays zero,
which is why this is not simply `v + d`; an emission that is placed is renumbered by the same
function, so that the two need no conversion. -/
def shifted (d : Nat) (v : ValueRef) : ValueRef := Emission.valueAt (d + 1) v

/-- The argument slots that a list fills, the others being empty.  `Armlet.withArgs` gives nodes
their arguments by a list, and a lemma about lists covers nodes with one, two and three of them. -/
def slots (l : List ValueRef) : Vector ValueRef 4 := #v[l.getD 0 0, l.getD 1 0, l.getD 2 0, l.getD 3 0]

/-- A node at index `n` with arguments that come first, and the node that it is `d` nodes further
on.  Only the arguments may differ: operation, type, immediate and flags are those of the
instruction. -/
structure Moves (pc : U64) (d n : Nat) (a a' : Armlet) : Prop where
  pc_eq : a.pc = pc
  args_lt : ∀ k : Fin 4, a.args.get k < n
  eq : a' = a.mapArgs (shifted d)

section returns

variable (em : IrEmitter) (d : Nat)

/-- Two runs of a program, at the end of a block with `n` nodes and of one with `n + d`.  `Q` is
about what they return and about the index that the first one has reached. -/
def Relocates {α : Type} (p p' : Emit α) (n : Nat) (Q : α → α → Nat → Prop) : Prop :=
  Alike d (Moves em.currentPc d) (· ≠ .panic) p p' n Q

/-- The program returns the value of a node that is there: it is smaller than the index behind the
program, and can be the argument of whatever comes next. -/
def ReturnsValue (p p' : Emit ValueRef) (n : Nat) : Prop :=
  Relocates em d p p' n fun v v' m => v' = shifted d v ∧ v < m

/-- The program returns nothing. -/
def ReturnsUnit (p p' : Emit Unit) (n : Nat) : Prop := Relocates em d p p' n fun _ _ _ => True

/-- The program goes on with the next instruction. -/
def Continues (p p' : Emit InstStatus) (n : Nat) : Prop :=
  Relocates em d p p' n fun st st' _ => st = .continues ∧ st' = .continues

/-- The program returns a terminal.  A terminal has a value in it when the branch depends on one (a
condition, a target), so that it is shifted as nodes are. -/
def Terminates (p p' : Emit Terminal) (n : Nat) : Prop :=
  Relocates em d p p' n fun t t' _ => t' = t.mapValue (shifted d)

end returns

variable {em : IrEmitter} {d n : Nat}

section rules

variable {β : Type} {Q : β → β → Nat → Prop}

/-- What comes behind a value may use it, and everything that was there before still is
(`n ≤ m`). -/
theorem ReturnsValue.bind {p p' : Emit Nat} {g g' : Nat → Emit β} (h : ReturnsValue em d p p' n)
    (hg : ∀ v m : Nat, n ≤ m → v < m → Relocates em d (g v) (g' (shifted d v)) m Q) :
    Relocates em d (p >>= g) (p' >>= g') n Q := by
  refine Alike.bind h ?_
  rintro v _ m hle ⟨rfl, hv⟩
  exact hg v m hle hv

theorem ReturnsUnit.bind {p p' : Emit Unit} {g g' : Unit → Emit β} (h : ReturnsUnit em d p p' n)
    (hg : ∀ m, n ≤ m → Relocates em d (g ()) (g' ()) m Q) : Relocates em d (p >>= g) (p' >>= g') n Q :=
  Alike.bind h fun _ _ m hle _ => hg m hle

theorem ReturnsUnit.continues {p p' : Emit Unit} (h : ReturnsUnit em d p p' n) :
    Continues em d (p >>= fun _ => pure .continues) (p' >>= fun _ => pure .continues) n :=
  h.bind fun _ _ => ⟨rfl, rfl⟩

theorem continues_fail (e : Error) : Continues em d (.fail (.error e)) (.fail (.error e)) n :=
  ⟨rfl, by rintro ⟨⟩⟩

theorem returnsValue_pure {v : Nat} (hv : v < n) : ReturnsValue em d (pure v) (pure (shifted d v)) n :=
  ⟨rfl, hv⟩

theorem relocates_pure_bind {α : Type} {a : α} {g g' : α → Emit β} (h : Relocates em d (g a) (g' a) n Q) :
    Relocates em d (pure a >>= g) (pure a >>= g') n Q := h

theorem returnsUnit_pure : ReturnsUnit em d (pure ()) (pure ()) n := trivial

end rules

/-! ## The emitter -/

/-- An empty slot holds index zero, and a block is never empty: its first node is there from the
start. -/
theorem slots_get_lt {l : List ValueRef} (hn : 0 < n) (hl : ∀ v ∈ l, v < n) (k : Fin 4) :
    (slots l).get k < n := by
  have hget (i : Nat) : l.getD i 0 < n := by
    by_cases hi : i < l.length
    · rw [List.getD_eq_getElem _ _ hi]
      exact hl _ (List.getElem_mem hi)
    · rw [List.getD_eq_default _ _ (Nat.le_of_not_lt hi)]
      exact hn
  match k with
  | 0 => exact hget 0
  | 1 => exact hget 1
  | 2 => exact hget 2
  | 3 => exact hget 3

theorem slots_map (d : Nat) (l : List ValueRef) : slots (l.map (shifted d)) =
    #v[shifted d ((slots l).get 0), shifted d ((slots l).get 1), shifted d ((slots l).get 2),
      shifted d ((slots l).get 3)] := by
  have hget (i : Nat) : (l.map (shifted d)).getD i 0 = shifted d (l.getD i 0) := List.getD_map (d := 0) ..
  simp only [slots, hget]
  rfl

theorem none_lt : ∀ v ∈ ([] : List ValueRef), v < n := List.forall_mem_nil _

/-- **A node that is pushed moves with its arguments.**  The two hypotheses about `a` and `a'` hold
by `rfl` for every function of the emitter, since each gives its node the arguments by a list and
the rest by constants. -/
theorem relocates_push (l : List ValueRef) {a a' : Armlet} (hn : 0 < n) (hl : ∀ v ∈ l, v < n)
    (ha : a.args = slots l)
    (ha' : a' = { a with args := slots (l.map (shifted d)) }) :
      ReturnsValue em d (em.push a) (em.push a') n := by
  refine alike_emit ⟨rfl, fun k => ?_, ?_⟩ ⟨?_, Nat.lt_succ_self n⟩
  · show a.args.get k < n
    rw [ha]
    exact slots_get_lt hn hl k
  · rw [ha', slots_map, ← ha]
    rfl
  · rw [shifted, Emission.valueAt, if_neg hn.ne']
    show n + d = d + 1 + n - 1
    omega

/-- A node without arguments. -/
theorem relocates_leaf {a : Armlet} (hn : 0 < n) (ha : a = { a with args := slots [] }) :
    ReturnsValue em d (em.push a) (em.push a) n :=
  relocates_push [] hn none_lt (congrArg Armlet.args ha) ha

theorem returnsUnit_push (l : List ValueRef) {a a' : Armlet} (hn : 0 < n) (hl : ∀ v ∈ l, v < n)
    (ha : a.args = slots l)
    (ha' : a' = { a with args := slots (l.map (shifted d)) }) :
    ReturnsUnit em d (em.push a >>= fun _ => pure ()) (em.push a' >>= fun _ => pure ()) n :=
  (relocates_push l hn hl ha ha').bind fun _ _ _ _ => trivial

theorem one_lt {a : Nat} (ha : a < n) : ∀ v ∈ [a], v < n := List.forall_mem_singleton.mpr ha

theorem two_lt {a b : Nat} (ha : a < n) (hb : b < n) : ∀ v ∈ [a, b], v < n :=
  List.forall_mem_cons.mpr ⟨ha, one_lt hb⟩

theorem three_lt {a b c : Nat} (ha : a < n) (hb : b < n) (hc : c < n) : ∀ v ∈ [a, b, c], v < n :=
  List.forall_mem_cons.mpr ⟨ha, two_lt hb hc⟩

namespace IrEmitter

variable {a b : Nat} {size : RegSize}

theorem relocates_constU32 (hn : 0 < n) (x : U32) : ReturnsValue em d (em.constU32 x) (em.constU32 x) n :=
  relocates_leaf hn rfl

theorem relocates_constU64 (hn : 0 < n) (x : U64) : ReturnsValue em d (em.constU64 x) (em.constU64 x) n :=
  relocates_leaf hn rfl

theorem relocates_getX (hn : 0 < n) (reg : U8) : ReturnsValue em d (em.getX reg) (em.getX reg) n := by
  rw [getX]
  split
  · exact relocates_constU64 hn 0
  · exact relocates_leaf hn rfl

theorem relocates_getW (hn : 0 < n) (reg : U8) : ReturnsValue em d (em.getW reg) (em.getW reg) n := by
  rw [getW]
  split
  · exact relocates_constU32 hn 0
  · exact relocates_leaf hn rfl

theorem relocates_getGpr (hn : 0 < n) (reg : U8) (size : RegSize) :
    ReturnsValue em d (em.getGpr reg size) (em.getGpr reg size) n := by
  cases size
  · exact relocates_getW hn reg
  · exact relocates_getX hn reg

theorem relocates_getXOrSp (hn : 0 < n) (reg : U8) (spForm : Bool) :
    ReturnsValue em d (em.getXOrSp reg spForm) (em.getXOrSp reg spForm) n := by
  rw [getXOrSp]
  split
  · split
    · exact relocates_leaf hn rfl
    · exact relocates_constU64 hn 0
  · exact relocates_getX hn reg

theorem relocates_setX (ha : a < n) (reg : U8) :
    ReturnsUnit em d (em.setX reg a) (em.setX reg (shifted d a)) n := by
  rw [setX, setX]
  split
  · exact returnsUnit_pure
  · exact returnsUnit_push [a] (Nat.zero_lt_of_lt ha) (one_lt ha) rfl rfl

theorem relocates_setW (ha : a < n) (reg : U8) :
    ReturnsUnit em d (em.setW reg a) (em.setW reg (shifted d a)) n := by
  rw [setW, setW]
  split
  · exact returnsUnit_pure
  · exact returnsUnit_push [a] (Nat.zero_lt_of_lt ha) (one_lt ha) rfl rfl

theorem relocates_setGpr (ha : a < n) (reg : U8) (size : RegSize) :
    ReturnsUnit em d (em.setGpr reg a size) (em.setGpr reg (shifted d a) size) n := by
  cases size
  · exact relocates_setW ha reg
  · exact relocates_setX ha reg

theorem relocates_setSp (ha : a < n) : ReturnsUnit em d (em.setSp a) (em.setSp (shifted d a)) n :=
  returnsUnit_push [a] (Nat.zero_lt_of_lt ha) (one_lt ha) rfl rfl

theorem relocates_setXOrSp (ha : a < n) (reg : U8) (spForm : Bool) :
    ReturnsUnit em d (em.setXOrSp reg a spForm) (em.setXOrSp reg (shifted d a) spForm) n := by
  rw [setXOrSp, setXOrSp]
  split
  · split
    · exact relocates_setSp ha
    · exact returnsUnit_pure
  · exact relocates_setX ha reg

theorem relocates_setGprOrSp (ha : a < n) (reg : U8) (size : RegSize) (spForm : Bool) :
    ReturnsUnit em d (em.setGprOrSp reg a size spForm) (em.setGprOrSp reg (shifted d a) size spForm) n := by
  rw [setGprOrSp, setGprOrSp]
  split
  · split
    · exact relocates_setSp ha
    · exact returnsUnit_pure
  · exact relocates_setGpr ha reg size

theorem relocates_sizedNode {opW opX : Op} {l : List ValueRef} (hn : 0 < n) (hl : ∀ v ∈ l, v < n)
    (size : RegSize) :
    ReturnsValue em d (em.sizedNode opW opX l size) (em.sizedNode opW opX (l.map (shifted d)) size) n := by
  cases size
  · exact relocates_push l hn hl rfl rfl
  · exact relocates_push l hn hl rfl rfl

theorem relocates_binary {opW opX : Op} (ha : a < n) (hb : b < n) (size : RegSize) :
    ReturnsValue em d (em.binary opW opX a b size) (em.binary opW opX (shifted d a) (shifted d b) size) n := by
  cases size
  · exact relocates_push [a, b] (Nat.zero_lt_of_lt ha) (two_lt ha hb) rfl rfl
  · exact relocates_push [a, b] (Nat.zero_lt_of_lt ha) (two_lt ha hb) rfl rfl

theorem relocates_binaryConst {opW opX : Op} (ha : a < n) (x : U64) (size : RegSize) :
    ReturnsValue em d (em.constU64 x >>= fun c => em.binary opW opX a c size)
      (em.constU64 x >>= fun c => em.binary opW opX (shifted d a) c size) n :=
  (relocates_constU64 (Nat.zero_lt_of_lt ha) x).bind fun _ _ hle hc => relocates_binary
    (Nat.lt_of_lt_of_le ha hle) hc size

theorem relocates_binaryFlags {opW opX : Op} (ha : a < n) (hb : b < n) (size : RegSize) :
    ReturnsValue em d (em.binaryFlags opW opX a b size)
      (em.binaryFlags opW opX (shifted d a) (shifted d b) size) n := by
  cases size
  · exact relocates_push [a, b] (Nat.zero_lt_of_lt ha) (two_lt ha hb) rfl rfl
  · exact relocates_push [a, b] (Nat.zero_lt_of_lt ha) (two_lt ha hb) rfl rfl

theorem relocates_getNzcv (hn : 0 < n) : ReturnsValue em d em.getNzcv em.getNzcv n :=
  relocates_leaf hn rfl

theorem relocates_setNzcv (ha : a < n) : ReturnsUnit em d (em.setNzcv a) (em.setNzcv (shifted d a)) n :=
  returnsUnit_push [a] (Nat.zero_lt_of_lt ha) (one_lt ha) rfl rfl

theorem relocates_logicFlags (ha : a < n) (size : RegSize) :
    ReturnsUnit em d (em.logicFlags a size) (em.logicFlags (shifted d a) size) n :=
  returnsUnit_push [a] (Nat.zero_lt_of_lt ha) (one_lt ha) rfl rfl

theorem relocates_csel {c : Nat} (ha : a < n) (hb : b < n) (hc : c < n) (cond : Nat) (size : RegSize) :
    ReturnsValue em d (em.csel a b c cond size)
      (em.csel (shifted d a) (shifted d b) (shifted d c) cond size) n := by
  cases size
  · exact relocates_push [a, b, c] (Nat.zero_lt_of_lt ha) (three_lt ha hb hc) rfl rfl
  · exact relocates_push [a, b, c] (Nat.zero_lt_of_lt ha) (three_lt ha hb hc) rfl rfl

/-- The sizes of accesses are written as powers of two; the functions of the emitter match on the
number. -/
theorem pow_cases {k : Nat} (hk : k ≤ 4) : 2 ^ k = 1 ∨ 2 ^ k = 2 ∨ 2 ^ k = 4 ∨ 2 ^ k = 8 ∨ 2 ^ k = 16 := by
  obtain rfl | rfl | rfl | rfl | rfl : k = 0 ∨ k = 1 ∨ k = 2 ∨ k = 3 ∨ k = 4 := by omega
  all_goals simp

theorem relocates_load (ha : a < n) {k : Nat} (hk : k ≤ 4) :
    ReturnsValue em d (em.load a (2 ^ k)) (em.load (shifted d a) (2 ^ k)) n := by
  rcases pow_cases hk with h | h | h | h | h
  all_goals
    rw [h]
    exact relocates_push [a] (Nat.zero_lt_of_lt ha) (one_lt ha) rfl rfl

theorem relocates_store (ha : a < n) (hb : b < n) {k : Nat} (hk : k ≤ 4) :
    ReturnsUnit em d (em.store a b (2 ^ k)) (em.store (shifted d a) (shifted d b) (2 ^ k)) n := by
  rcases pow_cases hk with h | h | h | h | h
  all_goals
    rw [h]
    exact returnsUnit_push [a, b] (Nat.zero_lt_of_lt ha) (two_lt ha hb) rfl rfl

end IrEmitter

open IrEmitter

/-! ## Additions, and logical operations -/

theorem relocates_addSubResult (sub setFlags : Bool) (rd : U8) {size : RegSize} {a b : Nat}
    (ha : a < n) (hb : b < n) :
    Continues em d (addSubResult em sub setFlags rd size a b)
      (addSubResult em sub setFlags rd size (shifted d a) (shifted d b)) n := by
  cases setFlags with
  | true =>
    cases sub <;>
      exact (relocates_binaryFlags ha hb size).bind fun r m _ hr => (relocates_setGpr hr rd size).continues
  | false =>
    cases sub <;>
      exact (relocates_binary ha hb size).bind fun r m _ hr => (relocates_setGprOrSp hr rd size true).continues

theorem AddsubImm.relocates (insn : AddsubImm) (hn : 0 < n) :
    Continues em d (insn.translate em) (insn.translate em) n := by
  rw [translate]
  split
  · exact continues_fail _
  · refine (relocates_getXOrSp hn _ _).bind fun a m1 h1 ha => ?_
    refine (relocates_constU64 (by omega) _).bind fun b m2 h2 hb => ?_
    exact relocates_addSubResult _ _ _ (by omega) hb

namespace AddsubExt

theorem relocates_emitExtend {b : Nat} (hb : b < n) (width : Nat) (signed : Bool) :
    ReturnsValue em d (emitExtend em width signed b) (emitExtend em width signed (shifted d b)) n := by
  rw [emitExtend, emitExtend]
  split
  · refine (relocates_constU64 (by omega) _).bind fun mask m1 h1 hmask => ?_
    refine (relocates_binary (by omega) hmask _).bind fun v m2 h2 hv => ?_
    split
    · refine (relocates_constU64 (by omega) _).bind fun shl m3 h3 hshl => ?_
      refine (relocates_binary (by omega) hshl _).bind fun sh1 m4 h4 hsh1 => ?_
      exact relocates_binaryConst (by omega) _ _
    · exact returnsValue_pure hv
  · exact returnsValue_pure hb

theorem relocates_emitShift {b : Nat} (hb : b < n) (imm3 : Nat) :
    ReturnsValue em d (emitShift em imm3 b) (emitShift em imm3 (shifted d b)) n := by
  rw [emitShift, emitShift]
  split
  · exact relocates_binaryConst hb _ _
  · exact returnsValue_pure hb

theorem relocates_emitCut {b : Nat} (hb : b < n) (size : RegSize) :
    ReturnsValue em d (emitCut em size b) (emitCut em size (shifted d b)) n := by
  rw [emitCut, emitCut]
  split
  · exact relocates_binaryConst hb _ _
  · exact returnsValue_pure hb

theorem relocates (insn : AddsubExt) (hn : 0 < n) :
    Continues em d (insn.translate em) (insn.translate em) n := by
  rw [translate]
  dsimp only
  split
  · exact continues_fail _
  · refine (relocates_getXOrSp hn _ _).bind fun a m1 h1 ha => ?_
    refine (relocates_getX (by omega) _).bind fun b m2 h2 hb => ?_
    refine (relocates_emitExtend hb _ _).bind fun ext m3 h3 hext => ?_
    refine (relocates_emitShift hext _).bind fun sh m4 h4 hsh => ?_
    refine (relocates_emitCut hsh _).bind fun cut m5 h5 hcut => ?_
    exact relocates_addSubResult _ _ _ (by omega) hcut

end AddsubExt

/-- A shift that is no rotation has an operation of its own.  A class without rotations has rejected
them before it comes here, and the branch that the source calls unreachable is ruled out by that. -/
theorem relocates_emitShiftReg {b shift : Nat} (hb : b < n) {rotates : Bool}
    (hshift : rotates = true ∨ shift < 3)
    (size : RegSize) (imm6 : Nat) :
    ReturnsValue em d (emitShiftReg em rotates size shift imm6 b)
      (emitShiftReg em rotates size shift imm6 (shifted d b))
      n := by
  rw [emitShiftReg, emitShiftReg]
  split
  · refine (relocates_constU64 (by omega) _).bind fun amt m h hamt => ?_
    split
    · exact relocates_binary (by omega) hamt _
    · exact relocates_binary (by omega) hamt _
    · exact relocates_binary (by omega) hamt _
    · split
      · exact relocates_binary (by omega) hamt _
      · next h0 h1 h2 hno =>
        have hlt := hshift.resolve_left hno
        obtain rfl | rfl | rfl : shift = 0 ∨ shift = 1 ∨ shift = 2 := by omega
        · exact (h0 rfl).elim
        · exact (h1 rfl).elim
        · exact (h2 rfl).elim
  · exact returnsValue_pure hb

namespace AddsubShift

theorem relocates_emitResult (sub setFlags : Bool) (rd : U8) {size : RegSize} {a b : Nat}
    (ha : a < n) (hb : b < n) :
    Continues em d (emitResult em sub setFlags rd size a b)
      (emitResult em sub setFlags rd size (shifted d a) (shifted d b)) n := by
  cases setFlags with
  | true =>
    cases sub <;>
      exact (relocates_binaryFlags ha hb size).bind fun r m _ hr => (relocates_setGpr hr rd size).continues
  | false =>
    cases sub <;> exact (relocates_binary ha hb size).bind fun r m _ hr =>
      (relocates_setGpr hr rd size).continues

theorem relocates (insn : AddsubShift) (hn : 0 < n) :
    Continues em d (insn.translate em) (insn.translate em) n := by
  rw [translate]
  dsimp only
  split
  · exact continues_fail _
  · next hshift =>
    split
    · exact continues_fail _
    · have hlt := bits_lt insn.fields.1 22 (by decide : 2 < 32)
      refine (relocates_getGpr hn _ _).bind fun a m1 h1 ha => ?_
      refine (relocates_getGpr (by omega) _ _).bind fun b m2 h2 hb => ?_
      refine (relocates_emitShiftReg hb (.inr (by omega)) _ _).bind fun sh m3 h3 hsh => ?_
      exact relocates_emitResult _ _ _ (by omega) hsh

end AddsubShift

namespace LogOp

theorem relocates_emit (op : LogOp) {a b : Nat} (ha : a < n) (hb : b < n) (size : RegSize) :
    ReturnsValue em d (op.emit em a b size) (op.emit em (shifted d a) (shifted d b) size) n := by
  cases op <;> exact relocates_binary ha hb size

theorem relocates_emitFlags (op : LogOp) {a : Nat} (ha : a < n) (size : RegSize) :
    ReturnsUnit em d (op.emitFlags em a size) (op.emitFlags em (shifted d a) size) n := by
  rw [emitFlags, emitFlags]
  split
  · exact relocates_logicFlags ha size
  · exact returnsUnit_pure

end LogOp

namespace LogShift

theorem relocates_emitInverted {b : Nat} (hb : b < n) (inverted : Bool) (sf : Nat) (size : RegSize) :
    ReturnsValue em d (emitInverted em inverted sf size b)
      (emitInverted em inverted sf size (shifted d b)) n := by
  rw [emitInverted, emitInverted]
  split
  · exact relocates_binaryConst hb _ _
  · exact returnsValue_pure hb

theorem relocates (insn : LogShift) (hn : 0 < n) :
    Continues em d (insn.translate em) (insn.translate em) n := by
  rw [translate]
  dsimp only
  split
  · exact continues_fail _
  · refine (relocates_getGpr hn _ _).bind fun a m1 h1 ha => ?_
    refine (relocates_getGpr (by omega) _ _).bind fun b m2 h2 hb => ?_
    refine (relocates_emitShiftReg hb (.inl rfl) _ _).bind fun sh m3 h3 hsh => ?_
    refine (relocates_emitInverted hsh _ _ _).bind fun inv m4 h4 hinv => ?_
    refine (LogOp.relocates_emit _ (by omega) hinv _).bind fun r m5 h5 hr => ?_
    refine (LogOp.relocates_emitFlags _ hr _).bind fun m6 h6 => ?_
    exact (relocates_setGpr (by omega) _ _).continues

end LogShift

theorem LogImm.relocates (insn : LogImm) (hn : 0 < n) :
    Continues em d (insn.translate em) (insn.translate em) n := by
  rw [translate]
  dsimp only
  split
  · exact continues_fail _
  · split
    · exact continues_fail _
    · refine (relocates_getGpr hn _ _).bind fun a m1 h1 ha => ?_
      refine (relocates_constU64 (by omega) _).bind fun b m2 h2 hb => ?_
      refine (LogOp.relocates_emit _ (by omega) hb _).bind fun r m3 h3 hr => ?_
      refine (LogOp.relocates_emitFlags _ hr _).bind fun m4 h4 => ?_
      exact (relocates_setGprOrSp (by omega) _ _ _).continues

namespace Extract

theorem relocates_emitExtract (hn : 0 < n) (size : RegSize) (width imms : Nat) (rn rm : U8) :
    ReturnsValue em d (emitExtract em size width imms rn rm) (emitExtract em size width imms rn rm) n := by
  rw [emitExtract]
  split
  · exact relocates_getGpr hn _ _
  · split
    · refine (relocates_getGpr hn _ _).bind fun v m1 h1 hv => ?_
      exact relocates_binaryConst hv _ _
    · refine (relocates_getGpr hn _ _).bind fun hi m1 h1 hhi => ?_
      refine (relocates_getGpr (by omega) _ _).bind fun lo m2 h2 hlo => ?_
      refine (relocates_constU64 (by omega) _).bind fun hiShift m3 h3 hhiShift => ?_
      refine (relocates_constU64 (by omega) _).bind fun loShift m4 h4 hloShift => ?_
      refine (relocates_binary (by omega) (by omega) _).bind fun hiPart m5 h5 hhiPart => ?_
      refine (relocates_binary (by omega) (by omega) _).bind fun loPart m6 h6 hloPart => ?_
      exact relocates_binary (by omega) hloPart _

theorem relocates (insn : Extract) (hn : 0 < n) : Continues em d (insn.translate em) (insn.translate em) n := by
  rw [translate]
  dsimp only
  split
  · exact continues_fail _
  · split
    all_goals
      split
      · exact continues_fail _
      · refine (relocates_emitExtract hn _ _ _ _ _).bind fun r m h hr => ?_
        exact (relocates_setGpr hr _ _).continues

end Extract

/-! ## Conditions -/

namespace AddsubCarry

theorem relocates (insn : AddsubCarry) (hn : 0 < n) :
    Continues em d (insn.translate em) (insn.translate em) n := by
  rw [translate]
  refine (relocates_getGpr hn _ _).bind fun a m1 h1 ha => ?_
  refine (relocates_getGpr (by omega) _ _).bind fun b m2 h2 hb => ?_
  refine (relocates_getNzcv (by omega)).bind fun nzcv m3 h3 hnzcv => ?_
  have hop :
    ReturnsValue em d (emitOp em insn.fields.2.1 insn.fields.2.2 [a, b, nzcv] (sizeOf (bit insn.fields.1 31)))
      (emitOp em insn.fields.2.1 insn.fields.2.2 [shifted d a, shifted d b, shifted d nzcv]
        (sizeOf (bit insn.fields.1 31))) m3 := by
    cases insn.fields.2.1 <;> cases insn.fields.2.2 <;>
      exact relocates_sizedNode (by omega) (three_lt (by omega) (by omega) hnzcv) _
  refine hop.bind fun r m4 h4 hr => ?_
  exact (relocates_setGpr hr _ _).continues

end AddsubCarry

namespace Condsel

theorem relocates_emitFalse (kind : Kind) {v one allOnes : Nat} (hv : v < n) (hone : one < n)
    (hall : allOnes < n)
    (size : RegSize) : ReturnsValue em d (emitFalse em kind v one allOnes size)
      (emitFalse em kind (shifted d v) (shifted d one) (shifted d allOnes) size) n := by
  cases kind with
  | csel => exact returnsValue_pure hv
  | csinc => exact relocates_binary hv hone size
  | csinv => exact relocates_binary hv hall size
  | csneg =>
    refine (relocates_constU64 (by omega) _).bind fun z m h hz => ?_
    exact relocates_binary hz (by omega) size

theorem relocates (insn : Condsel) (hn : 0 < n) : Continues em d (insn.translate em) (insn.translate em) n := by
  rw [translate]
  refine (relocates_getGpr hn _ _).bind fun t m1 h1 ht => ?_
  refine (relocates_getGpr (by omega) _ _).bind fun v m2 h2 hv => ?_
  refine (relocates_constU64 (by omega) _).bind fun one m3 h3 hone => ?_
  refine (relocates_constU64 (by omega) _).bind fun allOnes m4 h4 hall => ?_
  refine (relocates_emitFalse _ (by omega) (by omega) hall _).bind fun v' m5 h5 hv' => ?_
  refine (relocates_getNzcv (by omega)).bind fun nzcv m6 h6 hnzcv => ?_
  refine (relocates_csel (by omega) (by omega) hnzcv _ _).bind fun r m7 h7 hr => ?_
  exact (relocates_setGpr hr _ _).continues

end Condsel

theorem relocates_emitCompare {old a b : Nat} (hold : old < n) (ha : a < n) (hb : b < n) (isSub : Bool)
    (cond nzcvImm : Nat) (size : RegSize) :
      Continues em d (Rustarmic.emitCompare em isSub cond nzcvImm size old a b)
      (Rustarmic.emitCompare em isSub cond nzcvImm size (shifted d old) (shifted d a) (shifted d b)) n := by
  have hcompare : ReturnsValue em d (emitComparison em isSub a b size)
      (emitComparison em isSub (shifted d a) (shifted d b) size) n := by
    rw [emitComparison, emitComparison]
    split <;> exact relocates_binaryFlags ha hb size
  refine hcompare.bind fun _ m1 h1 _ => ?_
  refine (relocates_getNzcv (by omega)).bind fun compare m2 h2 hcompare => ?_
  refine (relocates_leaf (by omega) rfl).bind fun imm m3 h3 himm => ?_
  refine (relocates_csel (by omega) himm (by omega) _ _).bind fun selected m4 h4 hselected => ?_
  exact (relocates_setNzcv hselected).continues

theorem CondcmpReg.relocates (insn : CondcmpReg) (hn : 0 < n) :
    Continues em d (insn.translate em) (insn.translate em) n := by
  rw [translate]
  refine (relocates_getNzcv hn).bind fun old m1 h1 hold => ?_
  refine (relocates_getGpr (by omega) _ _).bind fun a m2 h2 ha => ?_
  refine (relocates_getGpr (by omega) _ _).bind fun b m3 h3 hb => ?_
  exact relocates_emitCompare (by omega) (by omega) hb _ _ _ _

theorem CondcmpImm.relocates (insn : CondcmpImm) (hn : 0 < n) :
    Continues em d (insn.translate em) (insn.translate em) n := by
  rw [translate]
  refine (relocates_getNzcv hn).bind fun old m1 h1 hold => ?_
  refine (relocates_getGpr (by omega) _ _).bind fun a m2 h2 ha => ?_
  refine (relocates_constU64 (by omega) _).bind fun b m3 h3 hb => ?_
  exact relocates_emitCompare (by omega) (by omega) hb _ _ _ _

/-! ## Products, shifts, quotients -/

namespace Dp3src

theorem relocates_widenWToX {v : Nat} (hv : v < n) (signed : Bool) :
    ReturnsValue em d (widenWToX em v signed) (widenWToX em (shifted d v) signed) n := by
  refine (relocates_constU64 (by omega) _).bind fun mask m1 h1 hmask => ?_
  refine (relocates_binary (by omega) hmask _).bind fun masked m2 h2 hmasked => ?_
  split
  · refine (relocates_constU64 (by omega) _).bind fun shl m3 h3 hshl => ?_
    refine (relocates_binary (by omega) hshl _).bind fun s1 m4 h4 hs1 => ?_
    exact relocates_binaryConst (by omega) _ _
  · exact returnsValue_pure hmasked

theorem relocates_emitSum {a prod : Nat} (ha : a < n) (hprod : prod < n) (subtracts : Bool) (size : RegSize) :
    ReturnsValue em d (emitSum em subtracts a prod size)
      (emitSum em subtracts (shifted d a) (shifted d prod) size) n := by
  rw [emitSum, emitSum]
  split <;> exact relocates_binary ha hprod size

theorem relocates_emitMultiply (hn : 0 < n) (raw : U32) (subtracts : Bool) :
    Continues em d (emitMultiply em raw subtracts) (emitMultiply em raw subtracts) n := by
  refine (relocates_getGpr hn _ _).bind fun a m1 h1 ha => ?_
  refine (relocates_getGpr (by omega) _ _).bind fun b m2 h2 hb => ?_
  refine (relocates_getGpr (by omega) _ _).bind fun c m3 h3 hc => ?_
  refine (relocates_binary (by omega) (by omega) _).bind fun prod m4 h4 hprod => ?_
  refine (relocates_emitSum (by omega) hprod _ _).bind fun r m5 h5 hr => ?_
  exact (relocates_setGpr hr _ _).continues

theorem relocates_emitHigh (hn : 0 < n) (raw : U32) (signed : Bool) :
    Continues em d (emitHigh em raw signed) (emitHigh em raw signed) n := by
  refine (relocates_getX hn _).bind fun a m1 h1 ha => ?_
  refine (relocates_getX (by omega) _).bind fun b m2 h2 hb => ?_
  refine (relocates_push [a, b] (by omega) (two_lt (by omega) hb) rfl rfl).bind fun hi m3 h3 hhi => ?_
  exact (relocates_setX hhi _).continues

theorem relocates_emitLong (hn : 0 < n) (raw : U32) (signed subtracts : Bool) :
    Continues em d (emitLong em raw signed subtracts) (emitLong em raw signed subtracts) n := by
  refine (relocates_getW hn _).bind fun a m1 h1 ha => ?_
  refine (relocates_getW (by omega) _).bind fun b m2 h2 hb => ?_
  refine (relocates_getX (by omega) _).bind fun c m3 h3 hc => ?_
  refine (relocates_widenWToX (by omega) _).bind fun a64 m4 h4 ha64 => ?_
  refine (relocates_widenWToX (by omega) _).bind fun b64 m5 h5 hb64 => ?_
  refine (relocates_binary (by omega) hb64 _).bind fun prod m6 h6 hprod => ?_
  refine (relocates_emitSum (by omega) hprod _ _).bind fun r m7 h7 hr => ?_
  exact (relocates_setX hr _).continues

theorem relocates (insn : Dp3src) (hn : 0 < n) : Continues em d (insn.translate em) (insn.translate em) n := by
  rw [translate]
  dsimp only
  split
  · exact relocates_emitMultiply hn _ _
  · exact relocates_emitMultiply hn _ _
  · exact relocates_emitHigh hn _ _
  · exact relocates_emitHigh hn _ _
  · exact relocates_emitLong hn _ _ _
  · exact relocates_emitLong hn _ _ _
  · exact relocates_emitLong hn _ _ _
  · exact relocates_emitLong hn _ _ _

end Dp3src

namespace Dp2src

theorem relocates_translateCrc (hn : 0 < n) (raw : U32) :
    Continues em d (translateCrc em raw) (translateCrc em raw) n := by
  refine (relocates_getW hn _).bind fun acc m1 h1 hacc => ?_
  refine (relocates_getGpr (by omega) _ _).bind fun v m2 h2 hv => ?_
  refine (relocates_push [acc, v] (by omega) (two_lt (by omega) hv) rfl rfl).bind fun r m3 h3 hr => ?_
  exact (relocates_setW hr _).continues

theorem relocates_emitResult (kind : Kind) {a b : Nat} (ha : a < n) (hb : b < n) (size : RegSize) :
    ReturnsValue em d (emitResult em kind a b size)
      (emitResult em kind (shifted d a) (shifted d b) size) n := by
  cases kind with
  | udiv => exact relocates_sizedNode (Nat.zero_lt_of_lt ha) (two_lt ha hb) size
  | sdiv => exact relocates_sizedNode (Nat.zero_lt_of_lt ha) (two_lt ha hb) size
  | _ => exact relocates_binary ha hb size

theorem relocates_translateKind (hn : 0 < n) (raw : U32) (kind : Kind) :
    Continues em d (translateKind em raw kind) (translateKind em raw kind) n := by
  refine (relocates_getGpr hn _ _).bind fun a m1 h1 ha => ?_
  refine (relocates_getGpr (by omega) _ _).bind fun b m2 h2 hb => ?_
  refine (relocates_emitResult kind (by omega) hb _).bind fun r m3 h3 hr => ?_
  exact (relocates_setGpr hr _ _).continues

theorem relocates (insn : Dp2src) (hn : 0 < n) : Continues em d (insn.translate em) (insn.translate em) n := by
  cases insn with
  | lslvRdRnRm i | lsrvRdRnRm i | asrvRdRnRm i | rorvRdRnRm i | udivRdRnRm i | sdivRdRnRm i =>
    exact relocates_translateKind hn i _
  | other i => exact continues_fail _
  | _ i => exact relocates_translateCrc hn i

end Dp2src

theorem DataInsn.relocates (insn : DataInsn) (hn : 0 < n) :
    Continues em d (insn.translate em) (insn.translate em) n := by
  cases insn with
  | addsubShift insn => exact insn.relocates hn
  | logShift insn => exact insn.relocates hn
  | logImm insn => exact insn.relocates hn
  | addsubCarry insn => exact insn.relocates hn
  | condsel insn => exact insn.relocates hn
  | condcmpReg insn => exact insn.relocates hn
  | condcmpImm insn => exact insn.relocates hn
  | dp3src insn => exact insn.relocates hn
  | dp2src insn => exact insn.relocates hn
  | extract insn => exact insn.relocates hn

/-! ## Bitfields -/

namespace BitfieldInsn

theorem exists_lowMask (bitsN : Nat) (size : RegSize) : ∃ mask, lowMask bitsN size.bits = pure mask := by
  have hbits := bits_le size
  rw [lowMask]
  split
  · rw [checkedSub, if_pos hbits.2]
    exact ⟨_, if_pos (by omega)⟩
  · rw [checkedShl, if_pos (by omega)]
    exact ⟨_, rfl⟩

variable {size : RegSize} {immr imms : Nat}

theorem relocates_emitField (himmr : immr < size.bits) {src : Nat} (hsrc : src < n) :
    Relocates em d (emitField em size immr imms src) (emitField em size immr imms (shifted d src)) n
      fun p p' m => p' = (shifted d p.1, p.2) ∧ p.1 < m := by
  have hbits := bits_le size
  rw [emitField, emitField]
  split
  · obtain ⟨mask, hmask⟩ := exists_lowMask (imms - immr + 1) size
    dsimp only
    rw [hmask]
    refine (relocates_constU64 (by omega) _).bind fun amt m1 h1 hamt => ?_
    refine (relocates_binary (by omega) hamt _).bind fun sh m2 h2 hsh => ?_
    refine (relocates_constU64 (by omega) _).bind fun maskC m3 h3 hmaskC => ?_
    exact (relocates_binary (by omega) hmaskC _).bind fun bot m4 h4 hbot => ⟨rfl, hbot⟩
  · next hgt =>
    have hshl : imms + 1 < 64 := by omega
    dsimp only
    rw [checkedShl, if_pos hshl, checkedSub, if_pos (by omega)]
    refine (relocates_constU64 (by omega) _).bind fun maskC m1 h1 hmaskC => ?_
    refine (relocates_binary (by omega) hmaskC _).bind fun masked m2 h2 hmasked => ?_
    refine (relocates_constU64 (by omega) _).bind fun shiftC m3 h3 hshiftC => ?_
    exact (relocates_binary (by omega) hshiftC _).bind fun bot m4 h4 hbot => ⟨rfl, hbot⟩

theorem exists_highBitOf (himmr : immr < size.bits) (himms : imms < size.bits) :
    ∃ high, highBitOf size immr imms = pure high ∧ high ≤ size.bits - 1 := by
  rw [highBitOf]
  split
  · exact ⟨_, if_pos (by omega), by omega⟩
  · exact ⟨_, if_pos (by omega), by omega⟩

theorem relocates_emitSigned (himmr : immr < size.bits) (himms : imms < size.bits) {bot : Nat}
    (hbot : bot < n) :
    ReturnsValue em d (emitSigned em size immr imms bot) (emitSigned em size immr imms (shifted d bot)) n := by
  obtain ⟨high, hhigh, hle⟩ := exists_highBitOf himmr himms
  have hpos : 1 ≤ size.bits := by omega
  rw [emitSigned, emitSigned, hhigh]
  refine relocates_pure_bind ?_
  rw [checkedSub, if_pos hpos]
  refine relocates_pure_bind ?_
  rw [checkedSub, if_pos hle]
  refine relocates_pure_bind ?_
  refine (relocates_constU64 (by omega) _).bind fun amt m1 h1 hamt => ?_
  refine (relocates_binary (by omega) hamt _).bind fun sh m2 h2 hsh => ?_
  exact relocates_binaryConst hsh _ _

theorem exists_takenMask (himmr : immr < size.bits) (lowMaskBits : Nat) :
    ∃ mask, takenMask size immr imms lowMaskBits = pure mask := by
  have hbits := bits_le size
  rw [takenMask]
  split
  · exact exists_lowMask _ size
  · rw [checkedShl, if_pos (by omega), checkedSub, if_pos himmr.le]
    exact ⟨_, rfl⟩

theorem relocates_emitInsert (himmr : immr < size.bits) {bot : Nat} (hbot : bot < n)
    (rd : U8) (lowMaskBits : Nat) :
    ReturnsValue em d (emitInsert em rd size immr imms lowMaskBits bot)
      (emitInsert em rd size immr imms lowMaskBits (shifted d bot)) n := by
  obtain ⟨mask, hmask⟩ := exists_takenMask himmr lowMaskBits
  rw [emitInsert, emitInsert, hmask]
  refine (relocates_getGpr (by omega) _ _).bind fun prev m1 h1 hprev => ?_
  refine (relocates_constU64 (by omega) _).bind fun clear m2 h2 hclear => ?_
  refine (relocates_binary (by omega) hclear _).bind fun cleared m3 h3 hcleared => ?_
  exact relocates_binary hcleared (by omega) _

theorem relocates_emitResult (kind : BitfieldKind) (himmr : immr < size.bits)
    (himms : imms < size.bits) {bot : Nat}
    (hbot : bot < n) (rd : U8) (lowMaskBits : Nat) :
    ReturnsValue em d (emitResult em kind rd size immr imms lowMaskBits bot)
      (emitResult em kind rd size immr imms lowMaskBits (shifted d bot)) n := by
  cases kind with
  | ubfm => exact returnsValue_pure hbot
  | sbfm => exact relocates_emitSigned himmr himms hbot
  | bfm => exact relocates_emitInsert himmr hbot rd lowMaskBits

/-- The translator tests the fields against the size and fails when they are too large.  Its masks
are computed behind that test with shifts that are checked, and the test is what keeps these from
failing. -/
theorem relocates (insn : BitfieldInsn) (hn : 0 < n) :
    Continues em d (insn.translate em) (insn.translate em) n := by
  have himmr := bits_lt insn.fields.1 16 (by decide : 6 < 32)
  have himms := bits_lt insn.fields.1 10 (by decide : 6 < 32)
  rw [translate]
  dsimp only
  split
  · exact continues_fail _
  · next hok =>
    have hfits : bits insn.fields.1 16 6 < (sizeOf (bit insn.fields.1 31)).bits ∧
        bits insn.fields.1 10 6 < (sizeOf (bit insn.fields.1 31)).bits := by
      rcases bit_cases insn.fields.1 31 with h | h
      · rw [h] at hok ⊢
        show _ < 32 ∧ _ < 32
        omega
      · rw [h]
        exact ⟨himmr, himms⟩
    refine (relocates_getGpr hn _ _).bind fun src m1 h1 hsrc => ?_
    refine Alike.bind (relocates_emitField hfits.1 hsrc) ?_
    rintro ⟨bot, low⟩ _ m2 h2 ⟨rfl, hbot⟩
    refine (relocates_emitResult _ hfits.1 hfits.2 hbot _ _).bind fun r m3 h3 hr => ?_
    exact (relocates_setGpr hr _ _).continues

end BitfieldInsn

/-! ## Loads and stores -/

section access

variable {v addr k size : Nat} {rt : U8}

theorem relocates_emitSignExtend (hv : v < n) (shift : Nat) :
    ReturnsValue em d (emitSignExtend em shift v) (emitSignExtend em shift (shifted d v)) n := by
  refine (relocates_constU64 (by omega) _).bind fun shl m1 h1 hshl => ?_
  refine (relocates_binary (by omega) hshl _).bind fun s1 m2 h2 hs1 => ?_
  exact relocates_binaryConst hs1 _ _

theorem relocates_emitPromote (hv : v < n) (bytes : Nat) :
    ReturnsValue em d (emitPromote em bytes v) (emitPromote em bytes (shifted d v)) n := by
  rw [emitPromote, emitPromote]
  split
  · refine (relocates_constU32 (by omega) _).bind fun mask m h hmask => ?_
    exact relocates_binary (by omega) hmask _
  · exact returnsValue_pure hv

theorem relocates_setVS (hv : v < n) (reg : U8) :
    ReturnsUnit em d (em.setVS reg v) (em.setVS reg (shifted d v)) n :=
  returnsUnit_push [v] (Nat.zero_lt_of_lt hv) (one_lt hv) rfl rfl

theorem relocates_setVD (hv : v < n) (reg : U8) :
    ReturnsUnit em d (em.setVD reg v) (em.setVD reg (shifted d v)) n :=
  returnsUnit_push [v] (Nat.zero_lt_of_lt hv) (one_lt hv) rfl rfl

theorem relocates_setVQ (hv : v < n) (reg : U8) :
    ReturnsUnit em d (em.setVQ reg v) (em.setVQ reg (shifted d v)) n :=
  returnsUnit_push [v] (Nat.zero_lt_of_lt hv) (one_lt hv) rfl rfl

theorem relocates_getVS (hn : 0 < n) (reg : U8) : ReturnsValue em d (em.getVS reg) (em.getVS reg) n :=
  relocates_leaf hn rfl

theorem relocates_getVD (hn : 0 < n) (reg : U8) : ReturnsValue em d (em.getVD reg) (em.getVD reg) n :=
  relocates_leaf hn rfl

theorem relocates_getVQ (hn : 0 < n) (reg : U8) : ReturnsValue em d (em.getVQ reg) (em.getVQ reg) n :=
  relocates_leaf hn rfl

theorem relocates_loadQ (haddr : addr < n) :
    ReturnsValue em d (em.load addr 16) (em.load (shifted d addr) 16) n :=
  relocates_load (k := 4) haddr (Nat.le_refl 4)

theorem relocates_storeQ (haddr : addr < n) (hv : v < n) :
    ReturnsUnit em d (em.store addr v 16) (em.store (shifted d addr) (shifted d v) 16) n :=
  relocates_store (k := 4) haddr hv (Nat.le_refl 4)

theorem relocates_emitAccess (kind : AccessKind) (targetX : Bool) (raw : U32) (haddr : addr < n) (hk : k ≤ 4) :
    ReturnsUnit em d (emitAccess em kind targetX raw size (2 ^ k) rt addr)
      (emitAccess em kind targetX raw size (2 ^ k) rt (shifted d addr)) n := by
  cases kind with
  | store =>
    refine (relocates_getGpr (by omega) _ _).bind fun val m h hval => ?_
    exact relocates_store (by omega) hval hk
  | loadU =>
    refine (relocates_load haddr hk).bind fun v m h hv => ?_
    rw [emitSetUnsigned, emitSetUnsigned]
    split
    · exact relocates_setW hv rt
    · exact relocates_setX hv rt
  | loadS =>
    refine (relocates_load haddr hk).bind fun v m1 h1 hv => ?_
    refine (relocates_emitSignExtend hv _).bind fun sx m2 h2 hsx => ?_
    rw [emitSetSigned, emitSetSigned]
    split
    · exact relocates_setX hsx rt
    · exact relocates_setW hsx rt
  | fpLoad =>
    rw [emitAccess, emitAccess]
    split
    · exact (relocates_loadQ haddr).bind fun _ _ _ hq => relocates_setVQ hq rt
    · split
      · exact (relocates_load haddr hk).bind fun v m h hv => relocates_setVD hv rt
      · split
        · refine (relocates_load haddr hk).bind fun v m1 h1 hv => ?_
          exact (relocates_emitPromote hv _).bind fun w m2 h2 hw => relocates_setVS hw rt
        · exact ⟨rfl, by rintro ⟨⟩⟩
  | fpStore =>
    have hn : 0 < n := Nat.zero_lt_of_lt haddr
    rw [emitAccess, emitAccess]
    split
    · exact (relocates_getVQ hn rt).bind fun q m h hq => relocates_storeQ (by omega) hq
    · split
      · exact (relocates_getVD hn rt).bind fun v m h hv => relocates_store (by omega) hv hk
      · split
        · exact (relocates_getVS hn rt).bind fun v m h hv => relocates_store (by omega) hv hk
        · exact ⟨rfl, by rintro ⟨⟩⟩

theorem relocates_emitLdst (op : LdstOp) (raw : U32) (haddr : addr < n) :
    ReturnsUnit em d (emitLdst em op raw addr) (emitLdst em op raw (shifted d addr)) n := by
  rw [emitLdst, emitLdst, op.bytes_eq]
  exact relocates_emitAccess _ _ _ haddr (op.scale_le raw)

end access

theorem LdstPos.relocates (insn : LdstPos) (hn : 0 < n) :
    Continues em d (insn.translate em) (insn.translate em) n := by
  cases insn with
  | prfm raw => exact ⟨rfl, rfl⟩
  | access op raw =>
    refine (relocates_getXOrSp hn _ _).bind fun base m1 h1 hbase => ?_
    refine (relocates_constU64 (by omega) _).bind fun off m2 h2 hoff => ?_
    refine (relocates_binary (by omega) hoff _).bind fun addr m3 h3 haddr => ?_
    exact (relocates_emitLdst op raw haddr).continues

theorem LdstUnscaled.relocates (insn : LdstUnscaled) (hn : 0 < n) :
    Continues em d (insn.translate em) (insn.translate em) n := by
  cases insn with
  | prfum raw => exact ⟨rfl, rfl⟩
  | other raw => exact continues_fail _
  | access op raw =>
    refine (relocates_getXOrSp hn _ _).bind fun base m1 h1 hbase => ?_
    refine (relocates_constU64 (by omega) _).bind fun off m2 h2 hoff => ?_
    refine (relocates_binary (by omega) hoff _).bind fun addr m3 h3 haddr => ?_
    exact (relocates_emitLdst op raw haddr).continues

theorem LdstImm9.relocates (insn : LdstImm9) (hn : 0 < n) :
    Continues em d (insn.translate em) (insn.translate em) n := by
  cases insn with
  | other raw => exact continues_fail _
  | access op raw =>
    refine (relocates_getXOrSp hn _ _).bind fun base m1 h1 hbase => ?_
    refine (relocates_constU64 (by omega) _).bind fun off m2 h2 hoff => ?_
    refine (relocates_binary (by omega) hoff _).bind fun addr m3 h3 haddr => ?_
    dsimp only
    rw [← apply_ite (shifted d)]
    refine (relocates_emitLdst op raw (by split <;> omega)).bind fun m4 h4 => ?_
    rw [emitWriteback, emitWriteback]
    split
    · exact (relocates_setXOrSp (by omega) _ _).continues
    · exact ⟨rfl, rfl⟩

namespace LdstRegoff

theorem relocates_emitScale (op : LdstOp) (raw : U32) {off : Nat} (hoff : off < n) :
    ReturnsValue em d (emitScale em op raw off) (emitScale em op raw (shifted d off)) n := by
  rw [emitScale, emitScale]
  split
  · exact relocates_binaryConst hoff _ _
  · exact returnsValue_pure hoff

theorem relocates (insn : LdstRegoff) (hn : 0 < n) :
    Continues em d (insn.translate em) (insn.translate em) n := by
  cases insn with
  | prfm raw => exact ⟨rfl, rfl⟩
  | access op raw =>
    refine (relocates_getXOrSp hn _ _).bind fun base m1 h1 hbase => ?_
    refine (relocates_getX (by omega) _).bind fun off m2 h2 hoff => ?_
    split
    · exact continues_fail _
    · refine (AddsubExt.relocates_emitExtend hoff _ _).bind fun ext m3 h3 hext => ?_
      refine (relocates_emitScale op raw hext).bind fun scaled m4 h4 hscaled => ?_
      refine (relocates_binary (by omega) hscaled _).bind fun addr m5 h5 haddr => ?_
      exact (relocates_emitLdst op raw haddr).continues

end LdstRegoff

section pairs

variable {op : PairOp} {opc k sizeBytes : Nat} {sizeKind : RegSize} {rt rt2 : U8} {v a a2 : Nat}

theorem relocates_emitPairSet (hv : v < n) (isFp : Bool) :
    ReturnsUnit em d (emitPairSet em isFp sizeBytes sizeKind rt v)
      (emitPairSet em isFp sizeBytes sizeKind rt (shifted d v)) n := by
  rw [emitPairSet, emitPairSet]
  split
  · split
    · exact relocates_setVD hv rt
    · exact relocates_setVS hv rt
  · exact relocates_setGpr hv rt sizeKind

theorem relocates_emitPairGet (hn : 0 < n) (isFp : Bool) :
    ReturnsValue em d (emitPairGet em isFp sizeBytes sizeKind rt)
      (emitPairGet em isFp sizeBytes sizeKind rt) n := by
  rw [emitPairGet]
  split
  · split
    · exact relocates_getVD hn rt
    · exact relocates_getVS hn rt
  · exact relocates_getGpr hn rt sizeKind

theorem relocates_fpLoadQ (ha : a < n) : ReturnsUnit em d (fpLoadQ em rt a) (fpLoadQ em rt (shifted d a)) n :=
  (relocates_loadQ ha).bind fun _ _ _ hq => relocates_setVQ hq rt

theorem relocates_fpStoreQ (ha : a < n) :
    ReturnsUnit em d (fpStoreQ em rt a) (fpStoreQ em rt (shifted d a)) n :=
  (relocates_getVQ (Nat.zero_lt_of_lt ha) rt).bind fun q m h hq => relocates_storeQ (by omega) hq

theorem relocates_emitPair (hk : k ≤ 4) (ha : a < n) (ha2 : a2 < n) :
    ReturnsUnit em d (emitPair em op (2 ^ k) sizeKind rt rt2 a a2)
      (emitPair em op (2 ^ k) sizeKind rt rt2 (shifted d a) (shifted d a2)) n := by
  rw [emitPair, emitPair]
  split
  · split
    · exact (relocates_fpLoadQ ha).bind fun m h => relocates_fpLoadQ (by omega)
    · refine (relocates_load ha hk).bind fun lo m1 h1 hlo => ?_
      refine (relocates_load (by omega) hk).bind fun hi m2 h2 hhi => ?_
      refine (relocates_emitPairSet (by omega) _).bind fun m3 h3 => ?_
      exact relocates_emitPairSet (by omega) _
  · split
    · exact (relocates_fpStoreQ ha).bind fun m h => relocates_fpStoreQ (by omega)
    · refine (relocates_emitPairGet (by omega) _).bind fun lo m1 h1 hlo => ?_
      refine (relocates_emitPairGet (by omega) _).bind fun hi m2 h2 hhi => ?_
      refine (relocates_store (by omega) (by omega) hk).bind fun m3 h3 => ?_
      exact relocates_store (by omega) (by omega) hk

theorem relocates_ldpsw (hn : 0 < n) (raw : U32) (mode : IdxMode) :
    Continues em d (ldpsw em raw mode) (ldpsw em raw mode) n := by
  refine (relocates_getXOrSp hn _ _).bind fun base m1 h1 hbase => ?_
  refine (relocates_constU64 (by omega) _).bind fun off m2 h2 hoff => ?_
  refine (relocates_binary (by omega) hoff _).bind fun wb m3 h3 hwb => ?_
  refine (relocates_constU64 (by omega) _).bind fun four m4 h4 hfour => ?_
  dsimp only
  rw [← apply_ite (shifted d)]
  have haccess : (if mode = .post then base else wb) < m4 := by split <;> omega
  generalize (if mode = .post then base else wb) = access at haccess
  refine (relocates_binary haccess hfour _).bind fun a2 m5 h5 ha2 => ?_
  refine (relocates_load (k := 2) (by omega) (by decide)).bind fun lo m6 h6 hlo => ?_
  refine (relocates_load (k := 2) (by omega) (by decide)).bind fun hi m7 h7 hhi => ?_
  refine (relocates_constU64 (by omega) _).bind fun sh m8 h8 hsh => ?_
  refine (relocates_binary (by omega) (by omega) _).bind fun lo1 m9 h9 hlo1 => ?_
  refine (relocates_binary (by omega) (by omega) _).bind fun loSx m10 h10 hloSx => ?_
  refine (relocates_binary (by omega) (by omega) _).bind fun hi1 m11 h11 hhi1 => ?_
  refine (relocates_binary (by omega) (by omega) _).bind fun hiSx m12 h12 hhiSx => ?_
  refine (relocates_setX (by omega) _).bind fun m13 h13 => ?_
  refine (relocates_setX (by omega) _).bind fun m14 h14 => ?_
  split
  · exact ⟨rfl, rfl⟩
  · exact (relocates_setXOrSp (by omega) _ _).continues

end pairs

theorem LdstpairOff.relocates (insn : LdstpairOff) (hn : 0 < n) :
    Continues em d (insn.translate em) (insn.translate em) n := by
  cases insn with
  | ldpsw raw => exact relocates_ldpsw hn raw .off
  | other raw => exact continues_fail _
  | pair op raw =>
    rw [translate]
    split
    · exact continues_fail _
    · next scale sizeBytes sizeKind hs =>
      obtain ⟨rfl, -, hk, -⟩ := PairOp.sizes_cases hs
      refine (relocates_getXOrSp hn _ _).bind fun base m1 h1 hbase => ?_
      refine (relocates_constU64 (by omega) _).bind fun off m2 h2 hoff => ?_
      refine (relocates_binary (by omega) hoff _).bind fun a m3 h3 ha => ?_
      refine (relocates_constU64 (by omega) _).bind fun one m4 h4 hone => ?_
      refine (relocates_binary (by omega) hone _).bind fun a2 m5 h5 ha2 => ?_
      exact (relocates_emitPair hk (by omega) ha2).continues

theorem LdstpairIndexed.relocates (insn : LdstpairIndexed) (hn : 0 < n) :
    Continues em d (insn.translate em) (insn.translate em) n := by
  cases insn with
  | ldpsw raw => exact relocates_ldpsw hn raw _
  | other raw => exact continues_fail _
  | pair op raw =>
    rw [translate]
    split
    · exact continues_fail _
    · next scale sizeBytes sizeKind hs =>
      obtain ⟨rfl, -, hk, -⟩ := PairOp.sizes_cases hs
      refine (relocates_getXOrSp hn _ _).bind fun base m1 h1 hbase => ?_
      refine (relocates_constU64 (by omega) _).bind fun off m2 h2 hoff => ?_
      refine (relocates_binary (by omega) hoff _).bind fun wb m3 h3 hwb => ?_
      refine (relocates_constU64 (by omega) _).bind fun one m4 h4 hone => ?_
      rw [← apply_ite (shifted d)]
      have haccess : (if bits raw 23 3 = 0b001 then base else wb) < m4 := by split <;> omega
      generalize (if bits raw 23 3 = 0b001 then base else wb) = access at haccess
      refine (relocates_binary haccess hone _).bind fun a2 m5 h5 ha2 => ?_
      refine (relocates_emitPair hk (by omega) ha2).bind fun m6 h6 => ?_
      exact (relocates_setXOrSp (by omega) _ _).continues

namespace Loadlit

theorem relocates_emitLiteral {addr : Nat} (haddr : addr < n) (raw : U32) (rt : U8) :
    Continues em d (emitLiteral em raw rt addr) (emitLiteral em raw rt (shifted d addr)) n := by
  have hload {k : Nat} (hk : k ≤ 4) :
      ReturnsValue em d (em.load addr (2 ^ k)) (em.load (shifted d addr) (2 ^ k)) n :=
    relocates_load haddr hk
  rw [emitLiteral, emitLiteral]
  split
  · split
    · exact (hload (k := 2) (by decide)).bind fun v m h hv => (relocates_setVS hv rt).continues
    · exact (hload (k := 3) (by decide)).bind fun v m h hv => (relocates_setVD hv rt).continues
    · exact (hload (k := 4) (by decide)).bind fun v m h hv => (relocates_setVQ hv rt).continues
    · exact continues_fail _
  · split
    · exact (hload (k := 2) (by decide)).bind fun v m h hv => (relocates_setW hv rt).continues
    · exact (hload (k := 3) (by decide)).bind fun v m h hv => (relocates_setX hv rt).continues
    · refine (hload (k := 2) (by decide)).bind fun v m1 h1 hv => ?_
      exact (relocates_emitSignExtend hv 32).bind fun sx m2 h2 hsx => (relocates_setX hsx rt).continues
    · exact continues_fail _

theorem relocates (insn : Loadlit) (hn : 0 < n) : Continues em d (insn.translate em) (insn.translate em) n := by
  cases insn with
  | prfmPrfopAddrPcrel19 raw => exact ⟨rfl, rfl⟩
  | _ raw => exact (relocates_constU64 hn _).bind fun addr m h haddr => relocates_emitLiteral haddr raw _

end Loadlit

theorem LoadStoreInsn.relocates (insn : LoadStoreInsn) (hn : 0 < n) :
    Continues em d (insn.translate em) (insn.translate em) n := by
  cases insn <;> next insn => exact insn.relocates hn

/-! ## Moves, counts, system instructions -/

theorem Movewide.relocates (insn : Movewide) (hn : 0 < n) :
    Continues em d (insn.translate em) (insn.translate em) n := by
  have hmove (kind : Guest.MoveWideOp) (rd : U8) (sf shift : Nat) (imm : U64) :
      ReturnsUnit em d (emitMove em kind rd sf shift imm) (emitMove em kind rd sf shift imm) n := by
    cases kind with
    | z => exact (relocates_constU64 hn _).bind fun c m h hc => relocates_setGpr hc rd _
    | n => exact (relocates_constU64 hn _).bind fun c m h hc => relocates_setGpr hc rd _
    | k =>
      refine (relocates_getGpr hn _ _).bind fun prev m1 h1 hprev => ?_
      refine (relocates_constU64 (by omega) _).bind fun mask m2 h2 hmask => ?_
      refine (relocates_binary (by omega) hmask _).bind fun cleared m3 h3 hcleared => ?_
      refine (relocates_constU64 (by omega) _).bind fun c m4 h4 hc => ?_
      refine (relocates_binary (by omega) hc _).bind fun merged m5 h5 hmerged => ?_
      exact relocates_setGpr hmerged rd _
  rw [translate]
  dsimp only
  split
  · exact continues_fail _
  · exact (hmove ..).continues

theorem Pcreladdr.relocates (insn : Pcreladdr) (hn : 0 < n) :
    Continues em d (insn.translate em) (insn.translate em) n :=
  (relocates_constU64 hn _).bind fun _ _ _ hc => (relocates_setX hc _).continues

theorem Dp1src.relocates (insn : Dp1src) (hn : 0 < n) :
    Continues em d (insn.translate em) (insn.translate em) n := by
  rw [translate]
  split
  · refine (relocates_getGpr hn _ _).bind fun src m1 h1 hsrc => ?_
    refine (relocates_push [src] (by omega) (one_lt hsrc) rfl rfl).bind fun pass m2 h2 hpass => ?_
    exact (relocates_setGpr hpass _ _).continues
  · refine (relocates_getGpr hn _ _).bind fun src m1 h1 hsrc => ?_
    split
    · exact continues_fail _
    · refine (relocates_push [src] (by omega) (one_lt hsrc) rfl rfl).bind fun r m2 h2 hr => ?_
      exact (relocates_setGpr hr _ _).continues

namespace IcSystem

theorem relocates_idleNode (hn : 0 < n) (op : Op) : Continues em d (idleNode em op) (idleNode em op) n :=
  (relocates_leaf hn rfl).bind fun _ _ _ _ => ⟨rfl, rfl⟩

theorem relocates_emitZeroAt {aligned value : Nat} (ha : aligned < n) (hv : value < n) (off : Nat) :
    ReturnsUnit em d (emitZeroAt em aligned value off)
      (emitZeroAt em (shifted d aligned) (shifted d value) off) n := by
  have haddr : ReturnsValue em d (emitAddr em aligned off) (emitAddr em (shifted d aligned) off) n := by
    rw [emitAddr, emitAddr]
    split
    · exact returnsValue_pure ha
    · exact relocates_binaryConst (by omega) _ _
  exact haddr.bind fun addr m h haddr => relocates_store (k := 3) haddr (by omega) (by decide)

theorem relocates_emitZeroBlock (hn : 0 < n) (rt : U8) :
    ReturnsUnit em d (emitZeroBlock em rt) (emitZeroBlock em rt) n := by
  refine (relocates_getXOrSp hn _ _).bind fun base m1 h1 hbase => ?_
  refine (relocates_constU64 (by omega) _).bind fun mask m2 h2 hmask => ?_
  refine (relocates_binary (by omega) hmask _).bind fun aligned m3 h3 haligned => ?_
  refine (relocates_constU64 (by omega) _).bind fun value m4 h4 hvalue => ?_
  refine Alike.mono (alike_foldlM (fun _ _ m => aligned < m ∧ value < m) ⟨by omega, hvalue⟩ ?_)
    fun _ _ _ _ _ => trivial
  rintro k _ _ m hle ⟨ha, hv⟩
  exact Alike.mono (relocates_emitZeroAt ha hv _) fun _ _ m' hle' _ => ⟨by omega, by omega⟩

theorem relocates (insn : IcSystem) (hn : 0 < n) :
    Continues em d (insn.translate em) (insn.translate em) n := by
  cases insn with
  | mrsRtSysreg raw =>
    exact (relocates_leaf hn rfl).bind fun v m h hv => (relocates_setGpr hv _ _).continues
  | msrSysregRt raw =>
    refine (relocates_getGpr hn _ _).bind fun v m h hv => ?_
    exact (relocates_push [v] (by omega) (one_lt hv) rfl rfl).bind fun _ _ _ _ => ⟨rfl, rfl⟩
  | sys raw =>
    rw [translate]
    split
    · exact (relocates_emitZeroBlock hn _).continues
    · exact relocates_idleNode hn _
  | other raw => exact continues_fail _
  | _ raw => exact relocates_idleNode hn _

end IcSystem

/-! ## Branches -/

/-- A branch pushes a node that nobody refers to and returns its terminal, which may read an earlier
value. -/
theorem terminates_push (l : List ValueRef) {a a' : Armlet} (hn : 0 < n) (hl : ∀ v ∈ l, v < n)
    (ha : a.args = slots l)
    (ha' : a' = { a with args := slots (l.map (shifted d)) }) {t t' : Terminal}
      (ht : t' = t.mapValue (shifted d)) :
    Terminates em d (em.push a >>= fun _ => pure t) (em.push a' >>= fun _ => pure t') n :=
  (relocates_push l hn hl ha ha').bind fun _ _ _ _ => ht

theorem relocates_link (hn : 0 < n) (linked : Bool) : ReturnsUnit em d (em.link linked) (em.link linked) n := by
  rw [link]
  split
  · exact (relocates_constU64 hn _).bind fun ret m h hret => relocates_setX hret 30
  · exact returnsUnit_pure

theorem BranchInsn.relocates (insn : BranchInsn) (hn : 0 < n) :
    Terminates em d (insn.translate em) (insn.translate em) n := by
  cases insn with
  | branchImm insn =>
    exact (relocates_link hn _).bind fun m h => terminates_push [] (by omega) none_lt rfl rfl rfl
  | branchReg insn =>
    rw [translate, BranchReg.translate]
    split
    · exact ⟨rfl, by rintro ⟨⟩⟩
    · refine (relocates_getX hn _).bind fun target m1 h1 htarget => ?_
      refine (relocates_link (by omega) _).bind fun m2 h2 => ?_
      exact terminates_push [target] (by omega) (one_lt (by omega)) rfl rfl rfl
  | condbranch insn =>
    refine (relocates_getNzcv hn).bind fun nzcv m h hnzcv => ?_
    exact terminates_push [nzcv] (by omega) (one_lt hnzcv) rfl rfl rfl
  | compbranch insn =>
    refine (relocates_getGpr hn _ _).bind fun v m h hv => ?_
    exact terminates_push [v] (by omega) (one_lt hv) rfl rfl rfl
  | testbranch insn =>
    refine (relocates_getX hn _).bind fun v m h hv => ?_
    exact terminates_push [v] (by omega) (one_lt hv) rfl rfl rfl
  | exception insn =>
    rw [translate, Exception.translate]
    split
    · exact ⟨rfl, by rintro ⟨⟩⟩
    · exact terminates_push [] hn none_lt rfl rfl rfl

end Rustarmic
