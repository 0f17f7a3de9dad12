import Mathlib.Data.List.Perm.Subperm
import Mathlib.Data.List.Range
import Rustarmic.Ir.Block

/-!
# The live list

`Block.Walk b v l` says that following the `next` links from `v` visits the nodes `l` and ends.  A
walk that ends visits no node twice, since where it goes on from a node is decided by the node, so
it is no longer than the vector and `Block.iterLive` has all of it.

`iter_live` of the source is an iterator that follows links until there is none.  On a block whose
links run in a circle it would never end, and a list as the model of it would have no value there.
So `iterLive` stops after as many nodes as the vector has, and this file shows that nothing is lost
by that: whenever the links end somewhere, the bound is not reached (`iterLive_eq`).  No property of
the block is needed for it, and in particular not that the links mirror each other.
-/

set_option autoImplicit false

namespace Rustarmic

namespace Block

/-- From `v` the `next` links lead through the nodes `l` to the end. -/
inductive Walk (b : Block) : ValueRef → List ValueRef → Prop where
  | nil : Walk b linkNone []
  | cons {v : ValueRef} {l : List ValueRef} (hne : v ≠ linkNone) (hlt : v < b.code.size)
      (h : Walk b (b.get v).next l) : Walk b v (v :: l)

namespace Walk

variable {b : Block} {v w : ValueRef} {l l' : List ValueRef}

theorem det (h : b.Walk v l) (h' : b.Walk v l') : l = l' := by
  induction h generalizing l' with
  | nil =>
    cases h' with
    | nil => rfl
    | cons hne => exact absurd rfl hne
  | cons hne _ _ ih =>
    cases h' with
    | nil => exact absurd rfl hne
    | cons _ _ h' => rw [ih h']

theorem of_mem (h : b.Walk v l) (hw : w ∈ l) : ∃ l', b.Walk w (w :: l') ∧ l'.length < l.length := by
  induction h with
  | nil => cases hw
  | cons hne hlt h ih =>
    rcases List.mem_cons.mp hw with rfl | hw
    · exact ⟨_, .cons hne hlt h, Nat.lt_succ_self _⟩
    · obtain ⟨l', h', hlen⟩ := ih hw
      exact ⟨l', h', Nat.lt_succ_of_lt hlen⟩

theorem mem_bounds (h : b.Walk v l) (hw : w ∈ l) : w ≠ linkNone ∧ w < b.code.size := by
  obtain ⟨l', h', -⟩ := h.of_mem hw
  cases h' with
  | cons hne hlt => exact ⟨hne, hlt⟩

/-- **A walk that ends visits no node twice.** -/
theorem nodup (h : b.Walk v l) : l.Nodup := by
  induction h with
  | nil => exact .nil
  | @cons v l hne hlt h ih =>
    refine List.nodup_cons.mpr ⟨fun hmem => ?_, ih⟩
    obtain ⟨l', h', hlen⟩ := h.of_mem hmem
    obtain rfl := (List.cons.inj ((Walk.cons hne hlt h).det h')).2
    exact absurd hlen (Nat.lt_irrefl _)

theorem length_le (h : b.Walk v l) : l.length ≤ b.code.size := by
  have hsub : l ⊆ List.range b.code.size := fun w hw => List.mem_range.mpr (h.mem_bounds hw).2
  have hlen := (h.nodup.subperm hsub).length_le
  rwa [List.length_range] at hlen

theorem walkFrom_eq (h : b.Walk v l) {n : Nat} (hn : l.length ≤ n) : b.walkFrom n v = l := by
  induction h generalizing n with
  | nil =>
    cases n with
    | zero => rfl
    | succ n => rfl
  | cons hne hlt h ih =>
    cases n with
    | zero => cases hn
    | succ n => rw [walkFrom, if_neg hne, ih (Nat.le_of_succ_le_succ hn)]

/-- `iter_live` visits the whole list. -/
theorem iterLive_eq (h : b.Walk b.head l) : b.iterLive = l := h.walkFrom_eq h.length_le

end Walk

end Block

end Rustarmic
