import Rustarmic.Ir.LinkedBlock

/-!
# Arguments come first

`Block.Ssa b l` says that in the list `l` of nodes every argument of a node is an earlier node of
the list.  The indices of the nodes say nothing of the order: a node put in front of another has the
larger index.

So this is a property of the *live list* and not of the vector.  A block as the front end leaves it
has both, since nodes are only pushed; after the optimizer has inserted a constant before a node,
only the list has it.  The register allocator walks the list, and it is what the allocator needs: an
operand must have been given a place before it is read.

The definition splits the list at every node, which is the form in which a proof about a change of
the list uses it.  `ssa_iff` says the same position by position, so that it can be decided.
-/

set_option autoImplicit false

namespace Rustarmic

namespace Block

variable {b : Block} {l l₁ l₂ : List ValueRef} {v x : ValueRef}

/-- Every argument of a node in `l` is an earlier node of `l`. -/
def Ssa (b : Block) (l : List ValueRef) : Prop :=
  ∀ l₁ v l₂, l = l₁ ++ v :: l₂ → ∀ x ∈ (b.get v).args.toList, x.isSome → x ∈ l₁

/-- The same position by position. -/
theorem ssa_iff : b.Ssa l ↔ ∀ i : Fin l.length, ∀ x ∈ (b.get l[i]).args.toList, x.isSome →
    x ∈ l.take i := by
  constructor
  · intro h i x hx hs
    have hsplit : l = l.take i ++ l[i] :: l.drop (i + 1) := by
      rw [Fin.getElem_fin, List.getElem_cons_drop, List.take_append_drop]
    exact h _ _ _ hsplit x hx hs
  · rintro h l₁ v l₂ rfl x hx hs
    have hmem := h ⟨l₁.length, by simp⟩ x (by simpa using hx) hs
    simpa using hmem

instance : Decidable (b.Ssa l) := decidable_of_iff' _ ssa_iff

theorem walk_of_leads (hne : ∀ x ∈ l, x ≠ linkNone) (hlt : ∀ x ∈ l, x < b.code.size)
    (h : LinkRing.Leads b.nextAt l linkNone) : b.Walk (l.headD linkNone) l := by
  induction l with
  | nil => exact .nil
  | cons x m ih =>
    have hx : x ≠ linkNone := hne x List.mem_cons_self
    have hnext : (b.get x).next = m.headD linkNone := by
      rw [← h.1, nextAt, if_neg hx]
    refine .cons hx (hlt x List.mem_cons_self) ?_
    rw [List.headD_cons, hnext]
    exact ih (fun y hy => hne y (List.mem_cons_of_mem x hy))
      (fun y hy => hlt y (List.mem_cons_of_mem x hy)) h.2

/-- The list that is linked both ways is the one the walk visits. -/
theorem Linked.walk (h : b.Linked l) : b.Walk b.head l := by
  rw [h.head_eq]
  exact walk_of_leads (fun x hx => h.ne_none hx) h.bound h.ring.leads.2

namespace Ssa

theorem arg_mem (h : b.Ssa (l₁ ++ v :: l₂)) (k : Fin 4) (hx : ((b.get v).args.get k).isSome) :
    (b.get v).args.get k ∈ l₁ :=
  h l₁ v l₂ rfl _ (Vector.mem_toList_iff.mpr (Vector.getElem_mem k.isLt)) hx

/-- An argument, with what comes before it. -/
theorem split_at_arg (h : b.Ssa (l₁ ++ v :: l₂)) (k : Fin 4)
    (hx : ((b.get v).args.get k).isSome) :
    ∃ m₁ m₂, l₁ ++ v :: l₂ = m₁ ++ (b.get v).args.get k :: m₂ ∧ m₁.length < l₁.length := by
  obtain ⟨m₁, m₂, hm⟩ := List.append_of_mem (h.arg_mem k hx)
  refine ⟨m₁, m₂ ++ v :: l₂, by rw [hm, List.append_assoc, List.cons_append], ?_⟩
  rw [hm, List.length_append, List.length_cons]
  omega

end Ssa

end Block

end Rustarmic
