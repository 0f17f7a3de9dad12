import Rustarmic.Ir.LinkedBlock

/-!
# Appending to a block

Translation only pushes nodes.  `Block.pushAll` is a sequence of pushes.

* `Linked.rollback_pushAll`: rolling back to a mark undoes every push since the mark.
* `Block.body`: the nodes of a block without their links, an argument being the distance back to its
  node, so that the same instructions give the same body wherever they stand.

A push does two things, it appends the node to the vector and it links it behind the tail; so the
old tail changes as well.  A rollback cuts the vector and has to repair the link of the node that
becomes the tail again.  `Behind` is what pushing keeps of a block: the old nodes are as they were,
but for the successor of the last one, and this is what the rollback puts back.

A block is compared in two ways.  Where a translation is undone, all of it has to be equal, links
and vector included.  Where a run of instructions is cut in two, the parts cannot be equal to the
whole, as arguments are indices; there the *bodies* are compared, in which an argument is a
distance.
-/

set_option autoImplicit false

namespace Rustarmic

namespace Block

variable {b b' : Block} {a : Armlet} {l : List ValueRef} {v : ValueRef} {as : List Armlet}

/-! ## Nodes and the other fields -/

/-- The vector and the ends of the live list. -/
def nodes (b : Block) : Array Armlet × Nat × Nat := (b.code, b.head, b.tail)

/-- The block with another vector and live list. -/
def withNodes (b : Block) (n : Array Armlet × Nat × Nat) : Block :=
  { b with code := n.1, head := n.2.1, tail := n.2.2 }

@[simp] theorem nodes_withNodes (n : Array Armlet × Nat × Nat) : (b.withNodes n).nodes = n := rfl

@[simp] theorem withNodes_withNodes (n m : Array Armlet × Nat × Nat) :
    (b.withNodes n).withNodes m = b.withNodes m := rfl

@[simp] theorem withNodes_nodes : b.withNodes b.nodes = b := rfl

theorem push_nodes (h : b.nodes = b'.nodes) : (b.push a).1.nodes = (b'.push a).1.nodes := by
  simp only [nodes, Prod.mk.injEq] at h
  obtain ⟨hcode, hhead, htail⟩ := h
  simp only [push, linkNext, nodes, set, get, hcode, hhead, htail]
  split <;> rfl

theorem pushAll_nodes (h : b.nodes = b'.nodes) : (b.pushAll as).nodes = (b'.pushAll as).nodes := by
  induction as generalizing b b' with
  | nil => exact h
  | cons a as ih => exact ih (push_nodes h)

/-- A push changes the nodes only. -/
theorem push_frame (b : Block) (a : Armlet) : (b.push a).1 = b.withNodes (b.push a).1.nodes := by
  simp only [push, linkNext]
  split <;> rfl

theorem pushAll_frame (b : Block) (as : List Armlet) :
    b.pushAll as = b.withNodes (b.pushAll as).nodes := by
  induction as generalizing b with
  | nil => rfl
  | cons a as ih =>
    have h : (b.push a).1.pushAll as = b.withNodes ((b.push a).1.pushAll as).nodes := by
      rw [ih, push_frame b a, withNodes_withNodes]
      rfl
    exact h

theorem pushAll_append (b : Block) (as as' : List Armlet) :
    b.pushAll (as ++ as') = (b.pushAll as).pushAll as' := List.foldl_append

@[simp] theorem size_pushAll : (b.pushAll as).code.size = b.code.size + as.length := by
  induction as generalizing b with
  | nil => rfl
  | cons a as ih =>
    have h : ((b.push a).1.pushAll as).code.size = b.code.size + (as.length + 1) := by
      rw [ih, size_push]
      omega
    exact h

theorem code_ext (hsize : b.code.size = b'.code.size) (h : ∀ v < b.code.size, b.get v = b'.get v) :
    b.code = b'.code := by
  refine Array.ext hsize fun v hv hv' => ?_
  have hg := h v hv
  simpa [get, Array.getD, hv, hv'] using hg

theorem Linked.of_nodes (h : b.Linked l) (hn : b'.nodes = b.nodes) : b'.Linked l := by
  simp only [nodes, Prod.mk.injEq] at hn
  obtain ⟨hcode, hhead, htail⟩ := hn
  have hget : b'.get = b.get := by
    funext v
    rw [get, get, hcode]
  have hnext : b'.nextAt = b.nextAt := by
    funext v
    rw [nextAt, nextAt, hhead, hget]
  have hprev : b'.prevAt = b.prevAt := by
    funext v
    rw [prevAt, prevAt, htail, hget]
  exact ⟨by rw [hnext, hprev]; exact h.ring, fun v hv => by rw [hcode]; exact h.bound v hv⟩

/-! ## Rolling back -/

theorem rollback_nodes (h : b.nodes = b'.nodes) {m : Nat × Nat} :
    (b.rollback m).nodes = (b'.rollback m).nodes := by
  simp only [nodes, Prod.mk.injEq] at h
  obtain ⟨hcode, hhead, htail⟩ := h
  simp only [rollback, nodes, set, get, hcode, hhead]
  split <;> rfl

theorem Linked.tail_lt (h : b.Linked l) (hpos : 0 < b.code.size) : b.tail < b.code.size := by
  have hlast : b.tail = l.reverse.headD linkNone := h.ring.backward.1
  rw [hlast]
  cases hr : l.reverse with
  | nil => exact hpos
  | cons x m => exact h.bound x (List.mem_reverse.mp (by rw [hr]; simp))

theorem get_push (ht : b.tail < b.code.size) :
    (b.push a).1.get v =
      if v = b.code.size then { a with prev := b.tail, next := linkNone }
      else if v = b.tail ∧ v ≠ linkNone then { b.get v with next := b.code.size }
      else b.get v := by
  have hb : (b.push a).1.get v =
      ((b.grow { a with prev := b.tail, next := linkNone }).linkNext b.tail b.code.size).get v := rfl
  rw [hb, linkNext]
  by_cases ht0 : b.tail = linkNone
  · have hn : ¬ (v = b.tail ∧ v ≠ linkNone) := fun h => h.2 (h.1.trans ht0)
    rw [if_neg (not_not_intro ht0), if_neg hn]
    exact get_grow
  · rw [if_pos ht0]
    by_cases hv : v = b.tail
    · subst hv
      rw [get_set_self (by simpa using Nat.lt_succ_of_lt ht), get_grow, if_neg ht.ne, if_neg ht.ne,
        if_pos ⟨rfl, ht0⟩]
    · have hn : ¬ (v = b.tail ∧ v ≠ linkNone) := fun h => hv h.1
      rw [get_set_of_ne hv, get_grow, if_neg hn]

/-- `b'` is `b` with nodes behind it: the old nodes are as they were, but for the successor of the
last one. -/
structure Behind (b b' : Block) : Prop where
  base_lt : b.tail < b.code.size
  size_le : b.code.size ≤ b'.code.size
  tail_lt : b'.tail < b'.code.size
  tail_eq : b'.tail = b.tail ∨ b.code.size ≤ b'.tail
  head_eq : b.tail ≠ linkNone → b'.head = b.head
  get_eq : ∀ w < b.code.size, (w = b.tail → w = linkNone) → b'.get w = b.get w
  get_tail : b.tail ≠ linkNone → { b'.get b.tail with next := linkNone } = b.get b.tail

namespace Behind

theorem refl (h : b.Linked l) (hpos : 0 < b.code.size) : Behind b b where
  base_lt := h.tail_lt hpos
  size_le := Nat.le_refl _
  tail_lt := h.tail_lt hpos
  tail_eq := .inl rfl
  head_eq _ := rfl
  get_eq _ _ _ := rfl
  get_tail ht := by
    have hlast : b.tail = l.reverse.headD linkNone := h.ring.backward.1
    cases hr : l using List.reverseRecOn with
    | nil =>
      rw [hr] at hlast
      exact absurd hlast ht
    | append_singleton k z =>
      rw [hr, List.reverse_concat, List.headD_cons] at hlast
      rw [hr] at h
      have hnext : (b.get b.tail).next = linkNone := by rw [hlast]; exact h.next_eq
      rw [← hnext]

theorem push (h : Behind b b') (a : Armlet) : Behind b (b'.push a).1 := by
  have hle := h.size_le
  refine ⟨h.base_lt, ?_, ?_, .inr hle, fun ht => ?_, fun w hw hne => ?_, fun ht => ?_⟩
  · rw [size_push]
    exact Nat.le_succ_of_le hle
  · rw [size_push]
    exact Nat.lt_succ_self _
  · rw [← h.head_eq ht]
    have htb' : b'.tail ≠ linkNone := by
      rcases h.tail_eq with he | he
      · rwa [he]
      · exact (Nat.zero_lt_of_lt (h.base_lt.trans_le he)).ne'
    simp only [Block.push, linkNext, if_pos htb']
    rfl
  · rw [get_push h.tail_lt, if_neg (hw.trans_le hle).ne, if_neg, h.get_eq w hw hne]
    rintro ⟨he, h0⟩
    rcases h.tail_eq with he' | he'
    · exact h0 (hne (he.trans he'))
    · exact absurd (he ▸ he') (Nat.not_le_of_lt hw)
  · rw [get_push h.tail_lt, if_neg (h.base_lt.trans_le hle).ne, ← h.get_tail ht]
    split <;> rfl

theorem pushAll (h : Behind b b') (as : List Armlet) : Behind b (b'.pushAll as) := by
  induction as generalizing b' with
  | nil => exact h
  | cons a as ih => exact ih (h.push a)

/-- **Rolling back to the mark** restores the nodes. -/
theorem rollback (h : Behind b b') (hhead : b.tail = linkNone → b.head = linkNone) :
    (b'.rollback b.mark).nodes = b.nodes := by
  let c : Block := { b' with code := b'.code.take b.code.size, tail := b.tail }
  have hget : ∀ w < b.code.size, c.get w = b'.get w := by
    intro w hw
    have hlt : w < min b.code.size b'.code.size := lt_min hw (hw.trans_le h.size_le)
    simp [c, get, Array.getD_eq_getD_getElem?, hlt, hw.trans_le h.size_le]
  have hsize : c.code.size = b.code.size := by simpa [c] using h.size_le
  by_cases ht : b.tail = linkNone
  · have hcode : c.code = b.code := code_ext hsize fun w hw => by
      rw [hsize] at hw
      rw [hget w hw, h.get_eq w hw fun he => he.trans ht]
    have hr : b'.rollback b.mark = { c with head := linkNone } := if_pos ht
    rw [hr]
    show (c.code, linkNone, b.tail) = (b.code, b.head, b.tail)
    rw [hcode, hhead ht]
  · have hr : b'.rollback b.mark = c.set b.tail { c.get b.tail with next := linkNone } := if_neg ht
    have hcode : (c.set b.tail { c.get b.tail with next := linkNone }).code = b.code := by
      refine code_ext (by rw [size_set, hsize]) fun w hw => ?_
      rw [size_set, hsize] at hw
      rw [get_set (by rw [hsize]; exact h.base_lt), hget _ h.base_lt, h.get_tail ht]
      split
      · rename_i he
        rw [he]
      · rename_i hne
        rw [hget w hw, h.get_eq w hw fun he => absurd he hne]
    rw [hr]
    show ((c.set b.tail _).code, b'.head, b.tail) = (b.code, b.head, b.tail)
    rw [hcode, h.head_eq ht]

end Behind

theorem Linked.head_eq_none (h : b.Linked l) (ht : b.tail = linkNone) : b.head = linkNone := by
  have hlast : b.tail = l.reverse.headD linkNone := h.ring.backward.1
  cases hr : l.reverse with
  | nil =>
    rw [h.head_eq, List.reverse_eq_nil_iff.mp hr]
    rfl
  | cons x m =>
    rw [hr, List.headD_cons] at hlast
    exact absurd (hlast.symm.trans ht) (h.ne_none (List.mem_reverse.mp (by rw [hr]; simp)))

/-- **Rolling back undoes every push since the mark.** -/
theorem Linked.rollback_pushAll (h : b.Linked l) (hpos : 0 < b.code.size) (as : List Armlet) :
    ((b.pushAll as).rollback b.mark).nodes = b.nodes :=
  ((Behind.refl h hpos).pushAll as).rollback h.head_eq_none

/-! ## Bodies -/

/-- The distance from node `v` back to an argument; an empty slot stays empty. -/
def backRef (v arg : ValueRef) : Nat := if arg = ValueRef.none then 0 else v - arg

end Block

/-- Change the argument slots. -/
def Armlet.mapArgs (f : ValueRef → ValueRef) (a : Armlet) : Armlet :=
  { a with args := #v[f (a.args.get 0), f (a.args.get 1), f (a.args.get 2), f (a.args.get 3)] }

@[simp] theorem Armlet.mapArgs_mapArgs (f g : ValueRef → ValueRef) (a : Armlet) :
    (a.mapArgs f).mapArgs g = a.mapArgs (g ∘ f) := rfl

namespace Block

variable {b b' : Block} {a : Armlet} {l : List ValueRef} {v : ValueRef} {as : List Armlet}

/-- Nodes without their links, their arguments as distances, as they stand from node `v` on. -/
def bodyFrom : ValueRef → List Armlet → List Armlet
  | _, [] => []
  | v, a :: as => a.bare.mapArgs (backRef v) :: bodyFrom (v + 1) as

/-- The nodes of the block in order, but for the dummy one. -/
def body (b : Block) : List Armlet :=
  (List.range' 1 (b.code.size - 1)).map fun v => (b.get v).bare.mapArgs (backRef v)

theorem body_push (ht : b.tail < b.code.size) (a : Armlet) :
    (b.push a).1.body = b.body ++ [a.bare.mapArgs (backRef b.code.size)] := by
  have hpos := Nat.zero_lt_of_lt ht
  have hsize : (b.push a).1.code.size - 1 = (b.code.size - 1) + 1 := by rw [size_push]; omega
  have hsz : 1 + (b.code.size - 1) = b.code.size := by omega
  unfold body
  rw [hsize, List.range'_concat, List.map_append, List.map_singleton]
  congr 1
  · refine List.map_congr_left fun w hw => ?_
    have hlt : w < b.code.size := hsz ▸ (List.mem_range'_1.mp hw).2
    rw [get_push ht, if_neg hlt.ne]
    split <;> rfl
  · rw [Nat.one_mul, hsz, get_push ht, if_pos rfl]
    rfl

/-- **Pushed nodes are appended to the body.** -/
theorem body_pushAll (h : b.Linked l) (hpos : 0 < b.code.size) (as : List Armlet) :
    (b.pushAll as).body = b.body ++ bodyFrom b.code.size as := by
  induction as generalizing b l with
  | nil => exact (List.append_nil _).symm
  | cons a as ih =>
    have h' := ih (h.push hpos a) (by simp)
    rw [body_push (h.tail_lt hpos), size_push, List.append_assoc, List.singleton_append] at h'
    exact h'

theorem body_congr (h : b.nodes = b'.nodes) : b.body = b'.body := by
  have hcode : b.code = b'.code := congrArg Prod.fst h
  simp only [body, get, hcode]

end Block

end Rustarmic
