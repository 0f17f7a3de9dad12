import Rustarmic.Ir.LiveList
import Rustarmic.Lib.LinkRing

/-!
# The live list in both directions

With the dummy node `0` as anchor, its successor being the head and its predecessor the tail, the
live list of a block is a ring.  `Block.Linked b l` says so: the head has no predecessor, the tail
no successor, and neighbours point at each other.

* `Linked.iterLive_eq` and `Linked.iterLiveRev_eq`: the walks from both ends visit `l` and its
  reverse.
* `Linked.unlink` and `Linked.insertBefore`: the two list operations of a block keep it linked.
* `Linked.set_iff`: writing a node back keeps it linked iff the copy has the predecessor the list
  has by then.

The head and the tail of the list are fields of the block and not of a node.  With the anchor they
are links like the others, and an operation at an end of the list is no special case; `nextAt` and
`prevAt` read them in this way.  What is proved of rings is in `Lib.LinkRing`.

**Writing nodes back.**  The optimizer copies a node out of the vector, changes it, and stores it
again.  The links are in the node, so that a store writes them as they were when the copy was made.
If something was put in front of the node in between, the old predecessor comes back.
`Linked.set_iff` is about this store and nothing else: it keeps the list exactly when the copy
agrees with the list, which is the condition the optimizer's passes have to be checked for.
-/

set_option autoImplicit false

namespace Rustarmic

open LinkRing

namespace Armlet

/-- A node without its links. -/
def bare (a : Armlet) : Armlet := { a with prev := linkNone, next := linkNone }

@[simp] theorem bare_op (a : Armlet) : a.bare.op = a.op := rfl

@[simp] theorem bare_imm (a : Armlet) : a.bare.imm = a.imm := rfl

end Armlet

namespace Block

variable {b : Block} {v w p n : ValueRef} {a : Armlet} {l l₁ l₂ : List ValueRef}

/-- The node after `v`; after the anchor it is the head. -/
def nextAt (b : Block) (v : ValueRef) : ValueRef := if v = linkNone then b.head else (b.get v).next

/-- The node before `v`; before the anchor it is the tail. -/
def prevAt (b : Block) (v : ValueRef) : ValueRef := if v = linkNone then b.tail else (b.get v).prev

/-- The live list of the block is `l`, linked in both directions. -/
structure Linked (b : Block) (l : List ValueRef) : Prop where
  ring : IsRing b.nextAt b.prevAt linkNone l
  bound : ∀ v ∈ l, v < b.code.size

/-- `iter_live_rev` from `v` on. -/
def walkBack (b : Block) : Nat → ValueRef → List ValueRef
  | 0, _ => []
  | n + 1, v => if v = linkNone then [] else v :: walkBack b n (b.get v).prev

/-- The live nodes, from the tail along the `prev` links. -/
def iterLiveRev (b : Block) : List ValueRef := b.walkBack b.code.size b.tail

/-! ## Reading and writing nodes -/

theorem get_set (h : v < b.code.size) : (b.set v a).get w = if w = v then a else b.get w := by
  by_cases hw : w = v
  · subst hw
    simp [get, set, h]
  · simp [get, set, hw, Ne.symm hw, Array.getD_eq_getD_getElem?]

@[simp] theorem get_set_self (h : v < b.code.size) : (b.set v a).get v = a := by
  rw [get_set h, if_pos rfl]

theorem get_set_of_ne (hw : w ≠ v) : (b.set v a).get w = b.get w := by
  simp [get, set, Ne.symm hw, Array.getD_eq_getD_getElem?]

@[simp] theorem size_set : (b.set v a).code.size = b.code.size := Array.size_setIfInBounds

@[simp] theorem size_linkNext : (b.linkNext v n).code.size = b.code.size := by
  unfold linkNext
  split <;> simp

@[simp] theorem size_linkPrev : (b.linkPrev v p).code.size = b.code.size := by
  unfold linkPrev
  split <;> simp

@[simp] theorem size_unlink : (b.unlink v).code.size = b.code.size := by
  simp [unlink]

@[simp] theorem size_insertBefore : (b.insertBefore v a).1.code.size = b.code.size + 1 := by
  simp [insertBefore]

@[simp] theorem size_push : (b.push a).1.code.size = b.code.size + 1 := by
  simp [push]

@[simp] theorem insertBefore_ref : (b.insertBefore v a).2 = b.code.size := rfl

/-- Writing a node changes no link but those of the node. -/
theorem nextAt_set (h : v < b.code.size) (hv : v ≠ linkNone) :
    (b.set v a).nextAt = Function.update b.nextAt v a.next := by
  funext w
  by_cases hw : w = v
  · rw [hw, Function.update_self, nextAt, if_neg hv, get_set_self h]
  · rw [Function.update_of_ne hw, nextAt, nextAt, get_set_of_ne hw]
    rfl

theorem prevAt_set (h : v < b.code.size) (hv : v ≠ linkNone) :
    (b.set v a).prevAt = Function.update b.prevAt v a.prev := by
  funext w
  by_cases hw : w = v
  · rw [hw, Function.update_self, prevAt, if_neg hv, get_set_self h]
  · rw [Function.update_of_ne hw, prevAt, prevAt, get_set_of_ne hw]
    rfl

theorem nextAt_linkNext (h : v < b.code.size) :
    (b.linkNext v n).nextAt = Function.update b.nextAt v n := by
  by_cases hv : v = linkNone
  · subst hv
    funext w
    by_cases hw : w = linkNone
    · rw [hw, Function.update_self]; rfl
    · rw [Function.update_of_ne hw, nextAt, nextAt, if_neg hw, if_neg hw]; rfl
  · rw [linkNext, if_pos hv, nextAt_set h hv]

theorem prevAt_linkNext (h : v < b.code.size) : (b.linkNext v n).prevAt = b.prevAt := by
  by_cases hv : v = linkNone
  · subst hv; rfl
  · rw [linkNext, if_pos hv, prevAt_set h hv, Function.update_eq_self_iff, prevAt, if_neg hv]

theorem prevAt_linkPrev (h : v < b.code.size) :
    (b.linkPrev v p).prevAt = Function.update b.prevAt v p := by
  by_cases hv : v = linkNone
  · subst hv
    funext w
    by_cases hw : w = linkNone
    · rw [hw, Function.update_self]; rfl
    · rw [Function.update_of_ne hw, prevAt, prevAt, if_neg hw, if_neg hw]; rfl
  · rw [linkPrev, if_pos hv, prevAt_set h hv]

theorem nextAt_linkPrev (h : v < b.code.size) : (b.linkPrev v p).nextAt = b.nextAt := by
  by_cases hv : v = linkNone
  · subst hv; rfl
  · rw [linkPrev, if_pos hv, nextAt_set h hv, Function.update_eq_self_iff, nextAt, if_neg hv]

theorem get_linkNext_bare : ((b.linkNext v n).get w).bare = (b.get w).bare := by
  unfold linkNext
  split
  · by_cases hw : w = v
    · subst hw
      by_cases h : w < b.code.size
      · rw [get_set_self h]; rfl
      · rw [set, Array.setIfInBounds, dif_neg h]
    · rw [get_set_of_ne hw]
  · rfl

theorem get_linkPrev_bare : ((b.linkPrev v p).get w).bare = (b.get w).bare := by
  unfold linkPrev
  split
  · by_cases hw : w = v
    · subst hw
      by_cases h : w < b.code.size
      · rw [get_set_self h]; rfl
      · rw [set, Array.setIfInBounds, dif_neg h]
    · rw [get_set_of_ne hw]
  · rfl

/-- Taking a node out changes the other nodes in their links only. -/
theorem get_unlink_bare (hw : w ≠ v) : ((b.unlink v).get w).bare = (b.get w).bare := by
  rw [unlink, get_set_of_ne hw, get_linkPrev_bare, get_linkNext_bare]

/-- The block with one more node in its vector, outside the live list. -/
def grow (b : Block) (a : Armlet) : Block := { b with code := b.code.push a }

@[simp] theorem size_grow : (b.grow a).code.size = b.code.size + 1 := Array.size_push a

theorem get_grow : (b.grow a).get w = if w = b.code.size then a else b.get w := by
  by_cases hw : w = b.code.size
  · simp [get, grow, hw]
  · simp [get, grow, hw, Array.getD_eq_getD_getElem?, Array.getElem?_push]

theorem nextAt_grow (h : 0 < b.code.size) :
    (b.grow a).nextAt = Function.update b.nextAt b.code.size a.next := by
  funext w
  by_cases hw : w = b.code.size
  · rw [hw, Function.update_self, nextAt, if_neg h.ne', get_grow, if_pos rfl]
  · rw [Function.update_of_ne hw, nextAt, nextAt, get_grow, if_neg hw]
    rfl

theorem prevAt_grow (h : 0 < b.code.size) :
    (b.grow a).prevAt = Function.update b.prevAt b.code.size a.prev := by
  funext w
  by_cases hw : w = b.code.size
  · rw [hw, Function.update_self, prevAt, if_neg h.ne', get_grow, if_pos rfl]
  · rw [Function.update_of_ne hw, prevAt, prevAt, get_grow, if_neg hw]
    rfl

/-- Inserting is appending to the vector and changing one link each way. -/
theorem insertBefore_eq (hv : v ≠ linkNone) :
    (b.insertBefore v a).1 =
      ((b.grow { a with prev := (b.get v).prev, next := v }).linkNext (b.get v).prev
        b.code.size).linkPrev v b.code.size := by
  rw [linkPrev, if_pos hv]
  rfl

/-- Inserting a node changes the other nodes in their links only. -/
theorem get_insertBefore_bare (hv : v ≠ linkNone) (hw : w ≠ b.code.size) :
    ((b.insertBefore v a).1.get w).bare = (b.get w).bare := by
  rw [insertBefore_eq hv, get_linkPrev_bare, get_linkNext_bare, get_grow, if_neg hw]

theorem get_insertBefore_new (hv : v ≠ linkNone) :
    ((b.insertBefore v a).1.get b.code.size).bare = a.bare := by
  rw [insertBefore_eq hv, get_linkPrev_bare, get_linkNext_bare, get_grow, if_pos rfl]
  rfl

/-! ## The list operations -/

namespace Linked

theorem ne_none (h : b.Linked l) (hv : v ∈ l) : v ≠ linkNone :=
  ne_of_mem_of_not_mem hv (List.nodup_cons.mp h.ring.nodup).1

theorem nextAt_eq (h : b.Linked l) (hv : v ∈ l) : b.nextAt v = (b.get v).next :=
  if_neg (h.ne_none hv)

theorem prevAt_eq (h : b.Linked l) (hv : v ∈ l) : b.prevAt v = (b.get v).prev :=
  if_neg (h.ne_none hv)

theorem next_eq (h : b.Linked (l₁ ++ v :: l₂)) : (b.get v).next = l₂.headD linkNone := by
  rw [← h.nextAt_eq (by simp)]
  exact h.ring.next_eq

theorem prev_eq (h : b.Linked (l₁ ++ v :: l₂)) : (b.get v).prev = l₁.getLastD linkNone := by
  rw [← h.prevAt_eq (by simp)]
  exact h.ring.prev_eq

theorem head_eq (h : b.Linked l) : b.head = l.headD linkNone := h.ring.leads.1

theorem det {l' : List ValueRef} (h : b.Linked l) (h' : b.Linked l') : l = l' := h.ring.det h'.ring

theorem length_le (h : b.Linked l) : l.length ≤ b.code.size := by
  have hsub : l ⊆ List.range b.code.size := fun w hw => List.mem_range.mpr (h.bound w hw)
  have hlen := ((List.nodup_cons.mp h.ring.nodup).2.subperm hsub).length_le
  rwa [List.length_range] at hlen

theorem walkBack_eq {m : List ValueRef} {n : Nat} (hm : ∀ x ∈ m, x ≠ linkNone)
    (h : Leads b.prevAt m linkNone) (hn : m.length ≤ n) :
    b.walkBack n (m.headD linkNone) = m := by
  induction m generalizing n with
  | nil => cases n <;> rfl
  | cons x m ih =>
    have hx : x ≠ linkNone := hm x List.mem_cons_self
    cases n with
    | zero => cases hn
    | succ n =>
      have hp : (b.get x).prev = m.headD linkNone := by rw [← h.1, prevAt, if_neg hx]
      rw [List.headD_cons, walkBack, if_neg hx, hp,
        ih (fun y hy => hm y (List.mem_cons_of_mem x hy)) h.2 (Nat.le_of_succ_le_succ hn)]

theorem walkFrom_eq {m : List ValueRef} {n : Nat} (hm : ∀ x ∈ m, x ≠ linkNone)
    (h : Leads b.nextAt m linkNone) (hn : m.length ≤ n) :
    b.walkFrom n (m.headD linkNone) = m := by
  induction m generalizing n with
  | nil => cases n <;> rfl
  | cons x m ih =>
    have hx : x ≠ linkNone := hm x List.mem_cons_self
    cases n with
    | zero => cases hn
    | succ n =>
      have hp : (b.get x).next = m.headD linkNone := by rw [← h.1, nextAt, if_neg hx]
      rw [List.headD_cons, walkFrom, if_neg hx, hp,
        ih (fun y hy => hm y (List.mem_cons_of_mem x hy)) h.2 (Nat.le_of_succ_le_succ hn)]

/-- The walk from the head visits the live list. -/
theorem iterLive_eq (h : b.Linked l) : b.iterLive = l := by
  have hl := h.ring.leads
  rw [iterLive, h.head_eq]
  exact walkFrom_eq (fun x hx => h.ne_none hx) hl.2 h.length_le

/-- The walk from the tail visits it backwards. -/
theorem iterLiveRev_eq (h : b.Linked l) : b.iterLiveRev = l.reverse := by
  have hl := h.ring.backward
  have htail : b.tail = l.reverse.headD linkNone := hl.1
  rw [iterLiveRev, htail]
  refine walkBack_eq (fun x hx => h.ne_none (List.mem_reverse.mp hx)) hl.2 ?_
  rw [List.length_reverse]
  exact h.length_le

theorem nodup (h : b.Linked l) : l.Nodup := (List.nodup_cons.mp h.ring.nodup).2

/-- The links of a node lead to live nodes or to the anchor. -/
theorem prev_lt (h : b.Linked l) (hv : v ∈ l) : (b.get v).prev < b.code.size := by
  obtain ⟨l₁, l₂, rfl⟩ := List.append_of_mem hv
  have hpos : 0 < b.code.size := Nat.zero_lt_of_lt (h.bound v hv)
  rw [h.prev_eq]
  cases hl : l₁ using List.reverseRecOn with
  | nil => exact hpos
  | append_singleton k x =>
    rw [List.getLastD_concat]
    exact h.bound x (by simp [hl])

theorem next_lt (h : b.Linked l) (hv : v ∈ l) : (b.get v).next < b.code.size := by
  obtain ⟨l₁, l₂, rfl⟩ := List.append_of_mem hv
  have hpos : 0 < b.code.size := Nat.zero_lt_of_lt (h.bound v hv)
  rw [h.next_eq]
  cases l₂ with
  | nil => exact hpos
  | cons x k => exact h.bound x (by simp)

/-- **Taking a node out leaves the rest linked.** -/
theorem unlink (h : b.Linked (l₁ ++ v :: l₂)) : (b.unlink v).Linked (l₁ ++ l₂) := by
  have hv : v ∈ l₁ ++ v :: l₂ := by simp
  have hlt := h.bound v hv
  have hr := h.ring.remove
  rw [h.prevAt_eq hv, h.nextAt_eq hv] at hr
  have hne : ∀ x ∈ linkNone :: (l₁ ++ l₂), x ≠ v := by
    rintro x hx rfl
    have hnd := h.ring.nodup
    rw [List.nodup_cons, List.nodup_middle, List.nodup_cons] at hnd
    rcases List.mem_cons.mp hx with rfl | hx
    · exact hnd.1 hv
    · exact hnd.2.1 hx
  refine ⟨hr.congr (fun x hx => ?_) (fun x hx => ?_), fun x hx => ?_⟩
  · rw [Block.unlink, nextAt_set (by simpa using hlt) (h.ne_none hv),
      Function.update_of_ne (hne x hx), nextAt_linkPrev (by simpa using h.next_lt hv),
      nextAt_linkNext (h.prev_lt hv)]
  · rw [Block.unlink, prevAt_set (by simpa using hlt) (h.ne_none hv),
      Function.update_of_ne (hne x hx), prevAt_linkPrev (by simpa using h.next_lt hv),
      prevAt_linkNext (h.prev_lt hv)]
  · rw [size_unlink]
    refine h.bound x ?_
    rw [List.mem_append] at hx ⊢
    exact hx.imp id (List.mem_cons_of_mem v)

/-- **Inserting a node leaves the list linked**, with the node in front. -/
theorem insertBefore (h : b.Linked (l₁ ++ v :: l₂)) (a : Armlet) :
    (b.insertBefore v a).1.Linked (l₁ ++ b.code.size :: v :: l₂) := by
  have hv : v ∈ l₁ ++ v :: l₂ := by simp
  have hlt := h.bound v hv
  have hfresh : b.code.size ∉ linkNone :: (l₁ ++ v :: l₂) := by
    rintro hmem
    rcases List.mem_cons.mp hmem with hz | hm
    · exact absurd hlt (by rw [hz]; exact Nat.not_lt_zero _)
    · exact Nat.lt_irrefl _ (h.bound _ hm)
  have hr := h.ring.insert hfresh
  rw [h.prevAt_eq hv] at hr
  have hpos : 0 < b.code.size := Nat.zero_lt_of_lt hlt
  have hp : (b.get v).prev < b.code.size + 1 := Nat.lt_succ_of_lt (h.prev_lt hv)
  have hv' : v < b.code.size + 1 := Nat.lt_succ_of_lt hlt
  refine ⟨?_, fun x hx => ?_⟩
  · rw [insertBefore_eq (h.ne_none hv), nextAt_linkPrev (by simpa using hv'),
      nextAt_linkNext (by simpa using hp), nextAt_grow hpos, prevAt_linkPrev (by simpa using hv'),
      prevAt_linkNext (by simpa using hp), prevAt_grow hpos]
    exact hr
  · rw [size_insertBefore]
    simp only [List.mem_cons, List.mem_append] at hx
    rcases hx with hx | rfl | rfl | hx
    · exact Nat.lt_succ_of_lt (h.bound x (by simp [hx]))
    · exact Nat.lt_succ_self _
    · exact hv'
    · exact Nat.lt_succ_of_lt (h.bound x (by simp [hx]))

/-- A pushed node comes last. -/
theorem push (h : b.Linked l) (hpos : 0 < b.code.size) (a : Armlet) :
    (b.push a).1.Linked (l ++ [b.code.size]) := by
  have hfresh : b.code.size ∉ linkNone :: l := by
    intro hmem
    rcases List.mem_cons.mp hmem with hz | hm
    · exact hpos.ne' hz
    · exact Nat.lt_irrefl _ (h.bound _ hm)
  have htail : b.tail < b.code.size := by
    have hlast : b.tail = l.reverse.headD linkNone := h.ring.backward.1
    rw [hlast]
    cases hr : l.reverse with
    | nil => exact hpos
    | cons x m => exact h.bound x (List.mem_reverse.mp (by rw [hr]; simp))
  have hb : (b.push a).1 =
      ((b.grow { a with prev := b.tail, next := linkNone }).linkNext b.tail b.code.size).linkPrev
        linkNone b.code.size := rfl
  have hsz : ∀ x < b.code.size + 1, x < (b.grow { a with prev := b.tail, next := linkNone }).code.size :=
    fun x hx => by simpa using hx
  refine ⟨?_, fun x hx => ?_⟩
  · rw [hb, nextAt_linkPrev (by simp), nextAt_linkNext (hsz _ (Nat.lt_succ_of_lt htail)),
      nextAt_grow hpos, prevAt_linkPrev (by simp), prevAt_linkNext (hsz _ (Nat.lt_succ_of_lt htail)),
      prevAt_grow hpos]
    exact h.ring.append hfresh
  · rw [hb, size_linkPrev, size_linkNext, size_grow]
    rcases List.mem_append.mp hx with hx | hx
    · exact Nat.lt_succ_of_lt (h.bound x hx)
    · rw [List.mem_singleton.mp hx]
      exact Nat.lt_succ_self _

theorem pushAll (h : b.Linked l) (hpos : 0 < b.code.size) (as : List Armlet) :
    (b.pushAll as).Linked (l ++ List.range' b.code.size as.length) := by
  induction as generalizing b l with
  | nil => simpa [Block.pushAll] using h
  | cons a as ih =>
    have h' := ih (h.push hpos a) (by simp)
    rw [size_push, List.append_assoc, List.singleton_append] at h'
    exact h'

theorem new (pc : U64) : (Block.new pc).Linked [] :=
  ⟨⟨⟨rfl, trivial⟩, fun x hx => by rw [List.mem_singleton.mp hx]; rfl, List.nodup_singleton _⟩,
    fun x hx => by cases hx⟩

/-- Writing a node back with its links as they are. -/
theorem set (h : b.Linked l) (hv : v ∈ l) (hnext : a.next = (b.get v).next)
    (hprev : a.prev = (b.get v).prev) : (b.set v a).Linked l := by
  refine ⟨?_, fun x hx => by simpa using h.bound x hx⟩
  rw [nextAt_set (h.bound v hv) (h.ne_none hv), prevAt_set (h.bound v hv) (h.ne_none hv), hnext,
    hprev, ← h.nextAt_eq hv, ← h.prevAt_eq hv, Function.update_eq_self, Function.update_eq_self]
  exact h.ring

/-- Writing a node back keeps the list iff the copy has the predecessor the list has. -/
theorem set_iff (h : b.Linked l) (hv : v ∈ l) (hnext : a.next = (b.get v).next) :
    (∃ l', (b.set v a).Linked l') ↔ a.prev = (b.get v).prev := by
  have hnx : (b.set v a).nextAt = b.nextAt := by
    rw [nextAt_set (h.bound v hv) (h.ne_none hv), hnext, ← h.nextAt_eq hv,
      Function.update_eq_self]
  have hpx : (b.set v a).prevAt = Function.update b.prevAt v a.prev :=
    prevAt_set (h.bound v hv) (h.ne_none hv)
  constructor
  · rintro ⟨l', h'⟩
    by_contra hne
    rw [← h.prevAt_eq hv] at hne
    refine h.ring.not_of_stale hv hne l' ?_
    rw [← hnx, ← hpx]
    exact h'.ring
  · intro hprev
    exact ⟨l, h.set hv hnext hprev⟩

end Linked

end Block

end Rustarmic
