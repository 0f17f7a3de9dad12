import Mathlib.Data.List.Basic
import Mathlib.Data.List.Nodup
import Mathlib.Logic.Function.Basic

/-!
# Doubly linked lists as rings

A doubly linked list with a head and a tail is a ring through one extra node, the *anchor*: the
head is the anchor's successor and the tail its predecessor, so the ends of the list need no case
of their own.

* `Leads f l z` says that `f` leads from each node of `l` to the following one, and from the last
  one to `z`.
* `IsRing next prev s l` says that the nodes after the anchor `s` are `l`, in both directions.
* `IsRing.remove`, `IsRing.insert` and `IsRing.append` are the updates, each of one successor and
  one predecessor.
* `IsRing.not_of_stale` says that a ring with one wrong predecessor is no ring at all.
-/

set_option autoImplicit false

namespace LinkRing

variable {α : Type*}

/-! ## One direction -/

/-- `f` leads from each node of the list to the following one, and from the last one to `z`. -/
def Leads (f : α → α) : List α → α → Prop
  | [], _ => True
  | a :: l, z => f a = l.headD z ∧ Leads f l z

namespace Leads

variable {f g : α → α} {l m : List α} {a z : α}

theorem append_iff : Leads f (l ++ m) z ↔ Leads f l (m.headD z) ∧ Leads f m z := by
  induction l with
  | nil => simp [Leads]
  | cons a l ih =>
    have hhead : (l ++ m).headD z = l.headD (m.headD z) := by cases l <;> rfl
    rw [List.cons_append, Leads, Leads, ih, hhead, and_assoc]

theorem congr (h : Leads f l z) (hfg : ∀ x ∈ l, g x = f x) : Leads g l z := by
  induction l with
  | nil => trivial
  | cons a l ih =>
    exact ⟨(hfg a List.mem_cons_self).trans h.1,
      ih h.2 fun x hx => hfg x (List.mem_cons_of_mem a hx)⟩

/-- The node after the last one can be exchanged by changing the last link. -/
theorem redirect [DecidableEq α] (h : Leads f (l ++ [a]) z) (ha : a ∉ l) (w : α) :
    Leads (Function.update f a w) (l ++ [a]) w := by
  have hl : Leads f l a := (append_iff.mp h).1
  refine append_iff.mpr ⟨hl.congr fun x hx => ?_, by simp, trivial⟩
  exact Function.update_of_ne (ne_of_mem_of_not_mem hx ha) w f

/-- Where a list ends is decided by the links. -/
theorem det {l' : List α} (h : Leads f (a :: l) z) (h' : Leads f (a :: l') z) (hz : z ∉ l)
    (hz' : z ∉ l') : l = l' := by
  induction l generalizing a l' with
  | nil =>
    cases l' with
    | nil => rfl
    | cons b l' => exact absurd (List.mem_cons.mpr (.inl (h.1.symm.trans h'.1))) hz'
  | cons b l ih =>
    cases l' with
    | nil => exact absurd (List.mem_cons.mpr (.inl (h'.1.symm.trans h.1))) hz
    | cons c l' =>
      obtain rfl : b = c := h.1.symm.trans h'.1
      rw [ih h.2 h'.2 (fun hm => hz (List.mem_cons_of_mem b hm))
        (fun hm => hz' (List.mem_cons_of_mem b hm))]

theorem map_mem (h : Leads f l z) {x : α} (hx : x ∈ l) : f x = z ∨ f x ∈ l.tail := by
  induction l with
  | nil => cases hx
  | cons b l ih =>
    rcases List.mem_cons.mp hx with rfl | hx
    · cases l with
      | nil => exact .inl h.1
      | cons c l => exact .inr (h.1 ▸ List.mem_cons_self)
    · rcases ih h.2 hx with hz | hm
      · exact .inl hz
      · exact .inr (List.mem_of_mem_tail hm)

/-- Every link that is mirrored can be followed back. -/
theorem reverse (h : Leads f (a :: l) z) (hmirror : ∀ x ∈ a :: l, g (f x) = x) :
    Leads g (z :: l.reverse) a := by
  induction l generalizing a with
  | nil =>
    have hz : f a = z := h.1
    exact ⟨hz ▸ hmirror a List.mem_cons_self, trivial⟩
  | cons b l ih =>
    have hb : g b = a := by
      have := hmirror a List.mem_cons_self
      rwa [h.1] at this
    rw [List.reverse_cons, ← List.cons_append]
    exact append_iff.mpr ⟨ih h.2 fun x hx => hmirror x (List.mem_cons_of_mem a hx), hb, trivial⟩

end Leads

/-! ## The ring -/

/-- Starting at the anchor `s`, the nodes `l` follow one another and lead back to `s`, and every
link is mirrored. -/
structure IsRing (next prev : α → α) (s : α) (l : List α) : Prop where
  leads : Leads next (s :: l) s
  mirror : ∀ x ∈ s :: l, prev (next x) = x
  nodup : (s :: l).Nodup

namespace IsRing

variable {next prev : α → α} {s v x : α} {l l₁ l₂ : List α}

theorem backward (h : IsRing next prev s l) : Leads prev (s :: l.reverse) s :=
  h.leads.reverse h.mirror

theorem det {prev' : α → α} {l' : List α} (h : IsRing next prev s l)
    (h' : IsRing next prev' s l') : l = l' :=
  h.leads.det h'.leads (List.nodup_cons.mp h.nodup).1 (List.nodup_cons.mp h'.nodup).1

theorem congr {next' prev' : α → α} (h : IsRing next prev s l)
    (hn : ∀ x ∈ s :: l, next' x = next x) (hp : ∀ x ∈ s :: l, prev' x = prev x) :
    IsRing next' prev' s l where
  leads := h.leads.congr hn
  mirror x hx := by
    have hmem : next x ∈ s :: l := by
      rcases h.leads.map_mem hx with hz | hm
      · exact hz ▸ List.mem_cons_self
      · exact List.mem_cons_of_mem s hm
    rw [hn x hx, hp _ hmem, h.mirror x hx]
  nodup := h.nodup

theorem next_mem (h : IsRing next prev s l) (hx : x ∈ s :: l) : next x ∈ s :: l := by
  rcases h.leads.map_mem hx with hz | hm
  · exact hz ▸ List.mem_cons_self
  · exact List.mem_cons_of_mem s hm

/-- The successor of a node is the next one of the list. -/
theorem next_eq (h : IsRing next prev s (l₁ ++ v :: l₂)) : next v = l₂.headD s := by
  have hl := h.leads
  rw [← List.cons_append] at hl
  exact (Leads.append_iff.mp hl).2.1

/-- The nodes up to a node are those up to its predecessor, and the predecessor. -/
theorem split_prev (h : IsRing next prev s (l₁ ++ v :: l₂)) :
    ∃ k, s :: l₁ = k ++ [prev v] ∧ next (prev v) = v := by
  obtain ⟨k, a, hk⟩ : ∃ k a, s :: l₁ = k ++ [a] :=
    ⟨_, _, (List.dropLast_append_getLast (List.cons_ne_nil s l₁)).symm⟩
  have hl := h.leads
  rw [← List.cons_append] at hl
  have hk' := (Leads.append_iff.mp hl).1
  rw [hk] at hk'
  have ha : next a = v := (Leads.append_iff.mp hk').2.1
  have hmem : a ∈ s :: (l₁ ++ v :: l₂) := by
    rw [← List.cons_append, hk]
    simp
  have hprev : prev v = a := ha ▸ h.mirror a hmem
  exact ⟨k, by rw [hprev, hk], by rw [hprev, ha]⟩

theorem prev_eq (h : IsRing next prev s (l₁ ++ v :: l₂)) : prev v = l₁.getLastD s := by
  obtain ⟨k, hk, -⟩ := h.split_prev
  have hlast := congrArg (fun l => l.getLastD s) hk
  rw [List.getLastD_concat] at hlast
  rw [← hlast]
  cases l₁ <;> simp [List.getLastD]

variable [DecidableEq α]

/-- **Taking a node out.** -/
theorem remove (h : IsRing next prev s (l₁ ++ v :: l₂)) :
    IsRing (Function.update next (prev v) (next v)) (Function.update prev (next v) (prev v)) s
      (l₁ ++ l₂) := by
  obtain ⟨k, hk, hnp⟩ := h.split_prev
  have hnext := h.next_eq
  have hnd := h.nodup
  have hl := h.leads
  have hmem : ∀ x ∈ s :: (l₁ ++ l₂), x ∈ s :: (l₁ ++ v :: l₂) := by
    intro x hx
    simp only [List.mem_cons, List.mem_append] at hx ⊢
    tauto
  have hne : ∀ x ∈ s :: (l₁ ++ l₂), x ≠ v := by
    rw [← List.cons_append] at hnd
    intro x hx hxv
    rw [← List.cons_append, List.mem_append] at hx
    have hd := List.nodup_append.mp hnd
    rcases hx with hx | hx
    · exact hd.2.2 x hx v List.mem_cons_self hxv
    · exact (List.nodup_cons.mp hd.2.1).1 (hxv ▸ hx)
  rw [← List.cons_append, hk] at hl hnd
  have hd := List.nodup_append.mp hnd
  obtain ⟨hl₁, hl₂⟩ := Leads.append_iff.mp hl
  refine ⟨?_, fun x hx => ?_, ?_⟩
  · rw [← List.cons_append, hk]
    refine Leads.append_iff.mpr ⟨?_, hl₂.2.congr fun x hx => ?_⟩
    · rw [← hnext]
      exact hl₁.redirect (by simpa using (List.nodup_append.mp hd.1).2.2 (prev v)) _
    · refine Function.update_of_ne (fun hxv => ?_) _ _
      exact hd.2.2 (prev v) (by simp) x (List.mem_cons_of_mem v hx) hxv.symm
  · by_cases hxp : x = prev v
    · rw [hxp, Function.update_self, Function.update_self]
    · have hnx : next x ≠ next v := fun he => hne x hx <| by
        rw [← h.mirror x (hmem x hx), he, h.mirror v (by simp)]
      rw [Function.update_of_ne hxp, Function.update_of_ne hnx, h.mirror x (hmem x hx)]
  · exact h.nodup.sublist ((List.sublist_cons_self v l₂).append_left l₁ |>.cons_cons s)

/-- **Putting a new node in front of another.** -/
theorem insert (h : IsRing next prev s (l₁ ++ v :: l₂)) (hx : x ∉ s :: (l₁ ++ v :: l₂)) :
    IsRing (Function.update (Function.update next x v) (prev v) x)
      (Function.update (Function.update prev x (prev v)) v x) s (l₁ ++ x :: v :: l₂) := by
  obtain ⟨k, hk, hnp⟩ := h.split_prev
  have hnd := h.nodup
  have hl := h.leads
  have hpm : prev v ∈ s :: (l₁ ++ v :: l₂) := by
    rw [← List.cons_append, hk]
    simp
  have hxp : x ≠ prev v := fun he => hx (he ▸ hpm)
  have hxv : x ≠ v := fun he => hx (by simp [he])
  rw [← List.cons_append, hk] at hl hnd
  have hd := List.nodup_append.mp hnd
  obtain ⟨hl₁, hl₂⟩ := Leads.append_iff.mp hl
  refine ⟨?_, fun y hy => ?_, ?_⟩
  · rw [← List.cons_append, hk]
    refine Leads.append_iff.mpr ⟨?_, ?_, ?_, ?_⟩
    · have hl₁' : Leads (Function.update next x v) (k ++ [prev v]) v := by
        refine hl₁.congr fun y hy => Function.update_of_ne (fun he => hx ?_) _ _
        rw [← he, ← List.cons_append, hk]
        exact List.mem_append_left _ hy
      exact hl₁'.redirect (by simpa using (List.nodup_append.mp hd.1).2.2 (prev v)) _
    · rw [Function.update_of_ne hxp, Function.update_self]
      rfl
    · have hvp : v ≠ prev v := fun he => hd.2.2 (prev v) (by simp) v List.mem_cons_self he.symm
      rw [Function.update_of_ne hvp, Function.update_of_ne hxv.symm]
      exact hl₂.1
    · refine hl₂.2.congr fun y hy => ?_
      have hyp : y ≠ prev v := fun he =>
        hd.2.2 (prev v) (by simp) y (List.mem_cons_of_mem v hy) he.symm
      have hyx : y ≠ x := fun he => hx (by simp [← he, hy])
      rw [Function.update_of_ne hyp, Function.update_of_ne hyx]
  · by_cases hyx : y = x
    · rw [hyx, Function.update_of_ne hxp, Function.update_self, Function.update_self]
    by_cases hyp : y = prev v
    · rw [hyp, Function.update_self, Function.update_of_ne hxv, Function.update_self]
    have hy' : y ∈ s :: (l₁ ++ v :: l₂) := by
      simp only [List.mem_cons, List.mem_append] at hy ⊢
      tauto
    have hnx : next y ≠ x := fun he => hx (he ▸ h.next_mem hy')
    have hnv : next y ≠ v := fun he => hyp (by rw [← h.mirror y hy', he])
    rw [Function.update_of_ne hyp, Function.update_of_ne hyx, Function.update_of_ne hnv,
      Function.update_of_ne hnx, h.mirror y hy']
  · have hp : (x :: s :: (l₁ ++ v :: l₂)).Perm (s :: (l₁ ++ x :: v :: l₂)) :=
      (List.Perm.swap s x _).trans (List.perm_middle.symm.cons s)
    exact hp.nodup_iff.mp (List.nodup_cons.mpr ⟨hx, h.nodup⟩)

/-- **Putting a new node at the end.** -/
theorem append (h : IsRing next prev s l) (hx : x ∉ s :: l) :
    IsRing (Function.update (Function.update next x s) (prev s) x)
      (Function.update (Function.update prev x (prev s)) s x) s (l ++ [x]) := by
  obtain ⟨k, a, hk⟩ : ∃ k a, s :: l = k ++ [a] :=
    ⟨_, _, (List.dropLast_append_getLast (List.cons_ne_nil s l)).symm⟩
  have hl := h.leads
  have hnd := h.nodup
  rw [hk] at hl hnd
  have ha : next a = s := (Leads.append_iff.mp hl).2.1
  have hps : prev s = a := ha ▸ h.mirror a (by rw [hk]; simp)
  have hxa : x ≠ a := fun he => hx (by rw [hk, he]; simp)
  have hxs : x ≠ s := fun he => hx (by simp [he])
  rw [hps]
  refine ⟨?_, fun y hy => ?_, ?_⟩
  · rw [← List.cons_append, hk]
    refine Leads.append_iff.mpr ⟨?_, ?_, trivial⟩
    · have hl' : Leads (Function.update next x s) (k ++ [a]) s := by
        refine hl.congr fun y hy => Function.update_of_ne (fun he => hx ?_) _ _
        rw [hk, ← he]
        exact hy
      exact hl'.redirect (by simpa using (List.nodup_append.mp hnd).2.2 a) x
    · rw [Function.update_of_ne hxa, Function.update_self]
      rfl
  · rw [← List.cons_append, List.mem_append, List.mem_singleton] at hy
    by_cases hya : y = a
    · rw [hya, Function.update_self, Function.update_of_ne hxs, Function.update_self]
    rcases hy with hy | hy
    · have hyx : y ≠ x := fun he => hx (he ▸ hy)
      have hnx : next y ≠ x := fun he => hx (he ▸ h.next_mem hy)
      have hns : next y ≠ s := fun he => hya (by rw [← h.mirror y hy, he, hps])
      rw [Function.update_of_ne hya, Function.update_of_ne hyx, Function.update_of_ne hns,
        Function.update_of_ne hnx, h.mirror y hy]
    · rw [hy, Function.update_of_ne hxa, Function.update_self, Function.update_self]
  · rw [← List.cons_append]
    exact List.nodup_append.mpr ⟨h.nodup, List.nodup_singleton x, fun y hy z hz he =>
      hx (List.mem_singleton.mp hz ▸ he ▸ hy)⟩

/-- **One wrong predecessor breaks the ring**, whatever list is claimed for it. -/
theorem not_of_stale {q : α} (h : IsRing next prev s l) (hv : v ∈ l) (hq : q ≠ prev v)
    (l' : List α) : ¬ IsRing next (Function.update prev v q) s l' := by
  intro h'
  obtain rfl := h.det h'
  obtain ⟨l₁, l₂, rfl⟩ := List.append_of_mem hv
  obtain ⟨k, hk, hnp⟩ := h.split_prev
  have hmem : prev v ∈ s :: (l₁ ++ v :: l₂) := by
    rw [← List.cons_append, hk]
    simp
  have hm := h'.mirror _ hmem
  rw [hnp, Function.update_self] at hm
  exact hq hm

end IsRing

end LinkRing
