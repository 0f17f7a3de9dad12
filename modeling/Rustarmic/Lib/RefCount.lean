import Mathlib.Data.List.Basic
import Mathlib.Data.List.Count
import Mathlib.Data.List.Induction
import Mathlib.Logic.Function.Basic

/-!
# Counted references that saturate

Members of a list refer to later members.  A sweep goes through the list with a count of references
to every member; a member that is no root and has none left is dropped, and takes its own references
with it.

* `sweep` — the sweep with a table of counts that stop at a cap; `needed` — what has to stay: the
  roots, what is referred to from outside, and what these refer to.
* `sweep_eq_capped`: what the table holds at a member, in terms of the references from what has been
  kept and from what has been dropped.
* `closed_capped_iff`: no kept member refers to a dropped one iff no needed member has as many
  references from members that are not needed as the cap allows.
-/

set_option autoImplicit false

namespace RefCount

variable {α : Type*} [DecidableEq α]

/-! ## Counts -/

/-- How often each member is referred to. -/
abbrev Counts (α : Type*) := α → Nat

/-- One reference more, as far as the cap allows. -/
def count (cap : Nat) (u : Counts α) (x : α) : Counts α :=
  Function.update u x (min (u x + 1) cap)

/-- One reference less. -/
def discount (u : Counts α) (x : α) : Counts α := Function.update u x (u x - 1)

theorem foldl_count (cap : Nat) (refs : List α) (x : α) :
    (refs.foldl (count cap) fun _ => 0) x = min cap (refs.count x) := by
  induction refs using List.reverseRecOn with
  | nil => simp
  | append_singleton refs y ih =>
    rw [List.foldl_append, List.foldl_cons, List.foldl_nil, count, List.count_append]
    by_cases hxy : x = y
    · subst hxy
      rw [Function.update_self, ih, List.count_singleton_self]
      omega
    · rw [Function.update_of_ne hxy, ih, List.count_singleton, if_neg (by simpa using Ne.symm hxy),
        Nat.add_zero]

theorem foldl_discount (u : Counts α) (refs : List α) (x : α) :
    refs.foldl discount u x = u x - refs.count x := by
  induction refs generalizing u with
  | nil => simp
  | cons y refs ih =>
    rw [List.foldl_cons, ih, discount, List.count_cons]
    by_cases hxy : x = y
    · subst hxy
      rw [Function.update_self, if_pos (beq_self_eq_true x)]
      omega
    · rw [Function.update_of_ne hxy, if_neg (by simpa using Ne.symm hxy), Nat.add_zero]

/-! ## The sweep -/

section

variable (args : α → List α) (root : α → Bool) (cap : Nat)

/-- Keep roots and what is still referred to; what is dropped gives back its references. -/
def sweep : Counts α → List α → List α
  | _, [] => []
  | u, v :: l =>
    if root v ∨ u v ≠ 0 then v :: sweep u l else sweep ((args v).foldl discount u) l

/-- The same with the references themselves: `seen` come from outside and from what was kept, `dead`
from what was dropped. -/
def capped (seen dead : List α) : List α → List α
  | [] => []
  | v :: l =>
    if root v ∨ (v ∈ seen ∧ dead.count v < cap) then v :: capped (args v ++ seen) dead l
    else capped seen (args v ++ dead) l

/-- What has to stay. -/
def needed (seen : List α) : List α → List α
  | [] => []
  | v :: l => if root v ∨ v ∈ seen then v :: needed (args v ++ seen) l else needed seen l

/-- No member is referred to by itself or by a later one, or occurs twice. -/
def UsersFirst : List α → Prop
  | [] => True
  | v :: l => v ∉ l ∧ (∀ w ∈ v :: l, v ∉ args w) ∧ UsersFirst l

/-- The references from members that are not needed. -/
def wasted (seen l : List α) : List α :=
  (l.filter (· ∉ needed args root seen l)).flatMap args

/-- Everything that `seen` or a kept member refers to is kept. -/
def Closed (seen kept l : List α) : Prop :=
  ∀ x ∈ l, x ∈ seen ∨ x ∈ kept.flatMap args → x ∈ kept

end

variable {args : α → List α} {root : α → Bool} {cap : Nat} {l seen dead : List α} {u : Counts α}
  {v x : α}

theorem needed_subset : ∀ {l seen : List α}, x ∈ needed args root seen l → x ∈ l
  | [], _, h => h
  | v :: l, seen, h => by
    rw [needed] at h
    split at h
    · exact (List.mem_cons.mp h).elim (fun he => he ▸ List.mem_cons_self)
        fun h => List.mem_cons_of_mem v (needed_subset h)
    · exact List.mem_cons_of_mem v (needed_subset h)

theorem sweep_sublist : ∀ (l : List α) (u : Counts α), (sweep args root u l).Sublist l
  | [], _ => .slnil
  | v :: l, u => by
    rw [sweep]
    split
    · exact (sweep_sublist l u).cons_cons v
    · exact (sweep_sublist l _).cons v

theorem capped_subset : ∀ {l seen dead : List α}, x ∈ capped args root cap seen dead l → x ∈ l
  | [], _, _, h => h
  | v :: l, seen, dead, h => by
    rw [capped] at h
    split at h
    · exact (List.mem_cons.mp h).elim (fun he => he ▸ List.mem_cons_self)
        fun h => List.mem_cons_of_mem v (capped_subset h)
    · exact List.mem_cons_of_mem v (capped_subset h)

theorem sweep_congr {args' : α → List α} {root' : α → Bool}
    (h : ∀ w ∈ l, args w = args' w ∧ root w = root' w) :
    sweep args root u l = sweep args' root' u l := by
  induction l generalizing u with
  | nil => rfl
  | cons v l ih =>
    obtain ⟨hargs, hroot⟩ := h v List.mem_cons_self
    have hrest : ∀ u, sweep args root u l = sweep args' root' u l := fun u =>
      ih fun w hw => h w (List.mem_cons_of_mem v hw)
    rw [sweep, sweep, hargs, hroot, hrest, hrest]

theorem UsersFirst.count_eq_zero (h : UsersFirst args (v :: l)) :
    ((v :: l).flatMap args).count v = 0 :=
  List.count_eq_zero.mpr fun hm =>
    let ⟨w, hw, hv⟩ := List.mem_flatMap.mp hm
    h.2.1 w hw hv

/-- **The table.**  At every member it has the references from all users, up to the cap, less those
that were given back. -/
theorem sweep_eq_capped (h : UsersFirst args l)
    (hu : ∀ x ∈ l, u x =
      min cap (seen.count x + dead.count x + (l.flatMap args).count x) - dead.count x) :
    sweep args root u l = capped args root cap seen dead l := by
  induction l generalizing u seen dead with
  | nil => rfl
  | cons v l ih =>
    have hv := hu v List.mem_cons_self
    rw [h.count_eq_zero, Nat.add_zero] at hv
    have hkeep : u v ≠ 0 ↔ v ∈ seen ∧ dead.count v < cap := by
      rw [← List.count_pos_iff, hv]
      omega
    have htotal : ∀ x, ((v :: l).flatMap args).count x =
        (args v).count x + (l.flatMap args).count x := fun x => by
      rw [List.flatMap_cons, List.count_append]
    rw [sweep, capped]
    simp only [hkeep]
    split
    · refine congrArg (v :: ·) (ih h.2.2 fun x hx => ?_)
      rw [hu x (List.mem_cons_of_mem v hx), htotal, List.count_append]
      congr 2
      omega
    · refine ih h.2.2 fun x hx => ?_
      rw [foldl_discount, hu x (List.mem_cons_of_mem v hx), htotal, List.count_append]
      have heq : seen.count x + dead.count x + ((args v).count x + (l.flatMap args).count x) =
          seen.count x + ((args v).count x + dead.count x) + (l.flatMap args).count x := by omega
      rw [heq]
      omega

/-! ## When the sweep is right -/

theorem count_wasted_cons_of_needed (h : UsersFirst args (v :: l)) (hv : root v ∨ v ∈ seen) :
    wasted args root seen (v :: l) = wasted args root (args v ++ seen) l := by
  rw [wasted, wasted, needed, if_pos hv, List.filter_cons_of_neg (by simp)]
  refine congrArg (List.flatMap args) (List.filter_congr fun x hx => ?_)
  have hne : x ≠ v := fun he => h.1 (he ▸ hx)
  simp [hne]

theorem wasted_cons_of_not_needed (h : UsersFirst args (v :: l)) (hv : ¬ (root v ∨ v ∈ seen)) :
    wasted args root seen (v :: l) = args v ++ wasted args root seen l := by
  have hnot : v ∉ needed args root seen l := fun hm => h.1 (needed_subset hm)
  rw [wasted, needed, if_neg hv, List.filter_cons_of_pos (by simpa using hnot), List.flatMap_cons]
  rfl

/-- A member's own references and those of later ones do not count for it. -/
theorem count_wasted_self (h : UsersFirst args (v :: l)) : (wasted args root seen l).count v = 0 :=
  List.count_eq_zero.mpr fun hm => by
    obtain ⟨w, hw, hv⟩ := List.mem_flatMap.mp hm
    exact h.2.1 w (List.mem_cons_of_mem v (List.mem_filter.mp hw).1) hv

/-- **When the sweep is right.**  Nothing kept refers to something dropped iff every needed member
that is no root has fewer references from members that are not needed than the cap. -/
theorem closed_capped_iff (h : UsersFirst args l) :
    Closed args seen (capped args root cap seen dead l) l ↔
      ∀ v ∈ needed args root seen l,
        root v ∨ (wasted args root seen l).count v + dead.count v < cap := by
  induction l generalizing seen dead with
  | nil => simp [Closed, needed]
  | cons v l ih =>
    have hnot : ∀ {seen dead : List α}, v ∉ capped args root cap seen dead l :=
      fun hm => h.1 (capped_subset hm)
    by_cases hroot : root v ∨ v ∈ seen
    · by_cases hcap : root v ∨ dead.count v < cap
      · have hkeep : root v ∨ (v ∈ seen ∧ dead.count v < cap) := by tauto
        rw [capped, if_pos hkeep, needed, if_pos hroot, count_wasted_cons_of_needed h hroot,
          List.forall_mem_cons, count_wasted_self h, Nat.zero_add, and_iff_right hcap, ← ih h.2.2]
        constructor
        · intro hc x hx hr
          have hmem := hc x (List.mem_cons_of_mem v hx) (by
            rw [List.flatMap_cons, List.mem_append]
            rw [List.mem_append] at hr
            tauto)
          exact (List.mem_cons.mp hmem).resolve_left fun he => h.1 (he ▸ hx)
        · intro hc x hx hr
          rcases List.mem_cons.mp hx with rfl | hx
          · exact List.mem_cons_self
          · refine List.mem_cons_of_mem v (hc x hx ?_)
            rw [List.flatMap_cons, List.mem_append] at hr
            rw [List.mem_append]
            tauto
      · have hdrop : ¬ (root v ∨ (v ∈ seen ∧ dead.count v < cap)) := by tauto
        have hseen : v ∈ seen := hroot.resolve_left fun hr => hcap (Or.inl hr)
        rw [capped, if_neg hdrop, needed, if_pos hroot, count_wasted_cons_of_needed h hroot]
        refine iff_of_false (fun hc => hnot (hc v List.mem_cons_self (Or.inl hseen))) fun hc => ?_
        have hv := hc v List.mem_cons_self
        rw [count_wasted_self h, Nat.zero_add] at hv
        exact hcap hv
    · have hdrop : ¬ (root v ∨ (v ∈ seen ∧ dead.count v < cap)) := by tauto
      rw [capped, if_neg hdrop, needed, if_neg hroot, wasted_cons_of_not_needed h hroot]
      have hcount : ∀ x, (args v ++ wasted args root seen l).count x + dead.count x =
          (wasted args root seen l).count x + (args v ++ dead).count x := fun x => by
        rw [List.count_append, List.count_append]
        omega
      simp only [hcount]
      rw [← ih h.2.2]
      refine ⟨fun hc x hx hr => hc x (List.mem_cons_of_mem v hx) hr, fun hc x hx hr => ?_⟩
      rcases List.mem_cons.mp hx with rfl | hx
      · rcases hr with hs | hr
        · exact absurd (Or.inr hs) hroot
        · obtain ⟨w, hw, hv⟩ := List.mem_flatMap.mp hr
          exact absurd hv (h.2.1 w (List.mem_cons_of_mem x (capped_subset hw)))
      · exact hc x hx hr

end RefCount
