import Mathlib.Data.List.Nodup

/-!
# Linear scan

Linear scan visits intervals in the order of their first positions and gives each a resource.  An
interval takes a free resource, which it keeps until it *expires*, when the scan is past its last
position; or it is *handed* the resource of another interval that ends where it begins.

* `Overlap` — two intervals are in use at one position.
* `Bank` — the invariant of one kind of resource: the active list has everything in use that does
  not end before the position `lim`, and nothing free.
* `Bank.expire`, `Bank.take`, `Bank.handOver` — the three moves keep it.
* `Bank.past` — whoever has held a free resource is past.

An allocator has several kinds of resources and places a value in one of them.  Here is one kind;
who *holds* a resource and which are *free* are relations, so that an allocator can keep them as
masks, as lists, or as the locations it has written down.  An allocator with three kinds has three
banks, and a step changes one.

An interval is in use after its first position and up to its last, so that one that ends at a
position and one that begins there do not overlap.  This is what lets a resource be handed over.  A
free resource is stricter than needed: it is only taken once its holder has ended *before* the new
interval begins, and a program that wants the register of an operand that dies has to ask for it.
-/

set_option autoImplicit false

namespace LinearScan

variable {ι ρ : Type*}

/-- Some position is after the first and up to the last of both. -/
def Overlap (first last : ι → ℕ) (i j : ι) : Prop := max (first i) (first j) < min (last i) (last j)

section Overlap

variable {first last : ι → ℕ} {i j k : ι}

theorem overlap_comm : Overlap first last i j ↔ Overlap first last j i := by
  rw [Overlap, Overlap, Nat.max_comm, Nat.min_comm]

theorem not_overlap_of_le (h : last i ≤ first j) : ¬ Overlap first last i j := by
  rw [Overlap]
  omega

/-- What does not overlap `i` does not overlap the interval that starts where `i` ends. -/
theorem not_overlap_handOver (h : ¬ Overlap first last k i) (hends : last i = first j)
    (hk : first k < first j) (hi : first i < first j) : ¬ Overlap first last k j := by
  rw [Overlap] at *
  omega

end Overlap

/-- Replace the first element with `p`. -/
def replaceFirst {α : Type*} (p : α → Bool) (b : α) : List α → List α
  | [] => []
  | a :: l => if p a then b :: l else a :: replaceFirst p b l

section replaceFirst

variable {α : Type*} {p : α → Bool} {a b : α} {l : List α}

theorem mem_replaceFirst (h : a ∈ replaceFirst p b l) : a = b ∨ a ∈ l := by
  induction l with
  | nil => exact .inr h
  | cons c l ih =>
    rw [replaceFirst] at h
    split at h
    · exact (List.mem_cons.mp h).imp_right (List.mem_cons_of_mem c)
    · rcases List.mem_cons.mp h with rfl | h
      · exact .inr (.head _)
      · exact (ih h).imp_right (List.mem_cons_of_mem c)

theorem mem_replaceFirst_of_not (h : a ∈ l) (hp : p a = false) : a ∈ replaceFirst p b l := by
  induction l with
  | nil => exact h
  | cons c l ih =>
    rw [replaceFirst]
    split
    · rename_i hc
      rcases List.mem_cons.mp h with rfl | h
      · rw [hp] at hc
        cases hc
      · exact .tail _ h
    · rcases List.mem_cons.mp h with rfl | h
      · exact .head _
      · exact .tail _ (ih h)

theorem mem_replaceFirst_self (h : a ∈ l) (hp : p a = true) : b ∈ replaceFirst p b l := by
  induction l with
  | nil => cases h
  | cons c l ih =>
    rw [replaceFirst]
    split
    · exact .head _
    · rename_i hc
      rcases List.mem_cons.mp h with rfl | h
      · exact absurd hp hc
      · exact .tail _ (ih h)

theorem map_replaceFirst {β : Type*} (f : α → β) (hf : ∀ a, p a = true → f a = f b) :
    (replaceFirst p b l).map f = l.map f := by
  induction l with
  | nil => rfl
  | cons c l ih =>
    rw [replaceFirst]
    split
    · rename_i hc
      rw [List.map_cons, List.map_cons, hf c hc]
    · rw [List.map_cons, List.map_cons, ih]

end replaceFirst

/-- An entry of the active list: the last position, the resource, the interval. -/
abbrev Active (ι ρ : Type*) := ℕ × ρ × ι

/-- Every entry is of an interval that holds its resource, every resource held by an interval that
reaches `lim` has its entry, and no resource is in two entries, or in one and free. -/
structure Bank (last : ι → ℕ) (holds : ι → ρ → Prop) (free : ρ → Prop)
    (active : List (Active ι ρ)) (lim : ℕ) : Prop where
  entry : ∀ a ∈ active, holds a.2.2 a.2.1 ∧ a.1 = last a.2.2
  tracked : ∀ i r, holds i r → lim ≤ last i → (last i, r, i) ∈ active
  not_free : ∀ a ∈ active, ¬ free a.2.1
  nodup : (active.map (·.2.1)).Nodup

namespace Bank

variable {last : ι → ℕ} {holds : ι → ρ → Prop} {free : ρ → Prop} {active : List (Active ι ρ)}
  {lim : ℕ}

theorem empty : Bank last (fun _ _ => False) free [] lim where
  entry := by simp
  tracked := by simp
  not_free := by simp
  nodup := .nil

theorem mono (h : Bank last holds free active lim) {lim' : ℕ} (hle : lim ≤ lim') :
    Bank last holds free active lim' :=
  { h with tracked := fun i r hi hlast => h.tracked i r hi (Nat.le_trans hle hlast) }

theorem congr (h : Bank last holds free active lim) {holds' : ι → ρ → Prop} {free' : ρ → Prop}
    (hholds : ∀ i r, holds' i r ↔ holds i r) (hfree : ∀ r, free' r → free r) :
    Bank last holds' free' active lim where
  entry a ha := ⟨(hholds _ _).mpr (h.entry a ha).1, (h.entry a ha).2⟩
  tracked i r hi := h.tracked i r ((hholds i r).mp hi)
  not_free a ha hr := h.not_free a ha (hfree _ hr)
  nodup := h.nodup

/-- **Expiry.**  The entries that end before `start` go, and their resources are free. -/
theorem expire (h : Bank last holds free active lim) {start : ℕ} (hle : lim ≤ start) :
    Bank last holds (fun r => free r ∨ ∃ a ∈ active, a.1 < start ∧ a.2.1 = r)
      (active.filter fun a => start ≤ a.1) start where
  entry a ha := h.entry a (List.mem_of_mem_filter ha)
  tracked i r hi hlast := List.mem_filter.mpr
    ⟨h.tracked i r hi (Nat.le_trans hle hlast), decide_eq_true hlast⟩
  not_free := by
    intro a ha hfree
    obtain ⟨hmem, hkept⟩ := List.mem_filter.mp ha
    rcases hfree with hfree | ⟨b, hb, hlt, hres⟩
    · exact h.not_free a hmem hfree
    · obtain rfl := List.inj_on_of_nodup_map h.nodup hb hmem hres
      exact absurd hlt (Nat.not_lt.mpr (of_decide_eq_true hkept))
  nodup := h.nodup.sublist ((List.filter_sublist).map _)

/-- Who has held a resource that is free now ended before `lim`. -/
theorem past (h : Bank last holds free active lim) {i : ι} {r : ρ} (hi : holds i r) (hr : free r) :
    last i < lim := by
  by_contra hlast
  exact h.not_free _ (h.tracked i r hi (Nat.not_lt.mp hlast)) hr

/-- **A free resource is taken** by the interval `v`. -/
theorem take (h : Bank last holds free active lim) {v : ι} {r : ρ} (hr : free r) :
    Bank last (fun i s => holds i s ∨ i = v ∧ s = r) (fun s => free s ∧ s ≠ r)
      (active ++ [(last v, r, v)]) lim where
  entry := by
    intro a ha
    rcases List.mem_append.mp ha with ha | ha
    · exact (h.entry a ha).imp_left .inl
    · rw [List.mem_singleton.mp ha]
      exact ⟨.inr ⟨rfl, rfl⟩, rfl⟩
  tracked := by
    rintro i s (hi | ⟨rfl, rfl⟩) hlast
    · exact List.mem_append_left _ (h.tracked i s hi hlast)
    · exact List.mem_append_right _ (.head _)
  not_free := by
    rintro a ha ⟨hfree, hne⟩
    rcases List.mem_append.mp ha with ha | ha
    · exact h.not_free a ha hfree
    · rw [List.mem_singleton.mp ha] at hne
      exact hne rfl
  nodup := by
    rw [List.map_append, List.nodup_append]
    refine ⟨h.nodup, List.nodup_singleton _, ?_⟩
    rintro _ hs _ hr' rfl
    obtain ⟨a, ha, rfl⟩ := List.mem_map.mp hs
    have hres : a.2.1 = r := List.mem_singleton.mp hr'
    rw [← hres] at hr
    exact h.not_free a ha hr

/-- **A resource is handed over** from `u`, which ends at `lim`, to `v`. -/
theorem handOver [DecidableEq ι] [DecidableEq ρ] (h : Bank last holds free active lim) {u v : ι}
    {r : ρ} (hu : holds u r) (hlast : last u = lim) :
    Bank last (fun i s => holds i s ∨ i = v ∧ s = r) free
      (replaceFirst (fun a => a.2.1 = r && a.2.2 = u) (last v, r, v) active) (lim + 1) where
  entry := by
    intro a ha
    rcases mem_replaceFirst ha with rfl | ha
    · exact ⟨.inr ⟨rfl, rfl⟩, rfl⟩
    · exact (h.entry a ha).imp_left .inl
  tracked := by
    rintro i s (hi | ⟨rfl, rfl⟩) hreach
    · refine mem_replaceFirst_of_not (h.tracked i s hi (by omega)) ?_
      have hne : i ≠ u := by
        rintro rfl
        omega
      simp [hne]
    · exact mem_replaceFirst_self (h.tracked u s hu (Nat.le_of_eq hlast.symm)) (by simp)
  not_free := by
    intro a ha hfree
    rcases mem_replaceFirst ha with rfl | ha
    · exact h.not_free _ (h.tracked u r hu (Nat.le_of_eq hlast.symm)) hfree
    · exact h.not_free a ha hfree
  nodup := by
    have hsame := map_replaceFirst (l := active) (b := (last v, r, v)) (fun a => a.2.1)
      (p := fun a => a.2.1 = r && a.2.2 = u) fun a ha => by
        simp only [Bool.and_eq_true, decide_eq_true_eq] at ha
        exact ha.1
    rw [hsame]
    exact h.nodup

end Bank

end LinearScan
