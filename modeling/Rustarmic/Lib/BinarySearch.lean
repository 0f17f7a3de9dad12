import Mathlib.Data.List.Basic

/-!
# Binary search

The search of the standard library's slices: it halves the number of candidates, keeping the first
one, and compares with the one that is left at the end.  A comparison function grades a list when
the elements that compare less come before those that compare equal, and these before the rest.

* `binarySearchBy_ok` — a hit compares equal.
* `binarySearchBy_error` — a miss is the boundary between what compares less and what compares
  greater.
* `partitionPoint_spec` — the boundary between where a predicate holds and where it does not.
* `binarySearchByKey_spec` — in a list sorted by a key, the search finds the element of that key.
* `pairwise_insert_partitionPoint` — insertion at the partition point keeps a list sorted.
-/

set_option autoImplicit false

namespace BinarySearch

variable {α : Type*} {f : α → Ordering} {xs : List α}

/-- How the element at a position compares; past the end, greater. -/
def probe (f : α → Ordering) (xs : List α) (i : Nat) : Ordering := (xs[i]?).elim .gt f

/-- Halve the candidates `base .. base + size` until one is left. -/
def narrow (f : α → Ordering) (xs : List α) (base size : Nat) : Nat :=
  if 1 < size then
    let half := size / 2
    let mid := base + half
    narrow f xs (if probe f xs mid = .gt then base else mid) (size - half)
  else base
termination_by size
decreasing_by omega

/-- The position of an element that compares equal, or where one would have to be inserted. -/
def binarySearchBy (f : α → Ordering) (xs : List α) : Except Nat Nat :=
  if xs.length = 0 then .error 0
  else
    let base := narrow f xs 0 xs.length
    match probe f xs base with
    | .eq => .ok base
    | .lt => .error (base + 1)
    | .gt => .error base

def binarySearchByKey (key : α → Nat) (k : Nat) (xs : List α) : Except Nat Nat :=
  binarySearchBy (fun x => compare (key x) k) xs

/-- The first position where `p` fails, when it fails from there on. -/
def partitionPoint (p : α → Bool) (xs : List α) : Nat :=
  match binarySearchBy (fun x => if p x then .lt else .gt) xs with
  | .ok i => i
  | .error i => i

/-! ## Graded lists -/

/-- What compares less comes first, what compares greater last. -/
def Graded (f : α → Ordering) (xs : List α) : Prop :=
  ∀ i j, i ≤ j → (probe f xs i = .gt → probe f xs j = .gt) ∧
    (probe f xs j = .lt → probe f xs i = .lt)

theorem probe_of_lt {i : Nat} (h : i < xs.length) : probe f xs i = f xs[i] := by
  rw [probe, List.getElem?_eq_getElem h, Option.elim_some]

theorem probe_of_ge {i : Nat} (h : xs.length ≤ i) : probe f xs i = .gt := by
  rw [probe, List.getElem?_eq_none h, Option.elim_none]

theorem graded_of_pairwise
    (h : xs.Pairwise fun a b => (f a = .gt → f b = .gt) ∧ (f b = .lt → f a = .lt)) :
    Graded f xs := by
  intro i j hij
  by_cases hj : j < xs.length
  · rcases Nat.lt_or_eq_of_le hij with hlt | rfl
    · rw [probe_of_lt hj, probe_of_lt (by omega)]
      exact List.pairwise_iff_getElem.mp h i j (by omega) hj hlt
    · exact ⟨id, id⟩
  · rw [probe_of_ge (by omega : xs.length ≤ j)]
    exact ⟨fun _ => rfl, fun hlt => by cases hlt⟩

/-! ## The search -/

/-- The candidate that is left: everything after it compares greater, and so does it only when it is
the first element. -/
theorem narrow_spec (hf : Graded f xs) {base size : Nat} (hsize : 0 < size)
    (hafter : ∀ j, base + size ≤ j → probe f xs j = .gt)
    (hbase : base = 0 ∨ probe f xs base ≠ .gt) :
    (∀ j, narrow f xs base size < j → probe f xs j = .gt) ∧
      (narrow f xs base size = 0 ∨ probe f xs (narrow f xs base size) ≠ .gt) := by
  induction base, size using narrow.induct f xs with
  | case1 base size hlt half mid ih =>
    rw [narrow, if_pos hlt]
    refine ih (by omega) ?_ ?_
    · intro j hj
      by_cases hmid : probe f xs mid = .gt
      · rw [dif_pos hmid] at hj
        exact (hf mid j (by omega)).1 hmid
      · rw [dif_neg hmid] at hj
        exact hafter j (by omega)
    · by_cases hmid : probe f xs mid = .gt
      · rwa [dif_pos hmid]
      · exact .inr (by rwa [dif_neg hmid])
  | case2 base size hge =>
    rw [narrow, if_neg hge]
    exact ⟨fun j hj => hafter j (by omega), hbase⟩

theorem binarySearchBy_ok {i : Nat} (h : binarySearchBy f xs = .ok i) : probe f xs i = .eq := by
  rw [binarySearchBy] at h
  split_ifs at h
  dsimp only at h
  split at h <;> cases h
  assumption

/-- A miss splits the list. -/
theorem binarySearchBy_error (hf : Graded f xs) {i : Nat} (h : binarySearchBy f xs = .error i) :
    (∀ j, j < i → probe f xs j = .lt) ∧ ∀ j, i ≤ j → probe f xs j = .gt := by
  rw [binarySearchBy] at h
  split_ifs at h with hlen
  · cases h
    exact ⟨fun j hj => absurd hj (by omega), fun j _ => probe_of_ge (by omega)⟩
  · dsimp only at h
    obtain ⟨hafter, hbase⟩ := narrow_spec hf (by omega : 0 < xs.length)
      (fun j hj => probe_of_ge (by omega)) (.inl rfl)
    split at h <;> cases h
    · rename_i hlt
      exact ⟨fun j hj => (hf _ _ (by omega)).2 hlt, fun j hj => hafter j (by omega)⟩
    · rename_i hgt
      -- Only the first element can be left over and compare greater.
      have hzero := hbase.resolve_right (by simp [hgt])
      rw [hzero] at hgt ⊢
      exact ⟨fun j hj => absurd hj (by omega), fun j hj => (hf _ _ hj).1 hgt⟩

theorem partitionPoint_spec {p : α → Bool} (h : xs.Pairwise fun a b => p b = true → p a = true) :
    (∀ j (hj : j < xs.length), j < partitionPoint p xs → p xs[j] = true) ∧
      (∀ j (hj : j < xs.length), partitionPoint p xs ≤ j → p xs[j] = false) ∧
      partitionPoint p xs ≤ xs.length := by
  have hgraded : Graded (fun x => if p x then Ordering.lt else .gt) xs := by
    refine graded_of_pairwise (h.imp fun {a b} hab => ?_)
    revert hab
    cases p a <;> cases p b <;> simp
  rw [partitionPoint]
  cases hs : binarySearchBy (fun x => if p x then Ordering.lt else .gt) xs with
  | ok i =>
    have heq := binarySearchBy_ok hs
    by_cases hi : i < xs.length
    · rw [probe_of_lt hi] at heq
      split_ifs at heq
    · rw [probe_of_ge (by omega)] at heq
      cases heq
  | error i =>
    obtain ⟨hlt, hgt⟩ := binarySearchBy_error hgraded hs
    dsimp only
    refine ⟨fun j hj hji => ?_, fun j hj hij => ?_, ?_⟩
    · have := hlt j hji
      rw [probe_of_lt hj] at this
      by_contra hp
      rw [if_neg hp] at this
      cases this
    · have := hgt j hij
      rw [probe_of_lt hj] at this
      by_contra hp
      rw [if_pos (by simpa using hp)] at this
      cases this
    · by_contra hlen
      have := hlt xs.length (by omega)
      rw [probe_of_ge (Nat.le_refl _)] at this
      cases this

/-- **The search by key is exact on a list sorted by that key.** -/
theorem binarySearchByKey_spec {key : α → Nat} (h : xs.Pairwise (key · ≤ key ·)) (k : Nat) :
    (∀ i, binarySearchByKey key k xs = .ok i → ∃ x, xs[i]? = some x ∧ key x = k) ∧
      (∀ i, binarySearchByKey key k xs = .error i → ∀ x ∈ xs, key x ≠ k) := by
  constructor
  · intro i hi
    have heq := binarySearchBy_ok hi
    rw [probe] at heq
    cases hx : xs[i]? with
    | none =>
      rw [hx] at heq
      cases heq
    | some x =>
      rw [hx, Option.elim_some, Nat.compare_eq_eq] at heq
      exact ⟨x, rfl, heq⟩
  · intro i hi x hx hkey
    have hgraded : Graded (fun x => compare (key x) k) xs := by
      refine graded_of_pairwise (h.imp fun {a b} hab => ?_)
      rw [Nat.compare_eq_gt, Nat.compare_eq_gt, Nat.compare_eq_lt, Nat.compare_eq_lt]
      exact ⟨by omega, by omega⟩
    obtain ⟨hlt, hgt⟩ := binarySearchBy_error hgraded hi
    obtain ⟨j, hj, rfl⟩ := List.mem_iff_getElem.mp hx
    have heq : probe (fun x => compare (key x) k) xs j = .eq := by
      rw [probe_of_lt hj, Nat.compare_eq_eq, hkey]
    rcases Nat.lt_or_ge j i with h | h
    · rw [hlt j h] at heq
      cases heq
    · rw [hgt j h] at heq
      cases heq

/-! ## Insertion -/

theorem insertIdx_eq_append {i : Nat} (h : i ≤ xs.length) (x : α) :
    xs.insertIdx i x = xs.take i ++ x :: xs.drop i := by
  induction xs generalizing i with
  | nil =>
    obtain rfl : i = 0 := by simpa using h
    rfl
  | cons y ys ih =>
    cases i with
    | zero => rfl
    | succ i => rw [List.insertIdx_succ_cons, ih (by simpa using h)]; rfl

/-- **A new key inserted at the partition point keeps the list sorted.** -/
theorem pairwise_insert_partitionPoint {key : α → Nat} (h : xs.Pairwise (key · < key ·)) {x : α}
    (hx : ∀ y ∈ xs, key y ≠ key x) :
    (xs.insertIdx (partitionPoint (fun y => key y < key x) xs) x).Pairwise (key · < key ·) ∧
      (xs.insertIdx (partitionPoint (fun y => key y < key x) xs) x).Perm (x :: xs) := by
  obtain ⟨hbelow, habove, hle⟩ := @partitionPoint_spec _ xs (fun y => key y < key x)
    (h.imp fun {a b} hab hb => by simp only [decide_eq_true_eq] at hb ⊢; omega)
  generalize partitionPoint (fun y => key y < key x) xs = i at hbelow habove hle ⊢
  refine ⟨?_, List.perm_insertIdx x xs hle⟩
  rw [insertIdx_eq_append hle]
  have htake : ∀ y ∈ xs.take i, key y < key x := by
    intro y hy
    obtain ⟨j, hj, rfl⟩ := List.mem_iff_getElem.mp hy
    rw [List.length_take] at hj
    rw [List.getElem_take]
    simpa using hbelow j (by omega) (by omega)
  have hdrop : ∀ y ∈ xs.drop i, key x < key y := by
    intro y hy
    have hne := hx y (List.mem_of_mem_drop hy)
    obtain ⟨j, hj, rfl⟩ := List.mem_iff_getElem.mp hy
    rw [List.length_drop] at hj
    rw [List.getElem_drop] at hne ⊢
    have := habove (i + j) (by omega) (by omega)
    simp only [decide_eq_false_iff_not] at this
    omega
  rw [List.pairwise_append, List.pairwise_cons]
  refine ⟨h.sublist (List.take_sublist i xs), ⟨hdrop, h.sublist (List.drop_sublist i xs)⟩, ?_⟩
  intro a ha b hb
  have hax := htake a ha
  rcases List.mem_cons.mp hb with rfl | hb
  · exact hax
  · exact Nat.lt_trans hax (hdrop b hb)

end BinarySearch
