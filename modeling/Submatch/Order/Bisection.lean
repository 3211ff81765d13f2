/-!
# Bisection

`partitionPoint` finds by halving where a property that holds of a first part of
an array, and of nothing after it, stops holding.

* `below_of_lt_partitionPoint`, `not_below_of_partitionPoint_le`: on a partitioned
  array the elements before the point have the property and the others do not;
* `partitioned_of_pairwise`: a list in order is partitioned.
-/

namespace Submatch.Order

variable {α : Type} {xs : Array α} {below : α → Bool}

/-- The boundary of `below` between `lo` and `hi`, where every element before `lo` is
known to be below it and every element from `hi` on is known not to be. -/
def bisect (xs : Array α) (below : α → Bool) (lo hi : Nat) : Nat :=
  if lo < hi then
    let mid := lo + (hi - lo) / 2
    match xs[mid]? with
    | some x => if below x then bisect xs below (mid + 1) hi else bisect xs below lo mid
    | none => bisect xs below lo mid
  else lo
termination_by hi - lo

/-- The number of leading elements of `xs` that are below the boundary. -/
def partitionPoint (xs : Array α) (below : α → Bool) : Nat := bisect xs below 0 xs.size

/-- The property holds of a first part of the array and of nothing after it. -/
def Partitioned (xs : Array α) (below : α → Bool) : Prop :=
  ∀ (i j : Nat) (x y : α), i ≤ j → xs[i]? = some x → xs[j]? = some y →
    below y = true → below x = true

/-- What is known on either side of the two bounds is known of the point found. -/
theorem bisect_separates (hp : Partitioned xs below) (lo hi : Nat) (h : lo ≤ hi)
    (hlo : ∀ i x, i < lo → xs[i]? = some x → below x = true)
    (hhi : ∀ i x, hi ≤ i → xs[i]? = some x → below x = false) :
    (∀ i x, i < bisect xs below lo hi → xs[i]? = some x → below x = true) ∧
      ∀ i x, bisect xs below lo hi ≤ i → xs[i]? = some x → below x = false := by
  fun_induction bisect xs below lo hi with
  | case1 lo hi hlt mid y hy hb ih =>
    exact ih (by omega) (fun i x hi hx => hp i mid x y (by omega) hx hy hb) hhi
  | case2 lo hi hlt mid y hy hb ih =>
    refine ih (by omega) hlo fun i x hi hx => ?_
    cases hbx : below x with
    | false => rfl
    | true => exact absurd (hp mid i y x hi hy hx hbx) hb
  | case3 lo hi hlt mid hm ih =>
    refine ih (by omega) hlo fun i x hi hx => ?_
    have : xs.size ≤ mid := by simpa using hm
    rw [Array.getElem?_eq_none (by omega)] at hx
    exact absurd hx (by simp)
  | case4 lo hi hlt =>
    obtain rfl : lo = hi := by omega
    exact ⟨hlo, hhi⟩

theorem below_of_lt_partitionPoint (hp : Partitioned xs below) {i : Nat} {x : α}
    (hi : i < partitionPoint xs below) (hx : xs[i]? = some x) : below x = true :=
  (bisect_separates hp 0 xs.size (Nat.zero_le _) (fun _ _ h => absurd h (Nat.not_lt_zero _))
    (fun i x h hx => by rw [Array.getElem?_eq_none h] at hx; simp at hx)).1 i x hi hx

theorem not_below_of_partitionPoint_le (hp : Partitioned xs below) {i : Nat} {x : α}
    (hi : partitionPoint xs below ≤ i) (hx : xs[i]? = some x) : below x = false :=
  (bisect_separates hp 0 xs.size (Nat.zero_le _) (fun _ _ h => absurd h (Nat.not_lt_zero _))
    (fun i x h hx => by rw [Array.getElem?_eq_none h] at hx; simp at hx)).2 i x hi hx

/-- The point is where the first element lies that is not below the boundary. -/
theorem partitionPoint_eq (hp : Partitioned xs below) {j : Nat} {x : α} (hx : xs[j]? = some x)
    (hnot : below x = false) (hbefore : ∀ i y, i < j → xs[i]? = some y → below y = true) :
    partitionPoint xs below = j := by
  obtain ⟨hj, -⟩ := Array.getElem?_eq_some_iff.1 hx
  rcases Nat.lt_trichotomy (partitionPoint xs below) j with hlt | heq | hgt
  · have hget := Array.getElem?_eq_getElem (Nat.lt_trans hlt hj)
    have hbelow := hbefore _ _ hlt hget
    rw [not_below_of_partitionPoint_le hp (Nat.le_refl _) hget] at hbelow
    cases hbelow
  · exact heq
  · have hbelow := below_of_lt_partitionPoint hp hgt hx
    rw [hnot] at hbelow
    cases hbelow

/-- A list in order is partitioned by what is handed on to earlier elements. -/
theorem partitioned_of_pairwise {l : List α} {R : α → α → Prop} (h : l.Pairwise R)
    (hR : ∀ x y, R x y → below y = true → below x = true) : Partitioned l.toArray below := by
  intro i j x y hij hx hy hbelow
  rw [List.getElem?_toArray] at hx hy
  rcases Nat.eq_or_lt_of_le hij with rfl | hij
  · rw [hx] at hy
    cases hy
    exact hbelow
  · obtain ⟨hi, rfl⟩ := List.getElem?_eq_some_iff.1 hx
    obtain ⟨hj, rfl⟩ := List.getElem?_eq_some_iff.1 hy
    exact hR _ _ (List.pairwise_iff_getElem.1 h i j hi hj hij) hbelow

end Submatch.Order
