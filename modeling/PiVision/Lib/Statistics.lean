import Mathlib.Algebra.BigOperators.Group.List.Basic
import Mathlib.Algebra.BigOperators.Ring.List
import Mathlib.Algebra.Order.BigOperators.Group.List
import Mathlib.Order.Bounds.Basic
import Mathlib.Tactic.Linarith
import Mathlib.Tactic.Ring

/-!
# Means, deviations and extremes of a sample

Facts about a list of numbers that a program has summed up in one pass: where its mean lies
if every number lies between two limits and a small amount is carried over from before, the
sum of the products of two deviations by the sums of the numbers and of their products, and
the extremes that a loop finds.
-/

namespace Statistics

variable {α : Type*}

/-! ## The mean -/

section Mean

variable {lo hi carry : ℕ} {xs : List ℕ}

theorem length_mul_le_sum (above : ∀ x ∈ xs, lo ≤ x) : xs.length * lo ≤ xs.sum :=
  List.card_nsmul_le_sum xs lo above

theorem sum_le_length_mul (below : ∀ x ∈ xs, x ≤ hi) : xs.sum ≤ xs.length * hi :=
  List.sum_le_card_nsmul xs hi below

/-- The mean is not below the lower limit. -/
theorem le_mean (nonempty : 0 < xs.length) (above : ∀ x ∈ xs, lo ≤ x) :
    lo ≤ (carry + xs.sum) / xs.length := by
  rw [Nat.le_div_iff_mul_le nonempty, Nat.mul_comm]
  exact (length_mul_le_sum above).trans (Nat.le_add_left _ _)

/-- The mean is not above the upper limit, if less is carried over than there are numbers. -/
theorem mean_le (small : carry < xs.length) (below : ∀ x ∈ xs, x ≤ hi) :
    (carry + xs.sum) / xs.length ≤ hi := by
  have hsum := sum_le_length_mul below
  rw [← Nat.lt_succ_iff, Nat.div_lt_iff_lt_mul (Nat.zero_lt_of_lt small)]
  calc carry + xs.sum < xs.length + xs.length * hi := by omega
    _ = (hi + 1) * xs.length := by ring

end Mean

/-! ## Deviations -/

/-- The sum of the products of two deviations from one number. -/
theorem sum_map_sub_mul_sub {R : Type*} [CommRing R] (f g : α → R) (a : R) (xs : List α) :
    (xs.map fun x => (f x - a) * (g x - a)).sum =
      (xs.map fun x => f x * g x).sum + xs.length * a ^ 2 -
        a * ((xs.map f).sum + (xs.map g).sum) := by
  induction xs with
  | nil => simp
  | cons x xs ih =>
    simp only [List.map_cons, List.sum_cons, ih, List.length_cons, Nat.cast_add, Nat.cast_one]
    ring

/-- A number and the nearest one between two limits deviate to the same side of a number
between the limits. -/
theorem sub_mul_sub_nonneg_of_clamp {lo hi a x : ℤ} (above : lo ≤ a) (below : a ≤ hi) :
    0 ≤ (max lo (min x hi) - a) * (x - a) := by
  rcases le_total a x with hle | hle
  · have hclamp : a ≤ max lo (min x hi) := le_max_of_le_right (le_min hle below)
    exact mul_nonneg (sub_nonneg.mpr hclamp) (sub_nonneg.mpr hle)
  · have hclamp : max lo (min x hi) ≤ a := max_le above ((min_le_left x hi).trans hle)
    exact mul_nonneg_of_nonpos_of_nonpos (sub_nonpos.mpr hclamp) (sub_nonpos.mpr hle)

/-! ## Extremes -/

section Extremes

variable [LinearOrder α] {m : α} {xs : List α}

/-- A loop that keeps the greater of two numbers ends with the greatest of all. -/
theorem isGreatest_foldl_max (m : α) (xs : List α) :
    IsGreatest {x | x = m ∨ x ∈ xs} (xs.foldl max m) := by
  induction xs generalizing m with
  | nil => exact ⟨.inl rfl, fun x hx => by simpa using le_of_eq (hx.resolve_right (by simp))⟩
  | cons y ys ih =>
    obtain ⟨hmem, hle⟩ := ih (max m y)
    rw [List.foldl_cons]
    refine ⟨?_, fun x hx => ?_⟩
    · rcases hmem with hstart | hrest
      · rcases max_choice m y with h | h
        · exact .inl (hstart.trans h)
        · exact .inr (List.mem_cons.mpr (.inl (hstart.trans h)))
      · exact .inr (List.mem_cons_of_mem y hrest)
    · have hstart := hle (.inl rfl)
      rcases hx with rfl | hx
      · exact (le_max_left x y).trans hstart
      · rcases List.mem_cons.mp hx with rfl | hx
        · exact (le_max_right m x).trans hstart
        · exact hle (.inr hx)

/-- Where the loop starts with a number that is not above any, it ends with the greatest. -/
theorem isGreatest_foldl_max_of_le (nonempty : xs ≠ []) (start : ∀ x ∈ xs, m ≤ x) :
    IsGreatest {x | x ∈ xs} (xs.foldl max m) := by
  obtain ⟨hmem, hle⟩ := isGreatest_foldl_max m xs
  refine ⟨?_, fun x hx => hle (.inr hx)⟩
  rcases hmem with hstart | hrest
  · obtain ⟨x, hx⟩ := List.exists_mem_of_ne_nil xs nonempty
    have heq : xs.foldl max m = x :=
      le_antisymm (hstart.le.trans (start x hx)) (hle (.inr hx))
    exact heq ▸ hx
  · exact hrest

theorem isLeast_foldl_min_of_le (nonempty : xs ≠ []) (start : ∀ x ∈ xs, x ≤ m) :
    IsLeast {x | x ∈ xs} (xs.foldl min m) :=
  isGreatest_foldl_max_of_le (α := αᵒᵈ) nonempty start

/-- The extremes agree if and only if all numbers do. -/
theorem foldl_max_eq_foldl_min_iff {l : α} (nonempty : xs ≠ []) (start : ∀ x ∈ xs, m ≤ x ∧ x ≤ l) :
    xs.foldl max m = xs.foldl min l ↔ ∃ v, ∀ x ∈ xs, x = v := by
  have hmax := isGreatest_foldl_max_of_le nonempty fun x hx => (start x hx).1
  have hmin := isLeast_foldl_min_of_le nonempty fun x hx => (start x hx).2
  constructor
  · intro heq
    refine ⟨xs.foldl max m, fun x hx => le_antisymm (hmax.2 hx) ?_⟩
    rw [heq]
    exact hmin.2 hx
  · rintro ⟨v, hall⟩
    rw [hall _ hmax.1, hall _ hmin.1]

end Extremes

/-! ## Stretching -/

section Stretching

variable {ι : Type*} {limit lo hi : ℕ} {v out : ι → ℕ}

/-- Numbers stretched from their extent onto a range, by a whole factor. -/
structure Stretch (limit : ℕ) (v out : ι → ℕ) (lo hi : ℕ) : Prop where
  least : IsLeast (Set.range v) lo
  greatest : IsGreatest (Set.range v) hi
  formula : ∀ i, out i = (v i - lo) * (limit / (hi - lo))

theorem Stretch.le_of_le (stretch : Stretch limit v out lo hi) {i j : ι} (le : v i ≤ v j) :
    out i ≤ out j := by
  rw [stretch.formula, stretch.formula]
  exact Nat.mul_le_mul_right _ (Nat.sub_le_sub_right le lo)

theorem Stretch.eq_zero_of_least (stretch : Stretch limit v out lo hi) {i : ι}
    (least : ∀ j, v i ≤ v j) : out i = 0 := by
  obtain ⟨j, hj⟩ := stretch.least.1
  have hle : v i ≤ lo := hj ▸ least j
  rw [stretch.formula, Nat.sub_eq_zero_of_le hle, Nat.zero_mul]

/-- A part of a whole, times what the whole goes into a limit, stays within the limit. -/
theorem mul_div_le_of_le {part whole : ℕ} (le : part ≤ whole) (limit : ℕ) :
    part * (limit / whole) ≤ limit :=
  (Nat.mul_le_mul_right _ le).trans (Nat.mul_div_le limit whole)

end Stretching

end Statistics
