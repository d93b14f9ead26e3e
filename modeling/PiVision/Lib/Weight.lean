import Mathlib.Algebra.BigOperators.Group.List.Basic
import Mathlib.Algebra.GroupWithZero.Nat
import Mathlib.Data.List.Perm.Basic

/-!
# What is passed on

Where a system does its work by passing something on, from a message to a job and from a job to
the next message, there is never more of it than there has been at the start. Each thing that can
hold it has a weight, and what lies in a list weighs what its elements do: a step that takes an
element out and puts in no more than it weighs does not raise the sum.
-/

namespace PiVision

/-- The weight of all of a list. -/
def weigh {α : Type*} (weight : α → ℕ) (xs : List α) : ℕ := (xs.map weight).sum

section Weigh

variable {α β : Type*} {weight : α → ℕ} {xs ys : List α} {x : α}

@[simp] theorem weigh_nil : weigh weight [] = 0 := rfl

@[simp] theorem weigh_cons : weigh weight (x :: xs) = weight x + weigh weight xs := by simp [weigh]

@[simp] theorem weigh_append : weigh weight (xs ++ ys) = weigh weight xs + weigh weight ys := by
  simp [weigh]

theorem weigh_map (weight : α → ℕ) (f : β → α) (zs : List β) :
    weigh weight (zs.map f) = weigh (fun z => weight (f z)) zs := by
  simp [weigh, Function.comp_def]

/-- Taking one of a list out. -/
theorem weigh_eraseIdx (weight : α → ℕ) {i : ℕ} (at_i : xs[i]? = some x) :
    weigh weight xs = weight x + weigh weight (xs.eraseIdx i) := by
  obtain ⟨hi, rfl⟩ := List.getElem?_eq_some_iff.mp at_i
  have hperm := (List.getElem_cons_eraseIdx_perm hi).map weight
  exact hperm.sum_eq.symm

theorem le_weigh_of_mem (weight : α → ℕ) (hmem : x ∈ xs) : weight x ≤ weigh weight xs := by
  obtain ⟨front, behind, rfl⟩ := List.append_of_mem hmem
  rw [weigh_append, weigh_cons]
  omega

theorem weigh_eq_zero (zero : ∀ x ∈ xs, weight x = 0) : weigh weight xs = 0 := by
  induction xs with
  | nil => rfl
  | cons x xs ih =>
    rw [weigh_cons, zero x List.mem_cons_self,
      ih fun y mem => zero y (List.mem_cons_of_mem _ mem)]

end Weigh

end PiVision
