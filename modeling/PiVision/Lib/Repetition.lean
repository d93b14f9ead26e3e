import Mathlib.Data.List.Basic

/-!
# Each element so many times

The list in which each element of another one comes so many times in a row, or not at all, in
the same order: what a reader has seen who looks at the last element of a growing list from time
to time.
-/

namespace PiVision

/-- Each element so many times in a row. -/
def repeated {α : Type*} (counts : List ℕ) (xs : List α) : List α :=
  (List.zipWith List.replicate counts xs).flatten

section Repeated

variable {α : Type*} {counts : List ℕ} {xs : List α} {x : α}

@[simp] theorem repeated_cons (count : ℕ) (counts : List ℕ) (x : α) (xs : List α) :
    repeated (count :: counts) (x :: xs) = List.replicate count x ++ repeated counts xs := rfl

theorem repeated_append (same : counts.length = xs.length) (counts' : List ℕ) (ys : List α) :
    repeated (counts ++ counts') (xs ++ ys) = repeated counts xs ++ repeated counts' ys := by
  rw [repeated, List.zipWith_append same, List.flatten_append]
  rfl

theorem repeated_concat (same : counts.length = xs.length) (count : ℕ) (x : α) :
    repeated (counts ++ [count]) (xs ++ [x]) = repeated counts xs ++ List.replicate count x := by
  rw [repeated_append same, repeated_cons]
  exact congrArg _ (List.append_nil _)

/-- Nothing else comes. -/
theorem mem_of_mem_repeated (mem : x ∈ repeated counts xs) : x ∈ xs := by
  induction xs generalizing counts with
  | nil => cases counts <;> cases mem
  | cons y ys ih =>
    cases counts with
    | nil => cases mem
    | cons count counts =>
      rw [repeated_cons] at mem
      rcases List.mem_append.mp mem with hfirst | hlater
      · exact List.mem_cons.mpr (.inl (List.eq_of_mem_replicate hfirst))
      · exact List.mem_cons_of_mem y (ih hlater)

/-- A new element has not come yet. -/
theorem repeated_new (same : counts.length = xs.length) (x : α) :
    repeated (counts ++ [0]) (xs ++ [x]) = repeated counts xs := by
  rw [repeated_concat same]
  exact List.append_nil _

/-- The last element comes once more. -/
theorem exists_repeated_again (same : counts.length = xs.length)
    (last : xs.getLast? = some x) :
    ∃ counts' : List ℕ, counts'.length = xs.length ∧
      repeated counts xs ++ [x] = repeated counts' xs := by
  obtain ⟨front, rfl⟩ := List.getLast?_eq_some_iff.mp last
  rcases List.eq_nil_or_concat counts with rfl | ⟨before, count, rfl⟩
  · simp at same
  rw [List.concat_eq_append, List.length_append, List.length_append, List.length_singleton,
    List.length_singleton] at same
  have hsame : before.length = front.length := Nat.add_right_cancel same
  refine ⟨before ++ [count + 1], ?_, ?_⟩
  · rw [List.length_append, List.length_append, List.length_singleton, List.length_singleton,
      hsame]
  · rw [List.concat_eq_append, repeated_concat hsame, repeated_concat hsame,
      List.replicate_succ', List.append_assoc]

/-! ## Repeating what is repeated -/

end Repeated

end PiVision
