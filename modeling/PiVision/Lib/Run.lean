import Mathlib.Data.List.Basic

/-!
# Runs of a deterministic machine under arbitrary inputs

The machine is a step function; everything its environment decides is in the
input of the step. A run is a list of inputs, so quantifying over input lists is
quantifying over runs, and a statement about every run is a statement about every
reachable state. `Along` says that every step of a run meets a condition on the
state before it and its input, which is how a law that holds only while the
environment behaves is stated.
-/

namespace Machine

variable {σ α : Type*} (step : σ → α → σ)

/-- The state after the inputs of a run. -/
def run (s : σ) (inputs : List α) : σ := inputs.foldl step s

@[simp] theorem run_nil (s : σ) : run step s [] = s := rfl

@[simp] theorem run_cons (s : σ) (x : α) (xs : List α) :
    run step s (x :: xs) = run step (step s x) xs := rfl

@[simp] theorem run_append (s : σ) (xs ys : List α) :
    run step s (xs ++ ys) = run step (run step s xs) ys := List.foldl_append

/-- What holds initially and is preserved by each step holds after every run. -/
theorem run_invariant {Inv : σ → Prop} (preserved : ∀ s x, Inv s → Inv (step s x))
    {s : σ} (holds : Inv s) (xs : List α) : Inv (run step s xs) := by
  induction xs generalizing s with
  | nil => exact holds
  | cons x xs ih => exact ih (preserved s x holds)

/-- Every step of the run meets the condition `P` on its source and input. -/
def Along (P : σ → α → Prop) : σ → List α → Prop
  | _, [] => True
  | s, x :: xs => P s x ∧ Along P (step s x) xs

variable {step} {P : σ → α → Prop}

@[simp] theorem along_nil (s : σ) : Along step P s [] := trivial

@[simp] theorem along_cons (s : σ) (x : α) (xs : List α) :
    Along step P s (x :: xs) ↔ P s x ∧ Along step P (step s x) xs := Iff.rfl

instance decidableAlong [∀ s x, Decidable (P s x)] (s : σ) (xs : List α) :
    Decidable (Along step P s xs) :=
  match xs with
  | [] => .isTrue trivial
  | x :: xs =>
    have : Decidable (Along step P (step s x) xs) := decidableAlong (step s x) xs
    inferInstanceAs (Decidable (_ ∧ _))

theorem along_append (s : σ) (xs ys : List α) :
    Along step P s (xs ++ ys) ↔ Along step P s xs ∧ Along step P (run step s xs) ys := by
  induction xs generalizing s with
  | nil => exact (iff_of_eq (true_and _)).symm
  | cons x xs ih => rw [List.cons_append, along_cons, ih, along_cons, and_assoc, run_cons]

/-- The condition along a run, read off at each of its moments. -/
theorem along_iff_forall_split (s : σ) (xs : List α) :
    Along step P s xs ↔ ∀ pre x post, xs = pre ++ x :: post → P (run step s pre) x := by
  -- the moment is the first one of the run, or a moment of the run behind its first step
  induction xs generalizing s with
  | nil => simp
  | cons y ys ih =>
    rw [along_cons, ih]
    constructor
    · rintro ⟨hhead, htail⟩ pre x post heq
      cases pre with
      | nil =>
        obtain ⟨rfl, rfl⟩ := List.cons.inj heq
        exact hhead
      | cons z pre =>
        obtain ⟨rfl, hrest⟩ := List.cons.inj heq
        exact htail pre x post hrest
    · intro h
      exact ⟨h [] y ys rfl, fun pre x post heq => h (y :: pre) x post (by rw [heq]; rfl)⟩

/-- A condition that each of the inputs makes sure of. -/
theorem along_of_forall_mem {Q : α → Prop} (implies : ∀ s x, Q x → P s x) (s : σ) {xs : List α}
    (all : ∀ x ∈ xs, Q x) : Along step P s xs := by
  induction xs generalizing s with
  | nil => exact trivial
  | cons x xs ih =>
    have hrest : ∀ y ∈ xs, Q y := fun y hy => all y (List.mem_cons_of_mem _ hy)
    exact ⟨implies s x (all x List.mem_cons_self), ih (step s x) hrest⟩

/-- An invariant that only the steps meeting `P` preserve holds after every run
whose steps all meet `P`. -/
theorem run_invariant_along {Inv : σ → Prop}
    (preserved : ∀ s x, Inv s → P s x → Inv (step s x))
    {s : σ} (holds : Inv s) {xs : List α} (along : Along step P s xs) : Inv (run step s xs) := by
  induction xs generalizing s with
  | nil => exact holds
  | cons x xs ih => exact ih (preserved s x holds along.1) along.2

/-- Where an invariant makes `P` imply `Q`, and steps meeting `P` keep it, a run that meets
`P` meets `Q`. -/
theorem along_imp_of_invariant {Inv : σ → Prop} {Q : σ → α → Prop}
    (preserved : ∀ s x, Inv s → P s x → Inv (step s x)) (implies : ∀ s x, Inv s → P s x → Q s x)
    {s : σ} (holds : Inv s) {xs : List α} (along : Along step P s xs) : Along step Q s xs := by
  induction xs generalizing s with
  | nil => exact trivial
  | cons x xs ih =>
    exact ⟨implies s x holds along.1, ih (preserved s x holds along.1) along.2⟩

/-- Conditions that an invariant makes equivalent are met along the same runs, if the steps
that meet them keep it. -/
theorem along_congr {Inv : σ → Prop} {Q : σ → α → Prop} (same : ∀ s x, Inv s → (P s x ↔ Q s x))
    (preserved : ∀ s x, Inv s → Q s x → Inv (step s x)) {s : σ} (holds : Inv s) (xs : List α) :
    Along step P s xs ↔ Along step Q s xs := by
  induction xs generalizing s with
  | nil => exact Iff.rfl
  | cons x xs ih =>
    have hsame := same s x holds
    constructor
    · rintro ⟨hmeets, hrest⟩
      have hnext := preserved s x holds (hsame.mp hmeets)
      exact ⟨hsame.mp hmeets, (ih hnext).mp hrest⟩
    · rintro ⟨hmeets, hrest⟩
      exact ⟨hsame.mpr hmeets, (ih (preserved s x holds hmeets)).mpr hrest⟩

/-- Conditions that an invariant makes equivalent are met along the same runs. -/
theorem along_congr_of_invariant {Inv : σ → Prop} {Q : σ → α → Prop}
    (preserved : ∀ s x, Inv s → Inv (step s x)) (same : ∀ s x, Inv s → (P s x ↔ Q s x))
    {s : σ} (holds : Inv s) (xs : List α) : Along step P s xs ↔ Along step Q s xs :=
  along_congr same (fun s x inv _ => preserved s x inv) holds xs

/-- Of two conditions that an invariant makes equivalent it is enough that the steps meeting
them keep it, in a run that meets `W`. -/
theorem along_congr_along {Inv : σ → Prop} {Q W : σ → α → Prop}
    (same : ∀ s x, Inv s → W s x → (P s x ↔ Q s x))
    (preserved : ∀ s x, Inv s → W s x → P s x → Inv (step s x))
    {s : σ} (holds : Inv s) {xs : List α} (along : Along step W s xs) :
    Along step P s xs ↔ Along step Q s xs := by
  induction xs generalizing s with
  | nil => exact Iff.rfl
  | cons x xs ih =>
    have hsame := same s x holds along.1
    constructor
    · rintro ⟨hmeets, hrest⟩
      exact ⟨hsame.mp hmeets, (ih (preserved s x holds along.1 hmeets) along.2).mp hrest⟩
    · rintro ⟨hmeets, hrest⟩
      have hnext := preserved s x holds along.1 (hsame.mpr hmeets)
      exact ⟨hsame.mpr hmeets, (ih hnext along.2).mpr hrest⟩

/-- A relation that a step keeps exactly under `P` holds behind every step of a run if and
only if every step meets `P`. -/
theorem along_next_iff {I : σ → Prop} (same : ∀ s x, I s → (I (step s x) ↔ P s x)) {s : σ}
    (holds : I s) (xs : List α) :
    Along step (fun s x => I (step s x)) s xs ↔ Along step P s xs := by
  induction xs generalizing s with
  | nil => exact Iff.rfl
  | cons x xs ih =>
    constructor
    · rintro ⟨hnext, hrest⟩
      exact ⟨(same s x holds).mp hnext, (ih hnext).mp hrest⟩
    · rintro ⟨hmeets, hrest⟩
      have hnext := (same s x holds).mpr hmeets
      exact ⟨hnext, (ih hnext).mpr hrest⟩

/-- A law that a relation implies, and that fails behind a step which does not meet `P`,
holds behind every step of a run if and only if every step meets `P`, provided that such
steps keep the relation. -/
theorem along_law_iff {I Law : σ → Prop} (keeps : ∀ s x, I s → P s x → I (step s x))
    (lawful : ∀ s, I s → Law s) (needs : ∀ s x, I s → Law (step s x) → P s x) {s : σ}
    (holds : I s) (xs : List α) :
    Along step (fun s x => Law (step s x)) s xs ↔ Along step P s xs := by
  induction xs generalizing s with
  | nil => exact Iff.rfl
  | cons x xs ih =>
    constructor
    · rintro ⟨hlaw, hrest⟩
      have hmeets := needs s x holds hlaw
      exact ⟨hmeets, (ih (keeps s x holds hmeets)).mp hrest⟩
    · rintro ⟨hmeets, hrest⟩
      have hnext := keeps s x holds hmeets
      exact ⟨lawful _ hnext, (ih hnext).mpr hrest⟩

/-- A condition on the last state that each step hands back to the state before it, with
`P` for the step, makes the whole run meet `P`. -/
theorem along_of_final {Q : σ → Prop} (back : ∀ s x, Q (step s x) → Q s ∧ P s x)
    {s : σ} {xs : List α} (final : Q (run step s xs)) : Q s ∧ Along step P s xs := by
  induction xs generalizing s with
  | nil => exact ⟨final, trivial⟩
  | cons x xs ih =>
    obtain ⟨hnext, hrest⟩ := ih final
    obtain ⟨hs, hstep⟩ := back s x hnext
    exact ⟨hs, hstep, hrest⟩

/-! ## Infinite runs -/

section InfiniteRuns

variable (step) in
/-- The state before each step of an infinite run. -/
def stateAt (s : σ) (schedule : ℕ → α) : ℕ → σ
  | 0 => s
  | n + 1 => step (stateAt s schedule n) (schedule n)

variable {s : σ} {schedule : ℕ → α}

@[simp] theorem stateAt_zero : stateAt step s schedule 0 = s := rfl

theorem stateAt_succ (n : ℕ) :
    stateAt step s schedule (n + 1) = step (stateAt step s schedule n) (schedule n) := rfl

/-- The states of an infinite run are those of its finite beginnings. -/
theorem stateAt_eq_run (n : ℕ) :
    stateAt step s schedule n = run step s ((List.range n).map schedule) := by
  induction n with
  | zero => rfl
  | succ n ih => rw [stateAt_succ, ih, List.range_succ, List.map_append, run_append]; rfl

/-- An invariant that the steps meeting `P` preserve holds all along an infinite run whose
steps all meet `P`. -/
theorem stateAt_invariant {Inv : σ → Prop} (preserved : ∀ s x, Inv s → P s x → Inv (step s x))
    (holds : Inv s) (meets : ∀ n, P (stateAt step s schedule n) (schedule n)) (n : ℕ) :
    Inv (stateAt step s schedule n) := by
  induction n with
  | zero => exact holds
  | succ n ih => exact preserved _ _ ih (meets n)

/-- A rank that no step raises is not above what it has been before. -/
theorem rank_stateAt_le {rank : σ → ℕ} (falls : ∀ s x, rank (step s x) ≤ rank s) {m n : ℕ}
    (le : n ≤ m) : rank (stateAt step s schedule m) ≤ rank (stateAt step s schedule n) := by
  induction le with
  | refl => exact Nat.le_refl _
  | step _ ih => exact Nat.le_trans (falls _ _) ih

/-- A run whose rank is lowered sooner or later as long as it is not done will be done. -/
theorem eventually_of_rank {Done : σ → Prop} {rank : σ → ℕ}
    (lowered : ∀ n, ¬Done (stateAt step s schedule n) →
      ∃ m, n ≤ m ∧ rank (stateAt step s schedule m) < rank (stateAt step s schedule n))
    (n : ℕ) : ∃ m, n ≤ m ∧ Done (stateAt step s schedule m) := by
  induction hrank : rank (stateAt step s schedule n) using Nat.strongRecOn
    generalizing n with
  | ind r ih =>
    by_cases done : Done (stateAt step s schedule n)
    · exact ⟨n, Nat.le_refl n, done⟩
    · obtain ⟨k, hk, hless⟩ := lowered n done
      obtain ⟨m, hm, hdone⟩ := ih _ (hrank ▸ hless) k rfl
      exact ⟨m, Nat.le_trans hk hm, hdone⟩

/-- What every step outside `A` keeps holds until a step of `A`, if there is one. -/
theorem holds_until {A : α → Prop} {Q : σ → Prop} {n : ℕ}
    (kept : ∀ m, n ≤ m → ¬A (schedule m) → Q (stateAt step s schedule m) →
      Q (stateAt step s schedule (m + 1)))
    (holds : Q (stateAt step s schedule n)) (comes : ∃ m, n ≤ m ∧ A (schedule m)) :
    ∃ m, n ≤ m ∧ A (schedule m) ∧ Q (stateAt step s schedule m) := by
  obtain ⟨m, hm, hA⟩ := comes
  obtain ⟨d, rfl⟩ := Nat.exists_eq_add_of_le hm
  -- by induction on how far away the step is that is known to be in `A`
  induction d generalizing n with
  | zero => exact ⟨n, Nat.le_refl n, hA, holds⟩
  | succ d ih =>
    by_cases hnow : A (schedule n)
    · exact ⟨n, Nat.le_refl n, hnow, holds⟩
    have heq : n + 1 + d = n + (d + 1) := by omega
    obtain ⟨m, hle, hmem, hholds⟩ := ih (n := n + 1)
      (fun m hm => kept m (Nat.le_of_succ_le hm)) (kept n (Nat.le_refl n) hnow holds)
      (Nat.le_add_right _ d) (heq ▸ hA)
    exact ⟨m, Nat.le_of_succ_le hle, hmem, hholds⟩

end InfiniteRuns

end Machine
