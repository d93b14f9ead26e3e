import Mathlib.Data.List.Nodup

/-!
# A loop that removes from the list it goes over

A loop over a list keeps an index into it and asks for the element there in each round.
Where its body removes the element at hand, the next one takes its place, and the loop goes
on behind it: it is neither visited nor removed. `iterate_eq_foldl` says which elements the
loop visits and which the list is left with, and `visited_and_kept_iff` when that is as if
nothing were skipped.
-/

namespace Iteration

variable {σ α : Type*}

/-- The loop, for so many rounds: there is none behind the end of the list. -/
def iterate (elements : σ → List α) (body : σ → α → σ) : ℕ → ℕ → σ → σ
  | 0, _, s => s
  | rounds + 1, index, s =>
    match (elements s)[index]? with
    | none => s
    | some a => iterate elements body rounds (index + 1) (body s a)

/-- The elements that are visited, if the loop removes those that are bad. -/
def visited (bad : α → Bool) : List α → List α
  | [] => []
  | [a] => [a]
  | a :: b :: rest => if bad a then a :: visited bad rest else a :: visited bad (b :: rest)

/-- The elements that are left. -/
def kept (bad : α → Bool) : List α → List α
  | [] => []
  | [a] => if bad a then [] else [a]
  | a :: b :: rest => if bad a then b :: kept bad rest else a :: kept bad (b :: rest)

section Loop

variable {elements : σ → List α} {body : σ → α → σ}

theorem iterate_of_end {s : σ} {index : ℕ} (ended : (elements s).length ≤ index) (rounds : ℕ) :
    iterate elements body rounds index s = s := by
  cases rounds with
  | zero => rfl
  | succ rounds => rw [iterate, List.getElem?_eq_none ended]

theorem iterate_succ {s : σ} {before behind : List α} {a : α}
    (at_hand : elements s = before ++ a :: behind) (rounds : ℕ) :
    iterate elements body (rounds + 1) before.length s =
      iterate elements body rounds (before.length + 1) (body s a) := by
  rw [iterate, at_hand, List.getElem?_append_right (Nat.le_refl _), Nat.sub_self]
  rfl

variable [DecidableEq α] {bad : α → Bool}
  (removes : ∀ s a, elements (body s a) = if bad a then (elements s).erase a else elements s)
  {s : σ} {before behind : List α} {a : α}

include removes

theorem elements_body_of_bad (is_bad : bad a = true) (nodup : (elements s).Nodup)
    (at_hand : elements s = before ++ a :: behind) :
    elements (body s a) = before ++ behind := by
  rw [at_hand, List.nodup_append] at nodup
  have hnew : a ∉ before := fun mem => nodup.2.2 a mem a List.mem_cons_self rfl
  rw [removes, if_pos is_bad, at_hand, List.erase_append_right _ hnew, List.erase_cons_head]

theorem elements_body_of_good (is_good : ¬bad a = true)
    (at_hand : elements s = before ++ a :: behind) :
    elements (body s a) = before ++ [a] ++ behind := by
  rw [removes, if_neg is_good, at_hand, List.append_assoc, List.singleton_append]

theorem nodup_body (nodup : (elements s).Nodup) (a : α) : (elements (body s a)).Nodup := by
  rw [removes]
  by_cases is_bad : bad a = true
  · rw [if_pos is_bad]
    exact nodup.erase a
  · rwa [if_neg is_bad]

variable (elements body) in
/-- **What the loop does.** It applies its body to the elements visited, and leaves those
kept. -/
theorem iterate_eq_foldl (todo : List α) (ahead : elements s = before ++ todo)
    (nodup : (elements s).Nodup) {rounds : ℕ} (enough : todo.length ≤ rounds) :
    iterate elements body rounds before.length s = (visited bad todo).foldl body s ∧
      elements ((visited bad todo).foldl body s) = before ++ kept bad todo := by
  fun_induction visited bad todo generalizing before s rounds with
  | case1 =>
    rw [List.append_nil] at ahead
    exact ⟨iterate_of_end (Nat.le_of_eq (congrArg List.length ahead)) rounds,
      by rw [kept, List.append_nil]; exact ahead⟩
  | case2 a =>
    obtain ⟨rounds, rfl⟩ : ∃ n, rounds = n + 1 := ⟨rounds - 1, by simp at enough; omega⟩
    rw [iterate_succ ahead, List.foldl_cons, List.foldl_nil, kept]
    by_cases is_bad : bad a = true
    · have hbody := elements_body_of_bad removes is_bad nodup ahead
      rw [if_pos is_bad]
      exact ⟨iterate_of_end (by simp [hbody]) rounds, hbody⟩
    · have hbody := elements_body_of_good removes is_bad ahead
      rw [List.append_nil] at hbody
      rw [if_neg is_bad]
      exact ⟨iterate_of_end (by simp [hbody]) rounds, hbody⟩
  | case3 a b rest is_bad ih =>
    obtain ⟨rounds, rfl⟩ : ∃ n, rounds = n + 1 := ⟨rounds - 1, by simp at enough; omega⟩
    -- the next element takes the place of the one removed, in front of the index
    have hbody : elements (body s a) = before ++ [b] ++ rest := by
      rw [elements_body_of_bad removes is_bad nodup ahead, List.append_assoc,
        List.singleton_append]
    have hrest := ih hbody (nodup_body removes nodup a)
      (show rest.length ≤ rounds by simp only [List.length_cons] at enough; omega)
    rw [List.length_append, List.length_singleton, List.append_assoc, List.singleton_append]
      at hrest
    rwa [iterate_succ ahead, List.foldl_cons, kept, if_pos is_bad]
  | case4 a b rest is_good ih =>
    obtain ⟨rounds, rfl⟩ : ∃ n, rounds = n + 1 := ⟨rounds - 1, by simp at enough; omega⟩
    have hbody := elements_body_of_good removes is_good ahead
    have hrest := ih hbody (nodup_body removes nodup a)
      (show (b :: rest).length ≤ rounds by simp only [List.length_cons] at enough ⊢; omega)
    rw [List.length_append, List.length_singleton, List.append_assoc, List.singleton_append]
      at hrest
    rwa [iterate_succ ahead, List.foldl_cons, kept, if_neg is_good]

end Loop

/-! ## When nothing is skipped -/

section Skipping

variable {bad : α → Bool} {xs : List α}

theorem visited_sublist (bad : α → Bool) (xs : List α) : (visited bad xs).Sublist xs := by
  fun_induction visited bad xs with
  | case1 => exact List.Sublist.refl _
  | case2 a => exact List.Sublist.refl _
  | case3 a b rest _ ih => exact (ih.cons b).cons_cons a
  | case4 a b rest _ ih => exact ih.cons_cons a

theorem visited_of_good (good : ∀ a ∈ xs.dropLast, ¬bad a = true) : visited bad xs = xs := by
  fun_induction visited bad xs with
  | case1 => rfl
  | case2 a => rfl
  | case3 a b rest is_bad _ => exact absurd is_bad (good a List.mem_cons_self)
  | case4 a b rest _ ih => rw [ih fun c hc => good c (List.mem_cons_of_mem a hc)]

theorem kept_of_good (good : ∀ a ∈ xs.dropLast, ¬bad a = true) :
    kept bad xs = xs.filter fun a => !bad a := by
  fun_induction kept bad xs with
  | case1 => rfl
  | case2 a is_bad => simp [is_bad]
  | case3 a is_good => simp [is_good]
  | case4 a b rest is_bad _ => exact absurd is_bad (good a List.mem_cons_self)
  | case5 a b rest is_good ih =>
    rw [ih fun c hc => good c (List.mem_cons_of_mem a hc)]
    exact (List.filter_cons_of_pos (by simpa using is_good)).symm

/-- The good elements are all visited, and are all that is left, if and only if none but the
last is bad. -/
theorem visited_and_kept_iff (nodup : xs.Nodup) :
    ((∀ a ∈ xs, ¬bad a = true → a ∈ visited bad xs) ∧
        kept bad xs = xs.filter fun a => !bad a) ↔
      ∀ a ∈ xs.dropLast, ¬bad a = true := by
  constructor
  · rintro ⟨hvisited, hkept⟩
    fun_induction visited bad xs with
    | case1 => exact fun a ha => absurd ha List.not_mem_nil
    | case2 a => exact fun a ha => absurd ha List.not_mem_nil
    | case3 a b rest is_bad _ =>
      -- the next element should have been visited if it is good, and removed if it is bad
      have hb : ¬bad b = true := by
        have hmem : b ∈ kept bad (a :: b :: rest) := by
          rw [kept, if_pos is_bad]
          exact List.mem_cons_self
        rw [hkept] at hmem
        simpa using (List.mem_filter.mp hmem).2
      have hnew := List.nodup_cons.mp nodup
      rcases List.mem_cons.mp (hvisited b (by simp) hb) with rfl | hlater
      · exact absurd List.mem_cons_self hnew.1
      · exact absurd ((visited_sublist bad rest).subset hlater) (List.nodup_cons.mp hnew.2).1
    | case4 a b rest is_good ih =>
      have hnew := List.nodup_cons.mp nodup
      rw [kept, if_neg is_good, List.filter_cons_of_pos (by simpa using is_good)] at hkept
      have hrest := ih hnew.2 (fun c hc hgood => ?_) (List.cons.inj hkept).2
      · intro c hc
        rcases List.mem_cons.mp hc with rfl | hc
        · exact is_good
        · exact hrest c hc
      · rcases List.mem_cons.mp (hvisited c (List.mem_cons_of_mem a hc) hgood) with rfl | hlater
        · exact absurd hc hnew.1
        · exact hlater
  · intro good
    rw [visited_of_good good]
    exact ⟨fun a ha _ => ha, kept_of_good good⟩

end Skipping

end Iteration
