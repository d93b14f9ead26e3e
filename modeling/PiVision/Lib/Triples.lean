import PiVision.Lib.Block

/-!
# Loops over elements in threes

A flat loop over the channels of an image counts to three and starts afresh. With every
group of three it writes the next element of a block. `foldl_triples` makes of the flat
loop a loop over the groups, and `take_foldl_write` says what a loop has written that
writes one element a round.
-/

namespace Triples

variable {α β σ τ : Type*}

/-- The complete groups of three, in order. -/
def triples : List α → List (α × α × α)
  | a :: b :: c :: rest => (a, b, c) :: triples rest
  | _ => []

@[simp] theorem triples_nil : triples ([] : List α) = [] := rfl

@[simp] theorem triples_cons (a b c : α) (rest : List α) :
    triples (a :: b :: c :: rest) = (a, b, c) :: triples rest := rfl

/-- What is left over behind the last whole group. -/
theorem length_lt_three {xs : List α} (short : ∀ a b c rest, xs = a :: b :: c :: rest → False) :
    xs.length < 3 := by
  rcases xs with _ | ⟨a, _ | ⟨b, _ | ⟨c, rest⟩⟩⟩
  · exact Nat.zero_lt_succ 2
  · exact Nat.one_lt_succ_succ 1
  · exact Nat.lt_succ_self 2
  · exact (short a b c rest rfl).elim

theorem triples_of_short {xs : List α} (short : xs.length < 3) : triples xs = [] := by
  rcases xs with _ | ⟨a, _ | ⟨b, _ | ⟨c, rest⟩⟩⟩
  · rfl
  · rfl
  · rfl
  · simp only [List.length_cons] at short
    omega

theorem length_triples (xs : List α) : (triples xs).length = xs.length / 3 := by
  fun_induction triples xs with
  | case1 a b c rest ih =>
    simp only [List.length_cons, ih]
    omega
  | case2 xs short =>
    have hlength := length_lt_three short
    rw [List.length_nil]
    omega

/-- The groups of two lists one behind the other, if the first ends with a whole one. -/
theorem triples_append {xs : List α} (whole : xs.length % 3 = 0) (ys : List α) :
    triples (xs ++ ys) = triples xs ++ triples ys := by
  fun_induction triples xs with
  | case1 a b c rest ih =>
    simp only [List.length_cons] at whole
    simp only [List.cons_append, triples_cons, ih (by omega)]
  | case2 xs short =>
    have hlength := length_lt_three short
    obtain rfl : xs = [] := List.eq_nil_of_length_eq_zero (by omega)
    rfl

theorem triples_replicate (n : ℕ) (a : α) :
    triples (.replicate (3 * n) a) = .replicate n (a, a, a) := by
  induction n with
  | zero => rfl
  | succ n ih => rw [Nat.mul_succ, List.replicate_succ, List.replicate_succ, List.replicate_succ,
      triples_cons, ih, List.replicate_succ]

theorem triples_map (f : α → β) (xs : List α) :
    triples (xs.map f) = (triples xs).map fun t => (f t.1, f t.2.1, f t.2.2) := by
  fun_induction triples xs with
  | case1 a b c rest ih => simp only [List.map_cons, triples_cons, ih]
  | case2 xs short =>
    have hlength := length_lt_three short
    rw [triples_of_short (by rwa [List.length_map]), List.map_nil]

/-- The elements of a group are those at its places in the list. -/
theorem getElem_triples (xs : List α) {i : ℕ} (inside : 3 * i + 2 < xs.length) :
    (triples xs)[i]? = some (xs[3 * i], xs[3 * i + 1], xs[3 * i + 2]) := by
  fun_induction triples xs generalizing i with
  | case1 a b c rest ih =>
    cases i with
    | zero => rfl
    | succ i =>
      simp only [List.length_cons] at inside
      rw [List.getElem?_cons_succ, ih (by omega)]
      rfl
  | case2 xs short =>
    have hlength := length_lt_three short
    omega

/-- **A flat loop** over whole groups is a loop over the groups. -/
theorem foldl_triples (body : σ → α → σ) (s : σ) {xs : List α} (whole : xs.length % 3 = 0) :
    xs.foldl body s =
      (triples xs).foldl (fun s t => body (body (body s t.1) t.2.1) t.2.2) s := by
  fun_induction triples xs generalizing s with
  | case1 a b c rest ih =>
    simp only [List.length_cons] at whole
    simp only [List.foldl_cons]
    exact ih _ (by omega)
  | case2 xs short =>
    have hlength := length_lt_three short
    obtain rfl : xs = [] := List.eq_nil_of_length_eq_zero (by omega)
    rfl

section Writes

variable {n : ℕ} {step : σ → τ → σ} (Ready : σ → Prop) (index : σ → ℕ)
  (block : σ → List.Vector α n) (element : τ → α)

/-- **A loop that writes the next element in each round** has written the elements of its
rounds one behind the other, and nothing in front of them. -/
theorem take_foldl_write (keeps : ∀ s t, Ready s → Ready (step s t))
    (next : ∀ s t, Ready s → index s < n → index (step s t) = index s + 1)
    (writes : ∀ s t, Ready s → block (step s t) = Block.write (block s) (index s) [element t])
    {s : σ} (ready : Ready s) (ts : List τ) (fits : index s + ts.length ≤ n) :
    (block (ts.foldl step s)).toList.take (index s + ts.length) =
      (block s).toList.take (index s) ++ ts.map element := by
  induction ts generalizing s with
  | nil => rw [List.foldl_nil, List.length_nil, Nat.add_zero, List.map_nil, List.append_nil]
  | cons t ts ih =>
    rw [List.length_cons] at fits ⊢
    have hindex := next s t ready (by omega)
    have hrest := ih (keeps s t ready) (by omega)
    have hfits : Block.Fits n (index s) [element t] := by
      rw [Block.Fits, List.length_singleton]
      omega
    have hfirst := Block.take_toList_write (block s) hfits
    rw [List.length_singleton] at hfirst
    rw [writes s t ready, hindex, hfirst, List.append_assoc, List.singleton_append] at hrest
    rw [List.foldl_cons, List.map_cons, ← hrest]
    congr 1
    omega

/-- A loop with a round for each element writes the whole block. -/
theorem toList_foldl_write (keeps : ∀ s t, Ready s → Ready (step s t))
    (next : ∀ s t, Ready s → index (step s t) = index s + 1)
    (writes : ∀ s t, Ready s → block (step s t) = Block.write (block s) (index s) [element t])
    {s : σ} (ready : Ready s) (start : index s = 0) {ts : List τ} (full : ts.length = n) :
    (block (ts.foldl step s)).toList = ts.map element := by
  have htake := take_foldl_write Ready index block element keeps
    (fun s t ready _ => next s t ready) writes ready ts (by omega)
  rwa [start, Nat.zero_add, full, List.take_zero, List.nil_append,
    List.take_of_length_le (Nat.le_of_eq (List.Vector.toList_length _))] at htake

end Writes

end Triples
