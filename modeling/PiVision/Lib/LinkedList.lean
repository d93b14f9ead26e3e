import Mathlib.Data.List.Nodup
import Mathlib.Data.List.Basic
import Mathlib.Logic.Function.Basic

/-!
# Appending to a singly linked list

A list that is linked through its nodes: a pointer to the first one, and in each node a
pointer to the next. A node is appended by clearing its own pointer, and then going through
the list to its last node, which is made to point to it.

A node that is not yet in the list comes behind the others (`append_of_chain`). A node that
is in the list, with its pointer cleared, is found to be the last one, and is made to point
to itself (`append_of_path`): what was behind it is lost, and a traversal does not end. So
the list made by appending is traversed to its end exactly if no node has been appended
twice (`appendAll_of_nodup`, `lasso_of_appendAll`).
-/

namespace PiVision

/-- The pointer to the first node, and that of each node to the next. -/
structure LinkedList (ι : Type*) where
  head : Option ι
  next : ι → Option ι

namespace LinkedList

variable {ι σ : Type*}

/-- The pointers lead from `p` through these nodes to `q`. -/
def Path (next : ι → Option ι) : Option ι → List ι → Option ι → Prop
  | p, [], q => p = q
  | p, x :: xs, q => p = some x ∧ Path next (next x) xs q

/-- The nodes of the list are these. -/
def Chain (l : LinkedList ι) (xs : List ι) : Prop := Path l.next l.head xs none

/-- The pointers lead through the nodes to one that points to itself. -/
def Lasso (l : LinkedList ι) (xs : List ι) (loop : ι) : Prop :=
  Path l.next l.head xs (some loop) ∧ l.next loop = some loop

/-- Going on from a node until one points nowhere, for so many steps. -/
def last (next : ι → Option ι) : ℕ → ι → Option ι
  | 0, _ => none
  | fuel + 1, x =>
    match next x with
    | none => some x
    | some y => last next fuel y

/-- A traversal from `p` on that does something at each node, for so many steps. -/
def traverse (next : ι → Option ι) (visit : ι → σ → σ) : ℕ → Option ι → σ → Option σ
  | _, none, s => some s
  | 0, some _, _ => none
  | fuel + 1, some x, s => traverse next visit fuel (next x) (visit x s)

variable [DecidableEq ι]

/-- Appending a node. -/
def append (fuel : ℕ) (l : LinkedList ι) (x : ι) : Option (LinkedList ι) :=
  let next := Function.update l.next x none
  match l.head with
  | none => some ⟨some x, next⟩
  | some first =>
    (last next fuel first).map fun lastEntry =>
      ⟨some first, Function.update next lastEntry (some x)⟩

/-- Appending nodes, one after the other. -/
def appendAll (fuel : ℕ) (l : LinkedList ι) (xs : List ι) : Option (LinkedList ι) :=
  xs.foldlM (append fuel) l

/-! ## Paths -/

section Path

omit [DecidableEq ι]

variable {next next' : ι → Option ι} {p q : Option ι} {x y loop : ι} {xs ys : List ι}

@[simp] theorem path_nil : Path next p [] q ↔ p = q := Iff.rfl

@[simp] theorem path_cons : Path next p (x :: xs) q ↔ p = some x ∧ Path next (next x) xs q :=
  Iff.rfl

theorem path_append :
    Path next p (xs ++ ys) q ↔ ∃ m, Path next p xs m ∧ Path next m ys q := by
  induction xs generalizing p with
  | nil => simp
  | cons x xs ih => simp [ih, and_assoc]

/-- The path up to a node on it. -/
theorem Path.before (path : Path next p (xs ++ y :: ys) q) : Path next p xs (some y) := by
  obtain ⟨m, hxs, rfl, _⟩ := path_append.mp path
  exact hxs

/-- The path behind a node on it. -/
theorem Path.behind (path : Path next p (xs ++ y :: ys) q) : Path next (next y) ys q := by
  obtain ⟨m, _, _, hys⟩ := path_append.mp path
  exact hys

/-- The pointers of other nodes do not matter. -/
theorem Path.congr (same : ∀ a ∈ xs, next' a = next a) (path : Path next p xs q) :
    Path next' p xs q := by
  induction xs generalizing p with
  | nil => exact path
  | cons x xs ih =>
    refine ⟨path.1, ?_⟩
    rw [same x List.mem_cons_self]
    exact ih (fun a mem => same a (List.mem_cons_of_mem _ mem)) path.2

theorem Path.of_none (path : Path next none xs q) : xs = [] ∧ q = none := by
  cases xs with
  | nil => exact ⟨rfl, path.symm⟩
  | cons x xs => cases path.1

/-- Two paths from one node to the end go through the same nodes. -/
theorem Path.unique (hxs : Path next p xs none) (hys : Path next p ys none) : xs = ys := by
  induction xs generalizing p ys with
  | nil =>
    rw [path_nil] at hxs
    rw [hxs] at hys
    exact hys.of_none.1.symm
  | cons x xs ih =>
    obtain ⟨rfl, hxs⟩ := hxs
    cases ys with
    | nil => cases hys
    | cons y ys =>
      obtain ⟨heq, hys⟩ := hys
      obtain rfl := Option.some.inj heq
      rw [ih hxs hys]

/-- A path to the end passes a node once, as what follows a node is always the same. -/
theorem Path.nodup (path : Path next p xs none) : xs.Nodup := by
  induction xs generalizing p with
  | nil => exact List.nodup_nil
  | cons x xs ih =>
    refine List.nodup_cons.mpr ⟨fun mem => ?_, ih path.2⟩
    obtain ⟨front, behind, rfl⟩ := List.append_of_mem mem
    have hlength := congrArg List.length (path.2.unique path.2.behind)
    rw [List.length_append, List.length_cons] at hlength
    omega

/-- Along a path to a node that points nowhere, this one is found to be the last. -/
theorem Path.last_eq {fuel : ℕ} (path : Path next (some x) xs (some y)) (ends : next y = none)
    (enough : xs.length < fuel) : last next fuel x = some y := by
  induction xs generalizing x fuel with
  | nil =>
    obtain ⟨fuel, rfl⟩ : ∃ n, fuel = n + 1 := ⟨fuel - 1, by omega⟩
    obtain rfl := Option.some.inj (path_nil.mp path)
    rw [last, ends]
  | cons a xs ih =>
    obtain ⟨fuel, rfl⟩ : ∃ n, fuel = n + 1 := ⟨fuel - 1, by omega⟩
    obtain ⟨heq, hrest⟩ := path
    obtain rfl := Option.some.inj heq
    cases hnext : next x with
    | none =>
      rw [hnext] at hrest
      cases hrest.of_none.2
    | some b =>
      rw [hnext] at hrest
      simp only [last, hnext]
      exact ih hrest (by simp only [List.length_cons] at enough; omega)

/-- A traversal visits the nodes of a path in turn. -/
theorem Path.traverse_eq {visit : ι → σ → σ} (path : Path next p xs q) (fuel : ℕ) (s : σ) :
    traverse next visit (xs.length + fuel) p s =
      traverse next visit fuel q (xs.foldl (fun s x => visit x s) s) := by
  induction xs generalizing p s with
  | nil => rw [path_nil.mp path, List.length_nil, Nat.zero_add, List.foldl_nil]
  | cons x xs ih =>
    rw [path.1, List.length_cons, Nat.add_right_comm, traverse, ih path.2, List.foldl_cons]

/-! ## Lassos -/

/-- Behind each node of a lasso comes another one. -/
theorem Path.next_of_loop (path : Path next (some x) xs (some loop))
    (closed : next loop = some loop) :
    ∃ y ys, next x = some y ∧ Path next (some y) ys (some loop) := by
  cases xs with
  | nil =>
    obtain rfl := Option.some.inj (path_nil.mp path)
    exact ⟨x, [], closed, rfl⟩
  | cons a xs =>
    obtain ⟨heq, hrest⟩ := path
    obtain rfl := Option.some.inj heq
    cases hnext : next x with
    | none =>
      rw [hnext] at hrest
      cases hrest.of_none.2
    | some b =>
      rw [hnext] at hrest
      exact ⟨b, xs, rfl, hrest⟩

/-- A lasso has no last node. -/
theorem Path.last_of_loop (path : Path next (some x) xs (some loop))
    (closed : next loop = some loop) (fuel : ℕ) : last next fuel x = none := by
  induction fuel generalizing x xs with
  | zero => rfl
  | succ fuel ih =>
    obtain ⟨y, ys, hnext, hrest⟩ := path.next_of_loop closed
    simp only [last, hnext]
    exact ih hrest

/-- A traversal of a lasso does not end. -/
theorem Path.traverse_of_loop {visit : ι → σ → σ} (path : Path next (some x) xs (some loop))
    (closed : next loop = some loop) (fuel : ℕ) (s : σ) :
    traverse next visit fuel (some x) s = none := by
  induction fuel generalizing x xs s with
  | zero => rfl
  | succ fuel ih =>
    obtain ⟨y, ys, hnext, hrest⟩ := path.next_of_loop closed
    rw [traverse, hnext]
    exact ih hrest _

end Path

/-! ## Appending -/

section Append

variable {l l' : LinkedList ι} {x y loop : ι} {xs ys : List ι} {fuel : ℕ}

omit [DecidableEq ι] in
/-- The first node of a path that is not empty. -/
theorem Path.head {next : ι → Option ι} {p : Option ι} (path : Path next p xs (some x)) :
    ∃ first, p = some first := by
  cases xs with
  | nil => exact ⟨x, path⟩
  | cons a xs => exact ⟨a, path.1⟩

omit [DecidableEq ι] in
theorem Lasso.traverse_eq (lasso : l.Lasso xs loop) (visit : ι → σ → σ) (fuel : ℕ) (s : σ) :
    traverse l.next visit fuel l.head s = none := by
  obtain ⟨first, hfirst⟩ := lasso.1.head
  have hpath := lasso.1
  rw [hfirst] at hpath ⊢
  exact hpath.traverse_of_loop lasso.2 fuel s

omit [DecidableEq ι] in
theorem Chain.traverse_eq (chain : l.Chain xs) (visit : ι → σ → σ) (enough : xs.length ≤ fuel)
    (s : σ) : traverse l.next visit fuel l.head s = some (xs.foldl (fun s x => visit x s) s) := by
  obtain ⟨fuel, rfl⟩ := Nat.exists_eq_add_of_le enough
  rw [Path.traverse_eq chain]
  cases fuel <;> rfl

/-- Clearing the pointer of a node does not change the way to it. -/
theorem Path.clear {next : ι → Option ι} {p q r : Option ι} (path : Path next p xs q)
    (new : x ∉ xs) : Path (Function.update next x r) p xs q :=
  path.congr fun _ mem => Function.update_of_ne (ne_of_mem_of_not_mem mem new) _ _

/-- **Appending a node that is new** puts it behind the others. -/
theorem append_of_chain (chain : l.Chain xs) (new : x ∉ xs) (enough : xs.length ≤ fuel) :
    ∃ l', append fuel l x = some l' ∧ l'.Chain (xs ++ [x]) := by
  rcases List.eq_nil_or_concat xs with rfl | ⟨ys, y, rfl⟩
  · have hhead : l.head = none := chain
    refine ⟨⟨some x, Function.update l.next x none⟩, by rw [append, hhead], rfl, ?_⟩
    exact Function.update_self ..
  · rw [List.concat_eq_append] at chain new enough ⊢
    have hnodup := chain.nodup
    have hcleared := chain.clear (r := none) new
    have hends : Function.update l.next x none y = none := hcleared.behind
    have hbefore := hcleared.before
    obtain ⟨first, hfirst⟩ := hbefore.head
    have hlast : last (Function.update l.next x none) fuel first = some y := by
      rw [hfirst] at hbefore
      refine hbefore.last_eq hends ?_
      rw [List.length_append, List.length_singleton] at enough
      omega
    have hy : y ∉ ys := fun mem => (List.nodup_append.mp hnodup).2.2 y mem y (by simp) rfl
    have hxy : x ≠ y := fun heq => new (by simp [heq])
    refine ⟨⟨some first, Function.update (Function.update l.next x none) y (some x)⟩,
      by simp [append, hfirst, hlast], ?_⟩
    rw [Chain, List.append_assoc, path_append]
    refine ⟨some y, hfirst ▸ hbefore.clear hy, rfl, ?_, ?_⟩
    · exact Function.update_self ..
    · exact (Function.update_of_ne hxy _ _).trans (Function.update_self ..)

/-- **Appending a node that the list leads to** makes it point to itself. -/
theorem append_of_path (path : Path l.next l.head xs (some x)) (new : x ∉ xs)
    (enough : xs.length < fuel) : ∃ l', append fuel l x = some l' ∧ l'.Lasso xs x := by
  have hcleared := path.clear (r := none) new
  obtain ⟨first, hfirst⟩ := path.head
  have hlast : last (Function.update l.next x none) fuel first = some x := by
    rw [hfirst] at hcleared
    exact hcleared.last_eq (Function.update_self ..) enough
  refine ⟨⟨some first, Function.update (Function.update l.next x none) x (some x)⟩,
    by simp [append, hfirst, hlast], ?_, Function.update_self ..⟩
  exact hfirst ▸ hcleared.clear new

/-- A node that a lasso does not lead to is not appended to it. -/
theorem append_of_lasso (lasso : l.Lasso xs loop) (new : x ∉ xs ++ [loop]) (fuel : ℕ) :
    append fuel l x = none := by
  obtain ⟨first, hfirst⟩ := lasso.1.head
  have hnew : x ∉ xs := fun mem => new (List.mem_append_left _ mem)
  have hloop : loop ≠ x := fun heq => new (by simp [heq])
  have hpath := lasso.1.clear (r := none) hnew
  have hclosed : Function.update l.next x none loop = some loop := by
    rw [Function.update_of_ne hloop, lasso.2]
  have hlast : last (Function.update l.next x none) fuel first = none := by
    rw [hfirst] at hpath
    exact hpath.last_of_loop hclosed fuel
  simp [append, hfirst, hlast]

theorem appendAll_cons (fuel : ℕ) (l : LinkedList ι) (x : ι) (xs : List ι) :
    appendAll fuel l (x :: xs) = (append fuel l x).bind fun l' => appendAll fuel l' xs :=
  rfl

/-- Appending nodes that are all new and different. -/
theorem appendAll_of_nodup (chain : l.Chain xs) (nodup : (xs ++ ys).Nodup)
    (enough : (xs ++ ys).length ≤ fuel) :
    ∃ l', appendAll fuel l ys = some l' ∧ l'.Chain (xs ++ ys) := by
  induction ys generalizing l xs with
  | nil =>
    rw [List.append_nil]
    exact ⟨l, rfl, chain⟩
  | cons y ys ih =>
    have hnew : y ∉ xs := fun mem =>
      (List.nodup_append.mp nodup).2.2 y mem y List.mem_cons_self rfl
    rw [List.append_cons] at nodup enough ⊢
    obtain ⟨l', happend, hchain⟩ := append_of_chain chain hnew
      (show xs.length ≤ fuel by simp only [List.length_append] at enough; omega)
    rw [appendAll_cons, happend]
    exact ih hchain nodup enough

omit [DecidableEq ι] in
/-- With more steps the same node is found to be the last. -/
theorem last_mono {next : ι → Option ι} {fuel' : ℕ} (found : last next fuel x = some y)
    (more : fuel ≤ fuel') : last next fuel' x = some y := by
  obtain ⟨extra, rfl⟩ := Nat.exists_eq_add_of_le more
  clear more
  induction fuel generalizing x with
  | zero => cases found
  | succ fuel ih =>
    rw [Nat.add_right_comm]
    cases hnext : next x with
    | none =>
      rw [last, hnext] at found ⊢
      exact found
    | some z =>
      simp only [last, hnext] at found ⊢
      exact ih found

theorem append_mono {fuel' : ℕ} (appended : append fuel l x = some l') (more : fuel ≤ fuel') :
    append fuel' l x = some l' := by
  cases hhead : l.head with
  | none =>
    rw [append, hhead] at appended ⊢
    exact appended
  | some first =>
    simp only [append, hhead, Option.map_eq_some_iff] at appended ⊢
    obtain ⟨y, hlast, heq⟩ := appended
    exact ⟨y, last_mono hlast more, heq⟩

/-- Appending a node that is in the list leaves a lasso, if it returns. -/
theorem lasso_of_mem {q : Option ι} (path : Path l.next l.head xs q) (mem : x ∈ xs)
    (appended : append fuel l x = some l') : ∃ ys, l'.Lasso ys x := by
  obtain ⟨front, behind, rfl, hnew⟩ := List.eq_append_cons_of_mem mem
  obtain ⟨l₁, happend, hlasso⟩ :=
    append_of_path path.before hnew (Nat.le_max_right fuel (front.length + 1))
  have heq := append_mono appended (Nat.le_max_left fuel (front.length + 1))
  obtain rfl : l₁ = l' := Option.some.inj (happend.symm.trans heq)
  exact ⟨front, hlasso⟩

/-- Appending to a lasso leaves a lasso, if it returns. -/
theorem lasso_of_lasso (lasso : l.Lasso xs loop) (appended : append fuel l x = some l') :
    ∃ ys, l'.Lasso ys x := by
  by_cases hmem : x ∈ xs ++ [loop]
  · have hpath : Path l.next l.head (xs ++ [loop]) (some loop) :=
      path_append.mpr ⟨some loop, lasso.1, rfl, lasso.2⟩
    exact lasso_of_mem hpath hmem appended
  · rw [append_of_lasso lasso hmem] at appended
    cases appended

theorem lasso_of_appendAll_lasso (lasso : l.Lasso xs loop)
    (appended : appendAll fuel l ys = some l') : ∃ zs loop', l'.Lasso zs loop' := by
  induction ys generalizing l xs loop with
  | nil =>
    obtain rfl := Option.some.inj appended
    exact ⟨xs, loop, lasso⟩
  | cons y ys ih =>
    rw [appendAll_cons, Option.bind_eq_some_iff] at appended
    obtain ⟨l₁, hfirst, hrest⟩ := appended
    obtain ⟨zs, hlasso⟩ := lasso_of_lasso lasso hfirst
    exact ih hlasso hrest

/-- Appending a node twice leaves a lasso, if all of it returns. -/
theorem lasso_of_appendAll (chain : l.Chain xs) (twice : ¬(xs ++ ys).Nodup)
    (appended : appendAll fuel l ys = some l') : ∃ zs loop, l'.Lasso zs loop := by
  induction ys generalizing l xs with
  | nil =>
    rw [List.append_nil] at twice
    exact absurd chain.nodup twice
  | cons y ys ih =>
    rw [appendAll_cons, Option.bind_eq_some_iff] at appended
    obtain ⟨l₁, hfirst, hrest⟩ := appended
    by_cases hmem : y ∈ xs
    · obtain ⟨zs, hlasso⟩ := lasso_of_mem chain hmem hfirst
      exact lasso_of_appendAll_lasso hlasso hrest
    · obtain ⟨l₂, happend, hchain⟩ :=
        append_of_chain chain hmem (Nat.le_max_right fuel xs.length)
      have heq := append_mono hfirst (Nat.le_max_left fuel xs.length)
      obtain rfl : l₂ = l₁ := Option.some.inj (happend.symm.trans heq)
      exact ih hchain (by rwa [← List.append_cons]) hrest

end Append

end LinkedList

end PiVision
