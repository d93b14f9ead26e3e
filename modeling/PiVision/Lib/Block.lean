import Mathlib.Data.Vector.Basic

/-!
# Memory blocks of a fixed size

An array of a program is a vector: its size never changes. `write` copies a string of
elements into it from a given index on, and whatever would fall behind its end is left
out, so a write that stays inside (`Fits`) is the one a program may make. `read` is the
string of elements from an index on.
-/

namespace Block

variable {α : Type*} {n : ℕ}

/-- Writing `xs` from index `start` on stays inside the block. -/
def Fits (n start : ℕ) (xs : List α) : Prop := start + xs.length ≤ n

/-- Copy `xs` into the block from index `start` on. -/
def write (v : List.Vector α n) (start : ℕ) (xs : List α) : List.Vector α n :=
  ⟨(v.toList.take start ++ xs ++ v.toList.drop (start + xs.length)).take n, by
    have hlen := v.toList_length
    simp only [List.length_take, List.length_append, List.length_drop]
    omega⟩

/-- The elements at `len` consecutive indices. -/
def read (v : List.Vector α n) (start len : ℕ) : List α := (v.toList.drop start).take len

variable (v : List.Vector α n) {start : ℕ} {xs : List α}

theorem toList_write (fits : Fits n start xs) :
    (write v start xs).toList =
      v.toList.take start ++ xs ++ v.toList.drop (start + xs.length) := by
  have hlen := v.toList_length
  have hfits : start + xs.length ≤ n := fits
  show List.take n _ = _
  apply List.take_of_length_le
  simp only [List.length_append, List.length_take, List.length_drop]
  omega

/-- A write from the start, whether it fits or not. -/
theorem toList_write_zero (xs : List α) :
    (write v 0 xs).toList = (xs ++ v.toList.drop xs.length).take n := by
  show List.take n _ = _
  rw [List.take_zero, List.nil_append, Nat.zero_add]

@[simp] theorem write_nil (start : ℕ) : write v start [] = v := by
  apply List.Vector.toList_injective
  show List.take n _ = _
  rw [List.append_nil, List.length_nil, Nat.add_zero, List.take_append_drop]
  exact List.take_of_length_le (Nat.le_of_eq v.toList_length)

/-- What stands before the end of a write: what stood before it, and the elements. -/
theorem take_toList_write (fits : Fits n start xs) :
    (write v start xs).toList.take (start + xs.length) = v.toList.take start ++ xs := by
  have hlen := v.toList_length
  have hfits : start + xs.length ≤ n := fits
  rw [toList_write v fits]
  apply List.take_left'
  rw [List.length_append, List.length_take]
  omega

/-- A write over the whole block replaces it. -/
theorem toList_write_full (full : xs.length = n) : (write v 0 xs).toList = xs := by
  have h := take_toList_write v (show Fits n 0 xs by simp [Fits, full])
  rwa [Nat.zero_add, full, List.take_of_length_le (by simp), List.take_zero,
    List.nil_append] at h

theorem read_full : read v 0 n = v.toList := by
  rw [read, List.drop_zero]
  exact List.take_of_length_le (by simp)

/-- An element behind a write from the start is the one written there, or the old one if
the write has ended before it. -/
theorem get_write_zero (fits : Fits n 0 xs) (i : Fin n) :
    (write v 0 xs).get i = xs.getD i (v.get i) := by
  have hwrite := toList_write v fits
  rw [List.take_zero, List.nil_append, Nat.zero_add] at hwrite
  rw [List.Vector.get_eq_get_toList, List.Vector.get_eq_get_toList]
  simp only [List.get_eq_getElem, Fin.val_cast, hwrite]
  rw [List.getD_eq_getElem?_getD]
  -- the index is one of those written to, or behind them
  by_cases hbefore : (i : ℕ) < xs.length
  · rw [List.getElem_append_left hbefore, List.getElem?_eq_getElem hbefore, Option.getD_some]
  · have hbehind : xs.length ≤ i := Nat.not_lt.mp hbefore
    rw [List.getElem_append_right hbehind, List.getElem?_eq_none hbehind, Option.getD_none,
      List.getElem_drop]
    congr 1
    exact Nat.add_sub_cancel' hbehind

/-! ## Passes over a block -/

section Passes

universe u

variable {γ : Type*} {β : Type u} {f : γ → Option β}

/-- A pass that has an outcome for every element. -/
theorem mmap_eq_some {g : γ → β} {n : ℕ} (v : List.Vector γ n)
    (defined : ∀ a ∈ v.toList, f a = some (g a)) : v.mmap f = some (v.map g) := by
  induction v using List.Vector.inductionOn with
  | nil => rfl
  | @cons n a w ih =>
    rw [List.Vector.toList_cons] at defined
    rw [List.Vector.mmap_cons, defined a List.mem_cons_self,
      ih fun b hb => defined b (List.mem_cons_of_mem a hb), List.Vector.map_cons]
    rfl

/-- A pass that has no outcome for some element. -/
theorem mmap_eq_none {n : ℕ} (v : List.Vector γ n) (undefined : ∃ a ∈ v.toList, f a = none) :
    v.mmap f = none := by
  induction v using List.Vector.inductionOn with
  | nil =>
    obtain ⟨a, ha, -⟩ := undefined
    exact absurd ha List.not_mem_nil
  | @cons n a w ih =>
    obtain ⟨b, hb, hnone⟩ := undefined
    rw [List.Vector.toList_cons] at hb
    rw [List.Vector.mmap_cons]
    rcases List.mem_cons.mp hb with rfl | hb
    · rw [hnone]
      rfl
    · cases hhead : f a with
      | none => rfl
      | some c =>
        rw [ih ⟨b, hb, hnone⟩]
        rfl

end Passes

end Block
