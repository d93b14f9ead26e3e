import Mathlib.Logic.Function.Basic
import Mathlib.Data.Nat.Init

/-!
# Pictures drawn row by row

A loop over values with a point beside it, which goes to the right with each value and to the
start of the next row where a row ends. The value with the index `i` is drawn at
`(i % width, i / width)`, so a picture holds at `(x, y)` the value with the index
`y * width + x` if there is one, and what it has held before if there is not.
-/

namespace PiVision

/-- A point of a picture, counted from the left and from above. -/
structure Point where
  x : ℕ
  y : ℕ
  deriving DecidableEq, Repr

/-- What there is at each point. -/
abbrev Picture (α : Type*) := Point → α

namespace Raster

variable {α : Type*} {width : ℕ}

/-- The point behind a point, in rows of this width. -/
def next (width : ℕ) (p : Point) : Point :=
  if p.x + 1 = width then ⟨0, p.y + 1⟩ else ⟨p.x + 1, p.y⟩

/-- What the loop draws from a point on. -/
def scan (width : ℕ) : Point → List α → List (Point × α)
  | _, [] => []
  | p, value :: values => (p, value) :: scan width (next width p) values

/-- A picture with some of its points drawn on, one after the other. -/
def draw (picture : Picture α) (drawn : List (Point × α)) : Picture α :=
  drawn.foldl (fun picture d => Function.update picture d.1 d.2) picture

/-- The point that an index belongs to. -/
def pointAt (width i : ℕ) : Point := ⟨i % width, i / width⟩

/-- The index that belongs to a point. -/
def indexAt (width : ℕ) (p : Point) : ℕ := p.y * width + p.x

theorem pointAt_zero (width : ℕ) : pointAt width 0 = ⟨0, 0⟩ := by
  simp [pointAt]

theorem indexAt_pointAt (width i : ℕ) : indexAt width (pointAt width i) = i :=
  Nat.div_add_mod' i width

theorem pointAt_indexAt {p : Point} (inside : p.x < width) :
    pointAt width (indexAt width p) = p := by
  have hpos : 0 < width := Nat.zero_lt_of_lt inside
  have hx : (p.y * width + p.x) % width = p.x := by
    rw [Nat.mul_add_mod_self_right, Nat.mod_eq_of_lt inside]
  have hy : (p.y * width + p.x) / width = p.y := by
    rw [Nat.mul_comm, Nat.mul_add_div hpos, Nat.div_eq_of_lt inside, Nat.add_zero]
  rw [pointAt, indexAt, hx, hy]

theorem pointAt_injective (width : ℕ) : Function.Injective (pointAt width) :=
  Function.LeftInverse.injective (indexAt_pointAt width)

theorem x_pointAt_lt (pos : 0 < width) (i : ℕ) : (pointAt width i).x < width := Nat.mod_lt i pos

/-- The loop goes on to the point of the next index. -/
theorem next_pointAt (pos : 0 < width) (i : ℕ) :
    next width (pointAt width i) = pointAt width (i + 1) := by
  have hindex : i / width * width + i % width = i := Nat.div_add_mod' i width
  have hlt : i % width < width := Nat.mod_lt i pos
  have hnext : next width (pointAt width i) =
      if i % width + 1 = width then ⟨0, i / width + 1⟩ else ⟨i % width + 1, i / width⟩ := rfl
  rw [hnext]
  split
  · rename_i hend
    have hrow : i + 1 = indexAt width ⟨0, i / width + 1⟩ := by
      show i + 1 = (i / width + 1) * width + 0
      rw [Nat.succ_mul]
      omega
    rw [hrow, pointAt_indexAt pos]
  · rename_i hmore
    have hright : i + 1 = indexAt width ⟨i % width + 1, i / width⟩ := by
      show i + 1 = i / width * width + (i % width + 1)
      omega
    have hinside : i % width + 1 < width := by omega
    rw [hright, pointAt_indexAt hinside]

theorem scan_cons_pointAt (pos : 0 < width) (i : ℕ) (value : α) (values : List α) :
    scan width (pointAt width i) (value :: values) =
      (pointAt width i, value) :: scan width (pointAt width (i + 1)) values := by
  rw [scan, next_pointAt pos]

/-- The loop draws what it has drawn so far, and then the next value. -/
theorem scan_append_singleton (pos : 0 < width) (i : ℕ) (values : List α) (value : α) :
    scan width (pointAt width i) (values ++ [value]) =
      scan width (pointAt width i) values ++ [(pointAt width (i + values.length), value)] := by
  induction values generalizing i with
  | nil => rfl
  | cons v values ih =>
    rw [List.cons_append, scan_cons_pointAt pos, scan_cons_pointAt pos, ih, List.length_cons,
      List.cons_append, Nat.add_right_comm, Nat.add_assoc]

theorem draw_cons (picture : Picture α) (d : Point × α) (drawn : List (Point × α)) :
    draw picture (d :: drawn) = draw (Function.update picture d.1 d.2) drawn := rfl

/-- What is drawn from an index on, at the point of an index. -/
theorem draw_scan_pointAt (pos : 0 < width) (picture : Picture α) (i j : ℕ) (values : List α) :
    draw picture (scan width (pointAt width i) values) (pointAt width j) =
      if i ≤ j then values[j - i]?.getD (picture (pointAt width j))
      else picture (pointAt width j) := by
  induction values generalizing picture i with
  | nil => simp [scan, draw]
  | cons value values ih =>
    rw [scan_cons_pointAt pos, draw_cons, ih]
    by_cases hij : i = j
    · subst hij
      rw [if_neg (Nat.not_succ_le_self i), if_pos (Nat.le_refl i), Nat.sub_self]
      exact Function.update_self ..
    · have hother : pointAt width j ≠ pointAt width i :=
        fun heq => hij (pointAt_injective width heq).symm
      rw [Function.update_of_ne hother]
      by_cases hle : i ≤ j
      · have hindex : j - i = j - (i + 1) + 1 := by omega
        rw [if_pos (show i + 1 ≤ j by omega), if_pos hle, hindex, List.getElem?_cons_succ]
      · rw [if_neg hle, if_neg (by omega)]

/-- Nothing is drawn beyond the width. -/
theorem draw_scan_outside (pos : 0 < width) (picture : Picture α) (i : ℕ) (values : List α)
    {p : Point} (outside : width ≤ p.x) :
    draw picture (scan width (pointAt width i) values) p = picture p := by
  induction values generalizing picture i with
  | nil => rfl
  | cons value values ih =>
    have hother : p ≠ pointAt width i := by
      rintro rfl
      exact absurd (x_pointAt_lt pos i) (Nat.not_lt.mpr outside)
    rw [scan_cons_pointAt pos, draw_cons, ih, Function.update_of_ne hother]

/-- **A picture drawn row by row** from its first point. -/
theorem draw_scan (pos : 0 < width) (picture : Picture α) (values : List α) (p : Point) :
    draw picture (scan width ⟨0, 0⟩ values) p =
      if p.x < width then values[indexAt width p]?.getD (picture p) else picture p := by
  rw [← pointAt_zero width]
  by_cases inside : p.x < width
  · have hpoint := draw_scan_pointAt pos picture 0 (indexAt width p) values
    rw [pointAt_indexAt inside, if_pos (Nat.zero_le _), Nat.sub_zero] at hpoint
    rw [hpoint, if_pos inside]
  · rw [draw_scan_outside pos picture 0 values (Nat.not_lt.mp inside), if_neg inside]

end Raster

end PiVision
