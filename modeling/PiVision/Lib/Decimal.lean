import Mathlib.Algebra.Group.Nat.Defs
import Mathlib.Algebra.Order.Group.Int
import Mathlib.Data.Int.Notation
import Mathlib.Data.List.Basic

/-!
# Decimal numbers in byte strings

The digits of a number as `printf` and its like write them, and `strtol` and `atoi`, which
read a number back from the front of a string: they skip white space, accept a sign, and take
what digits there are. A number that no `long` holds is replaced by the nearest one that is.

The width of a `long` is a parameter.
-/

namespace Decimal

/-- The digits of a number. -/
def decimal (n : ℕ) : List UInt8 := (Nat.toDigits 10 n).map fun c => UInt8.ofNat c.toNat

/-- `isdigit`. -/
def isDigit (b : UInt8) : Bool := decide (48 ≤ b) && decide (b ≤ 57)

/-- `isspace`. -/
def isSpace (b : UInt8) : Bool := b == 32 || decide (9 ≤ b) && decide (b ≤ 13)

/-- The number that digits stand for. -/
def value (digits : List UInt8) : ℕ := digits.foldl (fun n b => 10 * n + (b.toNat - 48)) 0

/-- A plus or a minus. -/
def isSign (b : UInt8) : Bool := b == 43 || b == 45

/-- The `long` nearest to a number with or without a minus. -/
def nearestLong (longBits : ℕ) (negative : Bool) (n : ℕ) : ℤ :=
  if negative then max (-(n : ℤ)) (-2 ^ (longBits - 1)) else min (n : ℤ) (2 ^ (longBits - 1) - 1)

/-- The digits behind an optional sign. -/
def unsigned (s : List UInt8) : List UInt8 := if (s.head?.map isSign).getD false then s.tail else s

/-- `strtol` in base ten. -/
def strtol (longBits : ℕ) (s : List UInt8) : ℤ :=
  let s := s.dropWhile isSpace
  nearestLong longBits (s.head? == some 45) (value ((unsigned s).takeWhile isDigit))

/-- `atoi`: the low 32 bits of what `strtol` returns. -/
def atoi (longBits : ℕ) (s : List UInt8) : ℤ := Int.bmod (strtol longBits s) (2 ^ 32)

/-! ## What is written is digits -/

theorem toNat_of_mem_toDigits {n : ℕ} {c : Char} (mem : c ∈ Nat.toDigits 10 n) :
    48 ≤ c.toNat ∧ c.toNat ≤ 57 := by
  have hdigit := Nat.isDigit_of_mem_toDigits (by omega) (by omega) mem
  simp only [Char.isDigit, Bool.and_eq_true, decide_eq_true_eq, ge_iff_le,
    UInt32.le_iff_toNat_le] at hdigit
  exact hdigit

theorem isDigit_of_mem_decimal {n : ℕ} {b : UInt8} (mem : b ∈ decimal n) : isDigit b = true := by
  obtain ⟨c, hc, rfl⟩ := List.mem_map.mp mem
  obtain ⟨hlow, hhigh⟩ := toNat_of_mem_toDigits hc
  simp only [isDigit, Bool.and_eq_true, decide_eq_true_eq, UInt8.le_iff_toNat_le,
    UInt8.toNat_ofNat']
  have h48 : (48 : UInt8).toNat = 48 := rfl
  have h57 : (57 : UInt8).toNat = 57 := rfl
  omega

theorem decimal_ne_nil (n : ℕ) : decimal n ≠ [] := by
  simp [decimal]

theorem length_decimal_le_iff {n k : ℕ} (pos : 0 < k) : (decimal n).length ≤ k ↔ n < 10 ^ k := by
  rw [decimal, List.length_map, Nat.length_toDigits_le_iff (by decide) pos]

theorem value_decimal (n : ℕ) : value (decimal n) = n := by
  have hread := Nat.ofDigitChars_toDigits (b := 10) (n := n) (by omega) (le_refl _)
  rw [Nat.ofDigitChars_eq_foldl] at hread
  rw [value, decimal, List.foldl_map]
  refine Eq.trans ?_ hread
  apply List.foldl_ext
  intro m c hc
  obtain ⟨-, hhigh⟩ := toNat_of_mem_toDigits hc
  have hzero : '0'.toNat = 48 := rfl
  rw [UInt8.toNat_ofNat', hzero, Nat.mod_eq_of_lt (by omega)]

/-! ## What is read -/

/-- The parts that `strtol` takes a string apart into: `rest` does not go on with a digit. -/
structure IsNumber (blanks sign digits rest : List UInt8) : Prop where
  blank : ∀ b ∈ blanks, isSpace b = true
  signed : sign = [] ∨ sign = [43] ∨ sign = [45]
  digit : ∀ b ∈ digits, isDigit b = true
  nonempty : digits ≠ []
  stops : ∀ b, rest.head? = some b → isDigit b = false

section Scanning

variable {α : Type*} {p : α → Bool} {xs ys : List α}

/-- A scan stops where the predicate ends. -/
theorem takeWhile_append_of_stop (inside : ∀ x ∈ xs, p x = true)
    (stop : ∀ y, ys.head? = some y → p y = false) : (xs ++ ys).takeWhile p = xs := by
  rw [List.takeWhile_append_of_pos inside]
  cases ys with
  | nil => simp
  | cons y ys => simp [stop y rfl]

theorem dropWhile_append_of_stop (inside : ∀ x ∈ xs, p x = true)
    (stop : ∀ y, ys.head? = some y → p y = false) : (xs ++ ys).dropWhile p = ys := by
  rw [List.dropWhile_append_of_pos inside]
  cases ys with
  | nil => rfl
  | cons y ys => simp [stop y rfl]

end Scanning

theorem toNat_of_isDigit {b : UInt8} (digit : isDigit b = true) :
    48 ≤ b.toNat ∧ b.toNat ≤ 57 := by
  simp only [isDigit, Bool.and_eq_true, decide_eq_true_eq, UInt8.le_iff_toNat_le] at digit
  exact digit

theorem isSpace_eq_false_of_isDigit {b : UInt8} (digit : isDigit b = true) :
    isSpace b = false := by
  have hb := toNat_of_isDigit digit
  simp only [isSpace, Bool.or_eq_false_iff, Bool.and_eq_false_iff, decide_eq_false_iff_not,
    beq_eq_false_iff_ne, ne_eq, UInt8.le_iff_toNat_le, ← UInt8.toNat_inj]
  have h13 : (13 : UInt8).toNat = 13 := rfl
  have h32 : (32 : UInt8).toNat = 32 := rfl
  omega

theorem isSign_eq_false_of_isDigit {b : UInt8} (digit : isDigit b = true) :
    isSign b = false := by
  have hb := toNat_of_isDigit digit
  simp only [isSign, Bool.or_eq_false_iff, beq_eq_false_iff_ne, ne_eq, ← UInt8.toNat_inj]
  have h43 : (43 : UInt8).toNat = 43 := rfl
  have h45 : (45 : UInt8).toNat = 45 := rfl
  omega

section Parts

variable {blanks sign digits rest : List UInt8} (longBits : ℕ)

/-- `strtol` reads the number that its string begins with. -/
theorem strtol_of_isNumber (number : IsNumber blanks sign digits rest) :
    strtol longBits (blanks ++ (sign ++ (digits ++ rest))) =
      nearestLong longBits (sign == [45]) (value digits) := by
  obtain ⟨d, ds, rfl⟩ := List.exists_cons_of_ne_nil number.nonempty
  have hd := number.digit d List.mem_cons_self
  have hspace : (blanks ++ (sign ++ (d :: ds ++ rest))).dropWhile isSpace =
      sign ++ (d :: ds ++ rest) := by
    refine dropWhile_append_of_stop number.blank fun y hy => ?_
    rcases number.signed with rfl | rfl | rfl <;> cases hy
    · exact isSpace_eq_false_of_isDigit hd
    · rfl
    · rfl
  have hdigits : (d :: ds ++ rest).takeWhile isDigit = d :: ds :=
    takeWhile_append_of_stop number.digit number.stops
  have hunsigned : unsigned (sign ++ (d :: ds ++ rest)) = d :: ds ++ rest := by
    rcases number.signed with rfl | rfl | rfl
    · simp [unsigned, isSign_eq_false_of_isDigit hd]
    · rfl
    · rfl
  have hsign : ((sign ++ (d :: ds ++ rest)).head? == some 45) = (sign == [45]) := by
    rcases number.signed with rfl | rfl | rfl
    · have hne : d ≠ 45 := by
        rintro rfl
        cases hd
      simp [hne]
    · rfl
    · rfl
  rw [strtol, hspace, hunsigned, hdigits, hsign]

/-- A string that `strtol` finds a number in begins with one. -/
theorem exists_isNumber {s : List UInt8} (found : strtol longBits s ≠ 0) :
    ∃ blanks sign digits rest, s = blanks ++ (sign ++ (digits ++ rest)) ∧
      IsNumber blanks sign digits rest := by
  set t := s.dropWhile isSpace with ht
  set sign := if (t.head?.map isSign).getD false then t.take 1 else [] with hsign
  have hsplit : t = sign ++ unsigned t := by
    rw [hsign, unsigned]
    split
    · rw [← List.drop_one, List.take_append_drop]
    · rfl
  refine ⟨s.takeWhile isSpace, sign, (unsigned t).takeWhile isDigit,
    (unsigned t).dropWhile isDigit, ?_, ?_, ?_, ?_, ?_, ?_⟩
  · rw [List.takeWhile_append_dropWhile, ← hsplit, ht, List.takeWhile_append_dropWhile]
  · exact List.all_eq_true.mp List.all_takeWhile
  · rw [hsign]
    cases t with
    | nil => exact .inl rfl
    | cons b t =>
      by_cases hb : isSign b = true
      · simp only [isSign, Bool.or_eq_true, beq_iff_eq] at hb
        rcases hb with rfl | rfl
        · exact .inr (.inl rfl)
        · exact .inr (.inr rfl)
      · simp [hb]
  · exact List.all_eq_true.mp List.all_takeWhile
  · intro hnone
    have hpos : (0 : ℤ) < 2 ^ (longBits - 1) := Int.pow_pos (by decide)
    apply found
    rw [strtol, ← ht, hnone, nearestLong, value, List.foldl_nil]
    split <;> omega
  · intro b hb
    have hstop := List.head?_dropWhile_not isDigit (unsigned t)
    rw [hb] at hstop
    exact hstop

end Parts

end Decimal
