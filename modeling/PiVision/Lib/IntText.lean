import PiVision.Lib.Ascii
import PiVision.Lib.Decimal

/-!
# Numbers that are a whole text

Where `strtol` takes the number that its string begins with, `int` wants the whole of its text
to be one: white space on both sides, a sign or none, and one digit at least. There is no limit
to the number. White space and digits are Unicode's, by a table that is a parameter here; below
127 it is not consulted. Texts are without underscores, which `int` accepts between digits.
-/

namespace IntText

open Ascii Decimal

/-- What the tables of Unicode say of a character. -/
structure Unicode where
  isSpace : Char → Bool
  toDecimal : Char → Option (Fin 10)

/-- A table that has neither above ASCII. -/
def Unicode.ascii : Unicode := ⟨fun _ => false, fun _ => none⟩

section Characters

variable (unicode : Unicode)

/-- White space on either side of a number. -/
def isBlank (c : Char) : Bool :=
  if c.toNat < 127 then c.toNat == 32 || decide (9 ≤ c.toNat) && decide (c.toNat ≤ 13)
  else unicode.isSpace c

/-- What a digit stands for. -/
def digit (c : Char) : Option ℕ :=
  if c.toNat < 127 then
    if 48 ≤ c.toNat ∧ c.toNat ≤ 57 then some (c.toNat - 48) else none
  else if unicode.isSpace c then none
  else (unicode.toDecimal c).map Fin.val

def isDigit (c : Char) : Bool := (digit unicode c).isSome

/-- The number that digits stand for. -/
def value (digits : List Char) : ℕ :=
  digits.foldl (fun n c => 10 * n + (digit unicode c).getD 0) 0

/-- What stands behind an optional sign. -/
def unsigned (s : List Char) : List Char :=
  if s.head? = some '+' ∨ s.head? = some '-' then s.tail else s

/-- A number with or without a minus. -/
def signed (negative : Bool) (n : ℕ) : ℤ := if negative then -n else n

/-- `int`; `none` stands for a `ValueError`. -/
def int (s : List Char) : Option ℤ :=
  let s := s.dropWhile (isBlank unicode)
  let digits := (unsigned s).takeWhile (isDigit unicode)
  let rest := (unsigned s).dropWhile (isDigit unicode)
  if digits ≠ [] ∧ rest.all (isBlank unicode) then
    some (signed (s.head? == some '-') (value unicode digits))
  else none

/-- The parts of a number. -/
structure IsInteger (blanks sign digits trailing : List Char) : Prop where
  blank : ∀ c ∈ blanks, isBlank unicode c = true
  signed : sign = [] ∨ sign = ['+'] ∨ sign = ['-']
  digit : ∀ c ∈ digits, isDigit unicode c = true
  nonempty : digits ≠ []
  trailing_blank : ∀ c ∈ trailing, isBlank unicode c = true

/-- The text is this number. -/
def IsNumeral (s : List Char) (n : ℤ) : Prop :=
  ∃ blanks sign digits trailing, s = blanks ++ (sign ++ (digits ++ trailing)) ∧
    IsInteger unicode blanks sign digits trailing ∧
      n = IntText.signed (sign == ['-']) (value unicode digits)

end Characters

variable {unicode : Unicode}

theorem isDigit_eq_false_of_isBlank {c : Char} (blank : isBlank unicode c = true) :
    isDigit unicode c = false := by
  rw [isBlank] at blank
  rw [isDigit, digit]
  split_ifs at blank ⊢ with hascii hdigit
  · simp only [Bool.or_eq_true, beq_iff_eq, Bool.and_eq_true, decide_eq_true_eq] at blank
    omega
  · rfl
  · rfl

/-- A sign is neither white space nor a digit. -/
theorem sign_eq_false {c : Char} (sign : c = '+' ∨ c = '-') :
    isBlank unicode c = false ∧ isDigit unicode c = false := by
  rcases sign with rfl | rfl <;> exact ⟨rfl, rfl⟩

section Parts

variable {blanks sign digits trailing : List Char}

theorem IsInteger.int_eq (parts : IsInteger unicode blanks sign digits trailing) :
    int unicode (blanks ++ (sign ++ (digits ++ trailing))) =
      some (IntText.signed (sign == ['-']) (value unicode digits)) := by
  obtain ⟨d, ds, rfl⟩ := List.exists_cons_of_ne_nil parts.nonempty
  have hd := parts.digit d List.mem_cons_self
  have hblank : isBlank unicode d = false := by
    rw [← Bool.not_eq_true]
    intro hblank
    rw [isDigit_eq_false_of_isBlank hblank] at hd
    cases hd
  have hsign (h : d = '+' ∨ d = '-') : False := by
    rw [(sign_eq_false h).2] at hd
    cases hd
  have hspace : (blanks ++ (sign ++ (d :: ds ++ trailing))).dropWhile (isBlank unicode) =
      sign ++ (d :: ds ++ trailing) := by
    refine dropWhile_append_of_stop parts.blank fun y hy => ?_
    rcases parts.signed with rfl | rfl | rfl <;> cases hy
    · exact hblank
    · rfl
    · rfl
  have hunsigned : unsigned (sign ++ (d :: ds ++ trailing)) = d :: ds ++ trailing := by
    rcases parts.signed with rfl | rfl | rfl
    · refine if_neg fun h => hsign ?_
      exact h.imp Option.some.inj Option.some.inj
    · rfl
    · rfl
  have hnegative : ((sign ++ (d :: ds ++ trailing)).head? == some '-') = (sign == ['-']) := by
    rcases parts.signed with rfl | rfl | rfl
    · have hne : d ≠ '-' := fun h => hsign (.inr h)
      simp [hne]
    · rfl
    · rfl
  have hstop : ∀ c, trailing.head? = some c → isDigit unicode c = false := fun c hc =>
    isDigit_eq_false_of_isBlank (parts.trailing_blank c (List.mem_of_head? hc))
  have hdigits : (d :: ds ++ trailing).takeWhile (isDigit unicode) = d :: ds :=
    takeWhile_append_of_stop parts.digit hstop
  have hrest : (d :: ds ++ trailing).dropWhile (isDigit unicode) = trailing :=
    dropWhile_append_of_stop parts.digit hstop
  rw [int, hspace, hunsigned, hdigits, hrest, hnegative]
  exact if_pos ⟨nofun, List.all_eq_true.mpr parts.trailing_blank⟩

/-- A text that `int` reads is a number. -/
theorem isNumeral_of_int {s : List Char} {n : ℤ} (read : int unicode s = some n) :
    IsNumeral unicode s n := by
  set t := s.dropWhile (isBlank unicode) with ht
  rw [int, ← ht] at read
  obtain ⟨⟨hnonempty, htrailing⟩, hn⟩ := Option.ite_none_right_eq_some.mp read
  have hparts : ∃ sign, t = sign ++ unsigned t ∧ (sign = [] ∨ sign = ['+'] ∨ sign = ['-']) ∧
      (t.head? == some '-') = (sign == ['-']) := by
    rw [unsigned]
    split_ifs with hsign
    · rcases hsign with hsign | hsign
      · exact ⟨['+'], (List.cons_head?_tail hsign).symm, .inr (.inl rfl), by rw [hsign]; rfl⟩
      · exact ⟨['-'], (List.cons_head?_tail hsign).symm, .inr (.inr rfl), by rw [hsign]; rfl⟩
    · exact ⟨[], rfl, .inl rfl, beq_eq_false_iff_ne.mpr fun h => hsign (.inr h)⟩
  obtain ⟨sign, hsplit, hsigned, hnegative⟩ := hparts
  refine ⟨s.takeWhile (isBlank unicode), sign, (unsigned t).takeWhile (isDigit unicode),
    (unsigned t).dropWhile (isDigit unicode), ?_, ?_, ?_⟩
  · rw [List.takeWhile_append_dropWhile, ← hsplit, ht, List.takeWhile_append_dropWhile]
  · exact ⟨List.all_eq_true.mp List.all_takeWhile, hsigned,
      List.all_eq_true.mp List.all_takeWhile, hnonempty, List.all_eq_true.mp htrailing⟩
  · rw [← Option.some.inj hn, hnegative]

/-- **`int` reads the numbers**, and nothing else. -/
theorem int_eq_some_iff {s : List Char} {n : ℤ} :
    int unicode s = some n ↔ IsNumeral unicode s n := by
  constructor
  · exact isNumeral_of_int
  · rintro ⟨blanks, sign, digits, trailing, rfl, parts, rfl⟩
    exact parts.int_eq

end Parts

/-! ## What is written is read -/

theorem digit_ofNat {b : UInt8} (isDigit : Decimal.isDigit b = true) :
    digit unicode (Char.ofNat b.toNat) = some (b.toNat - 48) := by
  obtain ⟨hlow, hhigh⟩ := toNat_of_isDigit isDigit
  have hchar : (Char.ofNat b.toNat).toNat = b.toNat := toNat_ofNat (by omega)
  rw [digit, hchar, if_pos (by omega), if_pos ⟨hlow, hhigh⟩]

theorem value_text {digits : List UInt8} (digit : ∀ b ∈ digits, Decimal.isDigit b = true) :
    value unicode (text digits) = Decimal.value digits := by
  rw [value, Decimal.value, text, List.foldl_map]
  refine List.foldl_ext _ _ _ fun n b hb => ?_
  rw [digit_ofNat (digit b hb), Option.getD_some]

/-- `int` reads the digits of a number. -/
theorem int_text_decimal (n : ℕ) : int unicode (text (decimal n)) = some (n : ℤ) := by
  have hdigits : ∀ b ∈ decimal n, Decimal.isDigit b = true := fun b => isDigit_of_mem_decimal
  have hparts : IsInteger unicode [] [] (text (decimal n)) [] := by
    refine ⟨nofun, .inl rfl, fun c hc => ?_, ?_, nofun⟩
    · obtain ⟨b, hb, rfl⟩ := List.mem_map.mp hc
      rw [isDigit, digit_ofNat (hdigits b hb)]
      rfl
    · exact fun h => decimal_ne_nil n (List.map_eq_nil_iff.mp h)
  have hread := hparts.int_eq
  rw [List.nil_append, List.nil_append, List.append_nil, value_text hdigits, value_decimal] at hread
  exact hread

end IntText
