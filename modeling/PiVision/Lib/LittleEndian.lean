import Mathlib.Data.Nat.Bitwise
import Mathlib.Tactic.Ring

/-!
# Little-endian words

Encoding of a natural number in a fixed number of bytes, least significant byte
first, and the value of a byte string read back the same way. Programs assemble
the value by or-ing shifted bytes together; `leValue_concat_or` says that this is
the positional value.
-/

namespace LittleEndian

/-- The `width` low bytes of `n`, least significant first. -/
def leBytes : ℕ → ℕ → List UInt8
  | 0, _ => []
  | width + 1, n => UInt8.ofNat n :: leBytes width (n / 256)

/-- The number whose little-endian bytes are given. -/
def leValue : List UInt8 → ℕ
  | [] => 0
  | b :: bs => b.toNat + 256 * leValue bs

@[simp] theorem leBytes_zero (n : ℕ) : leBytes 0 n = [] := rfl

@[simp] theorem leValue_nil : leValue [] = 0 := rfl

@[simp] theorem leValue_cons (b : UInt8) (bs : List UInt8) :
    leValue (b :: bs) = b.toNat + 256 * leValue bs := rfl

@[simp] theorem length_leBytes (width n : ℕ) : (leBytes width n).length = width := by
  induction width generalizing n with
  | zero => rfl
  | succ width ih => simp [leBytes, ih]

/-- Reading back what was written gives the number, provided it fits. -/
theorem leValue_leBytes (width n : ℕ) (fits : n < 256 ^ width) :
    leValue (leBytes width n) = n := by
  -- on the width: the low byte comes off, and the rest stands for the quotient
  induction width generalizing n with
  | zero =>
    have hzero : n = 0 := by simpa using fits
    simp [hzero]
  | succ width ih =>
    have hquot : n / 256 < 256 ^ width := by
      rw [pow_succ] at fits
      exact Nat.div_lt_of_lt_mul (by omega)
    simp only [leBytes, leValue_cons, ih _ hquot, UInt8.toNat_ofNat']
    omega

theorem leValue_lt (bs : List UInt8) : leValue bs < 256 ^ bs.length := by
  induction bs with
  | nil => simp
  | cons b bs ih =>
    have hb := b.toNat_lt
    simp only [leValue_cons, List.length_cons, pow_succ]
    omega

/-- The first field keeps its value; the second is shifted by its width. -/
theorem leValue_append (xs ys : List UInt8) :
    leValue (xs ++ ys) = leValue xs + 256 ^ xs.length * leValue ys := by
  induction xs with
  | nil => simp
  | cons b xs ih =>
    simp only [List.cons_append, leValue_cons, ih, List.length_cons, pow_succ]
    ring

/-- Or-ing in the next byte at its position is adding its place value. -/
theorem leValue_concat_or (bs : List UInt8) (b : UInt8) :
    leValue (bs ++ [b]) = leValue bs ||| b.toNat <<< (bs.length * 8) := by
  -- the byte is shifted past every bit that the others have set, so no carry can occur
  have hlt : leValue bs < 2 ^ (bs.length * 8) := by
    have h := leValue_lt bs
    rwa [show (256 : ℕ) = 2 ^ 8 by norm_num, ← pow_mul, Nat.mul_comm] at h
  rw [Nat.or_comm, ← Nat.shiftLeft_add_eq_or_of_lt hlt, leValue_append, Nat.shiftLeft_eq,
    Nat.mul_comm bs.length 8, pow_mul]
  simp only [leValue_cons, leValue_nil]
  ring

/-- The word a program assembles from `n` bytes by or-ing each in at its position. -/
def orBytes (byteAt : ℕ → UInt8) (n : ℕ) : ℕ :=
  (List.range n).foldl (fun word i => word ||| (byteAt i).toNat <<< (i * 8)) 0

/-- Assembling by shifts and ors reads the little-endian value. -/
theorem orBytes_eq_leValue (byteAt : ℕ → UInt8) (n : ℕ) :
    orBytes byteAt n = leValue ((List.range n).map byteAt) := by
  induction n with
  | zero => rfl
  | succ n ih =>
    have hstep : orBytes byteAt (n + 1) =
        orBytes byteAt n ||| (byteAt n).toNat <<< (n * 8) := by
      simp [orBytes, List.range_succ]
    rw [hstep, ih, List.range_succ, List.map_append, List.map_singleton, leValue_concat_or]
    simp

/-- Bytes read past the end as zero add nothing to the value. -/
theorem leValue_map_getD (bs : List UInt8) (n : ℕ) :
    leValue ((List.range n).map fun i => (bs[i]?).getD 0) = leValue (bs.take n) := by
  induction n generalizing bs with
  | zero => simp
  | succ n ih =>
    rw [List.range_succ_eq_map, List.map_cons, List.map_map, leValue_cons]
    cases bs with
    | nil =>
      have hzero := ih []
      simp only [List.getElem?_nil, Option.getD_none, List.take_nil, leValue_nil] at hzero ⊢
      simpa [Function.comp_def] using hzero
    | cons b bs =>
      have htail := ih bs
      simpa [Function.comp_def] using htail

/-- The byte a program shifts out at position `i` is the `i`-th digit. -/
theorem ofNat_and_shiftRight (n i : ℕ) :
    UInt8.ofNat (0xFF &&& n >>> (i * 8)) = UInt8.ofNat (n / 256 ^ i) := by
  have hmask : 0xFF &&& n >>> (i * 8) = (n / 256 ^ i) % 256 := by
    rw [Nat.and_comm, show (0xFF : ℕ) = 2 ^ 8 - 1 by norm_num, Nat.and_two_pow_sub_one_eq_mod,
      Nat.shiftRight_eq_div_pow, Nat.mul_comm, pow_mul]
    norm_num
  rw [hmask]
  apply UInt8.toNat_inj.mp
  simp

/-- The digits listed by position are the little-endian bytes. -/
theorem map_range_ofNat_div (width n : ℕ) :
    (List.range width).map (fun i => UInt8.ofNat (n / 256 ^ i)) = leBytes width n := by
  induction width generalizing n with
  | zero => rfl
  | succ width ih =>
    rw [List.range_succ_eq_map, List.map_cons, List.map_map, leBytes, ← ih (n / 256), pow_zero,
      Nat.div_one]
    congr 1
    apply List.map_congr_left
    intro i _
    simp only [Function.comp_apply, Nat.div_div_eq_div_mul, Nat.succ_eq_add_one, pow_succ']

end LittleEndian
