import PiVision.Lib.Statistics
import PiVision.Pipeline.TwoTone
import Mathlib.Data.Int.ModEq
import Mathlib.Algebra.BigOperators.Ring.Finset

/-!
# The arithmetic of the normalizer

The passes of `IMGNORMALGO_exec` compute in 32-bit words and store bytes. Here their results
are those of numbers: the mean of the intensities kept within 20 and 240, the sum of the
products of the deviations from it, and the pixels that the third and the fourth pass store.
Of these only the sum is too large for its word, for images of strong contrast.
-/

namespace PiVision

open Triples Statistics

namespace NormalizerState

/-! ## The numbers that the passes compute -/

/-- The intensities that the first pass stores. -/
def filtered (gray : GrayscaleImage) : GrayscaleImage := gray.map filterIntensity

/-- An intensity as the first pass keeps it. -/
def kept (g : UInt8) : ℕ := (filterIntensity g).toNat

/-- The sum of the intensities kept. -/
def keptSum (gray : GrayscaleImage) : ℕ := (gray.toList.map kept).sum

/-- The mean of the intensities kept, what is carried over from the frame before included. -/
def mean (carried : UInt32) (gray : GrayscaleImage) : ℕ :=
  (carried.toNat + keptSum gray) / grayscaleImageSize

/-- The product of the deviations of an intensity, kept and as it is. -/
def product (mean : ℕ) (g : UInt8) : ℤ := ((kept g : ℤ) - mean) * ((g.toNat : ℤ) - mean)

/-- The sum of the products over an image. -/
def spread (mean : ℕ) (gray : GrayscaleImage) : ℤ := (gray.toList.map (product mean)).sum

/-- The root of the mean product, as far as its sum is kept in a word. -/
def rootSpread (mean : ℕ) (gray : GrayscaleImage) : ℕ :=
  ((spread mean gray % 2 ^ 32).toNat / grayscaleImageSize).sqrt

/-- What the third pass makes of an intensity kept. -/
def level (mean root intensity : ℕ) : ℕ :=
  if mean < intensity then (intensity - mean) / root else intensity

theorem grayscaleImageSize_eq : grayscaleImageSize = 307200 := by decide

theorem grayscaleImageSize_pos : 0 < grayscaleImageSize := by decide

theorem kept_eq (g : UInt8) : kept g = max 20 (min g.toNat 240) := by
  have hhigh : imageFilterHigh.toNat = 240 := rfl
  have hlow : imageFilterLow.toNat = 20 := rfl
  simp only [kept, filterIntensity, gt_iff_lt, UInt8.lt_iff_toNat_lt, hhigh, hlow]
  by_cases habove : 240 < g.toNat
  · rw [if_pos habove, hhigh]
    omega
  · rw [if_neg habove]
    by_cases hbelow : g.toNat < 20
    · rw [if_pos hbelow, hlow]
      omega
    · rw [if_neg hbelow]
      omega

theorem kept_mem (g : UInt8) : 20 ≤ kept g ∧ kept g ≤ 240 := by
  rw [kept_eq]
  omega

theorem toList_filtered (gray : GrayscaleImage) :
    (filtered gray).toList.map UInt8.toNat = gray.toList.map kept := by
  rw [filtered, List.Vector.toList_map, List.map_map]
  rfl

theorem mem_keptValues {gray : GrayscaleImage} {x : ℕ} (mem : x ∈ gray.toList.map kept) :
    20 ≤ x ∧ x ≤ 240 := by
  obtain ⟨g, -, rfl⟩ := List.mem_map.mp mem
  exact kept_mem g

theorem length_keptValues (gray : GrayscaleImage) :
    (gray.toList.map kept).length = grayscaleImageSize := by
  rw [List.length_map, gray.toList_length]

/-! ## The mean -/

section Mean

variable {carried : UInt32} (small : carried.toNat ≤ 240) (gray : GrayscaleImage)

theorem twenty_le_mean : 20 ≤ mean carried gray := by
  have hle : 20 ≤ (carried.toNat + (gray.toList.map kept).sum) / (gray.toList.map kept).length :=
    le_mean (by rw [length_keptValues]; exact grayscaleImageSize_pos)
      fun x hx => (mem_keptValues hx).1
  rwa [length_keptValues] at hle

include small

theorem mean_le_240 : mean carried gray ≤ 240 := by
  have hsize := grayscaleImageSize_eq
  have hle : (carried.toNat + (gray.toList.map kept).sum) / (gray.toList.map kept).length ≤ 240 :=
    mean_le (by rw [length_keptValues]; omega) fun x hx => (mem_keptValues hx).2
  rwa [length_keptValues] at hle

/-- The first pass computes the mean. -/
theorem toNat_average : (average carried (filtered gray)).toNat = mean carried gray := by
  have hsize := grayscaleImageSize_eq
  have hsum : (gray.toList.map kept).sum ≤ (gray.toList.map kept).length * 240 :=
    sum_le_length_mul fun x hx => (mem_keptValues hx).2
  rw [length_keptValues] at hsum
  rw [average, UInt32.toNat_div, toNat_foldl_add, toList_filtered, UInt32.toNat_ofNat', mean,
    keptSum]
  generalize (gray.toList.map kept).sum = total at hsum ⊢
  rw [hsize] at hsum ⊢
  rw [Nat.mod_eq_of_lt (show 307200 < 2 ^ 32 by omega),
    Nat.mod_eq_of_lt (show carried.toNat + total < 2 ^ 32 by omega)]

end Mean

/-! ## The variance -/

/-- `imageVariance` behind the loop that accumulates it. -/
def imageVariance (averageIntensity : UInt32) (filtered gray : GrayscaleImage) : UInt32 :=
  (List.zipWith
    (fun f g => (f.toUInt32 - averageIntensity) * (g.toUInt32 - averageIntensity))
    filtered.toList gray.toList).foldl (· + ·) 0

theorem deviation_eq (averageIntensity : UInt32) (filtered gray : GrayscaleImage) :
    deviation averageIntensity filtered gray =
      UInt32.ofNat (imageVariance averageIntensity filtered gray /
        UInt32.ofNat grayscaleImageSize).toNat.sqrt := rfl

/-- What is added to `imageVariance` for a pixel. -/
def varianceTerm (averageIntensity : UInt32) (g : UInt8) : UInt32 :=
  ((filterIntensity g).toUInt32 - averageIntensity) * (g.toUInt32 - averageIntensity)

/-- The difference of two words is that of numbers up to the range of a word. -/
theorem toNat_sub_modEq (a b : UInt32) :
    ((a - b).toNat : ℤ) ≡ (a.toNat : ℤ) - b.toNat [ZMOD 2 ^ 32] := by
  have hb := b.toNat_lt
  rw [UInt32.toNat_sub, Int.natCast_mod, Nat.cast_add, Nat.cast_sub (Nat.le_of_lt hb)]
  refine (Int.mod_modEq _ _).trans ?_
  rw [Int.modEq_iff_dvd]
  exact ⟨-1, by push_cast; ring⟩

/-- A term is the product of two deviations up to the range of a word, though both are
computed without a sign. -/
theorem varianceTerm_modEq (averageIntensity : UInt32) (g : UInt8) :
    ((varianceTerm averageIntensity g).toNat : ℤ) ≡
      product averageIntensity.toNat g [ZMOD 2 ^ 32] := by
  have hkept := toNat_sub_modEq (filterIntensity g).toUInt32 averageIntensity
  have hgray := toNat_sub_modEq g.toUInt32 averageIntensity
  rw [UInt8.toNat_toUInt32] at hkept hgray
  rw [varianceTerm, UInt32.toNat_mul, Int.natCast_mod, Nat.cast_mul]
  exact (Int.mod_modEq _ _).trans (hkept.mul hgray)

/-- A product is not negative, as an intensity is kept on its side of the mean. -/
theorem product_nonneg {mean : ℕ} (above : 20 ≤ mean) (below : mean ≤ 240) (g : UInt8) :
    0 ≤ product mean g := by
  have hclamp : ((kept g : ℕ) : ℤ) = max 20 (min (g.toNat : ℤ) 240) := by
    rw [kept_eq]
    push_cast
    rfl
  rw [product, hclamp]
  exact sub_mul_sub_nonneg_of_clamp (by exact_mod_cast above) (by exact_mod_cast below)

theorem spread_nonneg {mean : ℕ} (above : 20 ≤ mean) (below : mean ≤ 240)
    (gray : GrayscaleImage) : 0 ≤ spread mean gray := by
  apply List.sum_nonneg
  intro x hx
  obtain ⟨g, -, rfl⟩ := List.mem_map.mp hx
  exact product_nonneg above below g

theorem foldl_add_modEq (terms : List UInt32) (start : UInt32) :
    ((terms.foldl (· + ·) start).toNat : ℤ) ≡
      start.toNat + (terms.map fun term => (term.toNat : ℤ)).sum [ZMOD 2 ^ 32] := by
  induction terms generalizing start with
  | nil =>
    rw [List.foldl_nil, List.map_nil, List.sum_nil, add_zero]
  | cons term terms ih =>
    rw [List.foldl_cons, List.map_cons, List.sum_cons, ← add_assoc]
    refine (ih (start + term)).trans (Int.ModEq.add_right _ ?_)
    rw [UInt32.toNat_add, Int.natCast_mod, Nat.cast_add]
    exact Int.mod_modEq _ _

theorem imageVariance_eq_foldl (averageIntensity : UInt32) (gray : GrayscaleImage) :
    imageVariance averageIntensity (filtered gray) gray =
      (gray.toList.map (varianceTerm averageIntensity)).foldl (· + ·) 0 := by
  have hzip : List.zipWith
      (fun f g => (f.toUInt32 - averageIntensity) * (g.toUInt32 - averageIntensity))
      (filtered gray).toList gray.toList = gray.toList.map (varianceTerm averageIntensity) := by
    rw [filtered, List.Vector.toList_map, List.zipWith_map_left, List.zipWith_self]
    rfl
  rw [imageVariance, hzip]

/-- **The accumulator** holds the sum of the products as far as a word does. -/
theorem toNat_imageVariance (averageIntensity : UInt32) (gray : GrayscaleImage) :
    ((imageVariance averageIntensity (filtered gray) gray).toNat : ℤ) =
      spread averageIntensity.toNat gray % 2 ^ 32 := by
  have hterms : ((gray.toList.map (varianceTerm averageIntensity)).map
      fun term => (term.toNat : ℤ)).sum ≡ spread averageIntensity.toNat gray [ZMOD 2 ^ 32] := by
    rw [spread, List.map_map]
    induction gray.toList with
    | nil => rfl
    | cons g gs ih =>
      rw [List.map_cons, List.sum_cons, List.map_cons, List.sum_cons]
      exact (varianceTerm_modEq averageIntensity g).add ih
  have hsum := foldl_add_modEq (gray.toList.map (varianceTerm averageIntensity)) 0
  rw [← imageVariance_eq_foldl, UInt32.toNat_zero, Nat.cast_zero, zero_add] at hsum
  have hlt := (imageVariance averageIntensity (filtered gray) gray).toNat_lt
  rw [← (hsum.trans hterms).eq]
  exact (Int.emod_eq_of_lt (Nat.cast_nonneg _) (by exact_mod_cast hlt)).symm

/-- The second pass computes the root of the mean product. -/
theorem toNat_deviation (averageIntensity : UInt32) (gray : GrayscaleImage) :
    (deviation averageIntensity (filtered gray) gray).toNat =
      rootSpread averageIntensity.toNat gray := by
  have hvariance := toNat_imageVariance averageIntensity gray
  have hlt := (imageVariance averageIntensity (filtered gray) gray).toNat_lt
  have hsize : (UInt32.ofNat grayscaleImageSize).toNat = grayscaleImageSize := by
    rw [UInt32.toNat_ofNat', grayscaleImageSize_eq]
  rw [deviation_eq, UInt32.toNat_ofNat', UInt32.toNat_div, hsize, rootSpread, ← hvariance,
    Int.toNat_natCast]
  refine Nat.mod_eq_of_lt (Nat.lt_of_le_of_lt ?_ hlt)
  exact (Nat.sqrt_le_self _).trans (Nat.div_le_self _ _)

/-- An average that a call may find in `averageIntensity`: that of no frame, or of one. -/
structure CarriedAverage where
  value : UInt32
  admissible : value = 0 ∨ 20 ≤ value.toNat ∧ value.toNat ≤ 240

theorem CarriedAverage.small (carried : CarriedAverage) : carried.value.toNat ≤ 240 := by
  rcases carried.admissible with hzero | ⟨-, hle⟩
  · rw [hzero]
    exact Nat.zero_le 240
  · exact hle

/-- The sum of the products by the sums of the intensities. -/
theorem spread_eq (mean : ℕ) (gray : GrayscaleImage) :
    spread mean gray = (gray.toList.map fun g => kept g * g.toNat).sum +
      grayscaleImageSize * mean ^ 2 -
        mean * (keptSum gray + (gray.toList.map UInt8.toNat).sum : ℕ) := by
  have hsum := sum_map_sub_mul_sub (fun g : UInt8 => (kept g : ℤ)) (fun g => (g.toNat : ℤ))
    (mean : ℤ) gray.toList
  have hcast (f : UInt8 → ℕ) :
      (((gray.toList.map f).sum : ℕ) : ℤ) = (gray.toList.map fun g => (f g : ℤ)).sum := by
    rw [Nat.cast_list_sum, List.map_map]
    rfl
  rw [gray.toList_length] at hsum
  rw [spread, keptSum, Nat.cast_add, hcast, hcast, hcast]
  simp only [Nat.cast_mul]
  exact hsum

/-- The accumulator holds the sum itself if it is in the range of a word. -/
theorem toNat_imageVariance_eq_iff (averageIntensity : UInt32)
    (above : 20 ≤ averageIntensity.toNat) (below : averageIntensity.toNat ≤ 240)
    (gray : GrayscaleImage) :
    ((imageVariance averageIntensity (filtered gray) gray).toNat : ℤ) =
        spread averageIntensity.toNat gray ↔ spread averageIntensity.toNat gray < 2 ^ 32 := by
  rw [toNat_imageVariance]
  constructor
  · intro heq
    rw [← heq]
    exact Int.emod_lt_of_pos _ (by decide)
  · exact Int.emod_eq_of_lt (spread_nonneg above below gray)

/-- **The accumulator is exact** if and only if the intensities do not vary too much. -/
theorem imageVariance_exact_iff (carried : CarriedAverage) (gray : GrayscaleImage) :
    ((imageVariance (average carried.value (filtered gray)) (filtered gray) gray).toNat : ℤ) =
        spread (mean carried.value gray) gray ↔
      (gray.toList.map fun g => kept g * g.toNat).sum +
          grayscaleImageSize * mean carried.value gray ^ 2 <
        2 ^ 32 + mean carried.value gray *
          (keptSum gray + (gray.toList.map UInt8.toNat).sum) := by
  have hmean := toNat_average carried.small gray
  have habove : 20 ≤ mean carried.value gray := twenty_le_mean gray
  have hbelow := mean_le_240 carried.small gray
  have hspread := spread_eq (mean carried.value gray) gray
  rw [← hmean] at habove hbelow
  have hexact := toNat_imageVariance_eq_iff _ habove hbelow gray
  rw [hmean] at hexact
  rw [hexact, hspread, sub_lt_iff_lt_add]
  norm_cast

/-- Half of the pixels are black and half are white: the sum of the products is beyond the
range of a word. -/
theorem imageVariance_overflows :
    ((imageVariance (average 0 (filtered (twoTone 0 255 ⟨153600, by decide⟩)))
        (filtered (twoTone 0 255 ⟨153600, by decide⟩))
        (twoTone 0 255 ⟨153600, by decide⟩)).toNat : ℤ) ≠
      spread (mean 0 (twoTone 0 255 ⟨153600, by decide⟩))
        (twoTone 0 255 ⟨153600, by decide⟩) := by
  generalize hgray : twoTone 0 255 ⟨153600, by decide⟩ = gray
  have hkept : keptSum gray = 153600 * 20 + 153600 * 240 := by
    rw [← hgray, keptSum, sum_map_twoTone]
    rfl
  have hmean : mean 0 gray = 130 := by
    rw [mean, hkept, grayscaleImageSize_eq]
    rfl
  have hspread : spread 130 gray = 4308480000 := by
    rw [← hgray, spread, sum_map_twoTone]
    rfl
  have hzero : (0 : UInt32).toNat ≤ 240 := Nat.zero_le 240
  have haverage : (average 0 (filtered gray)).toNat = 130 :=
    (toNat_average hzero gray).trans hmean
  have hexact := toNat_imageVariance_eq_iff (average 0 (filtered gray)) (by omega) (by omega) gray
  rw [haverage] at hexact
  rw [hmean, Ne, hexact, hspread]
  decide

end NormalizerState

end PiVision
