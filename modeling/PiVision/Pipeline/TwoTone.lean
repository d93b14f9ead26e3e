import PiVision.Pipeline.Normalizer

/-!
# Frames of two intensities

The frame whose first pixels have one intensity and whose other pixels have another, in all
of their channels. Its sums are those of two numbers, whatever the size of an image.
-/

namespace PiVision

open Triples

/-- The frame whose first `count` pixels have the first intensity. -/
def twoToneFrame (x y : UInt8) (count : Fin (grayscaleImageSize + 1)) : ColorImage :=
  ⟨.replicate (3 * count) x ++ .replicate (3 * (grayscaleImageSize - count)) y, by
    have hsize : colorImageSize = 3 * grayscaleImageSize := by decide
    rw [List.length_append, List.length_replicate, List.length_replicate]
    omega⟩

/-- The grayscale image whose first `count` pixels have the first intensity. -/
def twoTone (x y : UInt8) (count : Fin (grayscaleImageSize + 1)) : GrayscaleImage :=
  ⟨.replicate count x ++ .replicate (grayscaleImageSize - count) y, by
    rw [List.length_append, List.length_replicate, List.length_replicate]
    omega⟩

variable {x y : UInt8} {count : Fin (grayscaleImageSize + 1)}

theorem toList_twoTone : (twoTone x y count).toList =
    .replicate count x ++ .replicate (grayscaleImageSize - count) y := rfl

/-- A pixel of three equal channels has their intensity. -/
theorem grayPixel_same (x : UInt8) : NormalizerState.grayPixel (x, x, x) = x := by
  apply UInt8.toNat_inj.mp
  rw [NormalizerState.toNat_grayPixel]
  dsimp only
  omega

/-- The frame of two intensities becomes the grayscale image of them. -/
theorem createGrayscaleImage_twoToneFrame (image : GrayscaleImage) :
    NormalizerState.createGrayscaleImage image (twoToneFrame x y count) = twoTone x y count := by
  apply List.Vector.eq
  have hframe : (twoToneFrame x y count).toList =
      .replicate (3 * count) x ++ .replicate (3 * (grayscaleImageSize - count)) y := rfl
  rw [NormalizerState.toList_createGrayscaleImage, hframe, triples_append (by simp),
    triples_replicate, triples_replicate, List.map_append, List.map_replicate, List.map_replicate,
    grayPixel_same, grayPixel_same, toList_twoTone]

theorem mem_twoTone {c : UInt8} (mem : c ∈ (twoTone x y count).toList) : c = x ∨ c = y := by
  rw [toList_twoTone, List.mem_append] at mem
  rcases mem with hfirst | hsecond
  · exact .inl (List.eq_of_mem_replicate hfirst)
  · exact .inr (List.eq_of_mem_replicate hsecond)

theorem left_mem_twoTone (some : 0 < (count : ℕ)) : x ∈ (twoTone x y count).toList := by
  rw [toList_twoTone]
  exact List.mem_append_left _ (List.mem_replicate.mpr ⟨by omega, rfl⟩)

theorem right_mem_twoTone (some : (count : ℕ) < grayscaleImageSize) :
    y ∈ (twoTone x y count).toList := by
  rw [toList_twoTone]
  exact List.mem_append_right _ (List.mem_replicate.mpr ⟨by omega, rfl⟩)

/-- A sum over the pixels of two intensities. -/
theorem sum_map_twoTone {M : Type*} [AddMonoid M] (f : UInt8 → M) :
    ((twoTone x y count).toList.map f).sum =
      (count : ℕ) • f x + (grayscaleImageSize - count) • f y := by
  rw [toList_twoTone, List.map_append, List.map_replicate, List.map_replicate, List.sum_append,
    List.sum_replicate, List.sum_replicate]

end PiVision
