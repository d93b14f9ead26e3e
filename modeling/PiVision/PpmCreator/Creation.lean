import PiVision.Lib.Block
import PiVision.Lib.Decimal
import PiVision.Lib.Pixmap
import PiVision.Lib.Run

/-!
# Creation of portable pixmaps

`PPMCREATOR_createGrayscaleImage` prints a header at the front of `imageData` and appends the
pixels behind `imageByteSize` bytes, three bytes for each byte of the image. The two places
fit together in a structure of zeros. In one that has been used before, the header goes over
the one that is there, and the pixels behind the pixels that are there. The size of the array
is that of the pixels of the largest image, without a header.
-/

namespace PiVision

open Decimal Machine Triples

/-- `PPM_IMAGE_MAX_BYTE_SIZE`. -/
def ppmImageMaxByteSize : ℕ := 2048 * 2048 * 3

/-- `PPM_IMAGE_HEADER_MAX_VAL`. -/
def ppmImageHeaderMaxVal : UInt32 := 255

/-- What `sprintf` makes of `PPM_IMAGE_HEADER_STRING`, without the NUL behind it. -/
def ppmImageHeader (xSize ySize : UInt32) : List UInt8 :=
  [80, 54, 32] ++ decimal xSize.toNat ++ [32] ++ decimal ySize.toNat ++ [32] ++
    decimal ppmImageHeaderMaxVal.toNat ++ [10]

/-- `PPMCREATOR_imageData`, and the indices of `imageData` that have been written to. A byte
for an index outside the array is left out. -/
structure PpmCreatorImageData where
  imageByteSize : UInt32
  imageData : List.Vector UInt8 ppmImageMaxByteSize
  written : List ℕ

/-- The arguments of a call, with the pixels of an image that is no larger than the array. -/
structure PpmImage where
  xSize : UInt32
  ySize : UInt32
  buf : List UInt8
  whole : buf.length = xSize.toNat * ySize.toNat
  bounded : 3 * (xSize.toNat * ySize.toNat) ≤ ppmImageMaxByteSize

/-- An image that fits into the array with its header. -/
structure PpmFittingImage extends PpmImage where
  fits : (ppmImageHeader xSize ySize).length + 3 * (xSize.toNat * ySize.toNat) ≤
    ppmImageMaxByteSize

/-- The pixmap of an image. -/
def PpmImage.pixmap (image : PpmImage) : Pixmap.Image where
  width := image.xSize.toNat
  height := image.ySize.toNat
  maximum := ppmImageHeaderMaxVal.toNat
  pixels := image.buf.map fun b => (b, b, b)
  count := by rw [List.length_map, image.whole]

namespace PpmCreatorImageData

/-- A structure of zeros. -/
def zeroed : PpmCreatorImageData := ⟨0, .replicate _ 0, []⟩

/-- `imageData[imageByteSize] = b` and the increment. -/
def writeByte (s : PpmCreatorImageData) (b : UInt8) : PpmCreatorImageData where
  imageByteSize := s.imageByteSize + 1
  imageData := Block.write s.imageData s.imageByteSize.toNat [b]
  written := s.written ++ [s.imageByteSize.toNat]

/-- One round of the loop. -/
def writePixel (s : PpmCreatorImageData) (b : UInt8) : PpmCreatorImageData :=
  ((s.writeByte b).writeByte b).writeByte b

/-- `sprintf`, whose result is added to `imageByteSize`. -/
def writeHeader (s : PpmCreatorImageData) (xSize ySize : UInt32) : PpmCreatorImageData where
  imageByteSize := s.imageByteSize + UInt32.ofNat (ppmImageHeader xSize ySize).length
  imageData := Block.write s.imageData 0 (ppmImageHeader xSize ySize ++ [0])
  written := s.written ++ List.range ((ppmImageHeader xSize ySize).length + 1)

/-- `PPMCREATOR_createGrayscaleImage`: its result, and `bufOut` after it. -/
def createGrayscaleImage (s : PpmCreatorImageData) (xSize ySize : UInt32) (buf : List UInt8) :
    ℤ × PpmCreatorImageData :=
  (0, (buf.take (xSize * ySize).toNat).foldl writePixel (s.writeHeader xSize ySize))

/-- A call. -/
def step (s : PpmCreatorImageData) (image : PpmImage) : PpmCreatorImageData :=
  (s.createGrayscaleImage image.xSize image.ySize image.buf).2

/-- All that has been written is inside the array. -/
def InBounds (s : PpmCreatorImageData) : Prop := ∀ i ∈ s.written, i < ppmImageMaxByteSize

/-- The first `imageByteSize` bytes are a pixmap of the image and nothing else. -/
structure Holds (s : PpmCreatorImageData) (image : PpmImage) : Prop where
  inside : s.imageByteSize.toNat ≤ ppmImageMaxByteSize
  decodes : Pixmap.decode (s.imageData.toList.take s.imageByteSize.toNat) = some image.pixmap

/-- A call leaves the pixmap of its image. -/
def Lawful (s : PpmCreatorImageData) (image : PpmFittingImage) : Prop :=
  (s.step image.toPpmImage).Holds image.toPpmImage

/-! ## The loop -/

section Loop

variable {s : PpmCreatorImageData}

/-- The rounds of the loop are the bytes of the pixels. -/
theorem foldl_writePixel (s : PpmCreatorImageData) (buf : List UInt8) :
    buf.foldl writePixel s =
      (Pixmap.raster (buf.map fun b => (b, b, b))).foldl writeByte s := by
  induction buf generalizing s with
  | nil => rfl
  | cons b buf ih => exact ih (s.writePixel b)

theorem toNat_imageByteSize_writeByte (small : s.imageByteSize.toNat + 1 < 2 ^ 32) (b : UInt8) :
    (s.writeByte b).imageByteSize.toNat = s.imageByteSize.toNat + 1 :=
  (UInt32.toNat_add s.imageByteSize 1).trans (Nat.mod_eq_of_lt small)

theorem toNat_imageByteSize_foldl (bytes : List UInt8)
    (small : s.imageByteSize.toNat + bytes.length < 2 ^ 32) :
    (bytes.foldl writeByte s).imageByteSize.toNat = s.imageByteSize.toNat + bytes.length := by
  induction bytes generalizing s with
  | nil => rfl
  | cons b bytes ih =>
    rw [List.length_cons] at small ⊢
    have hfirst := @toNat_imageByteSize_writeByte s (by omega) b
    rw [List.foldl_cons, ih (by omega), hfirst]
    omega

/-- The indices of the loop follow each other. -/
theorem written_foldl (bytes : List UInt8)
    (small : s.imageByteSize.toNat + bytes.length < 2 ^ 32) :
    (bytes.foldl writeByte s).written =
      s.written ++ List.range' s.imageByteSize.toNat bytes.length := by
  induction bytes generalizing s with
  | nil => exact (List.append_nil _).symm
  | cons b bytes ih =>
    rw [List.length_cons] at small
    have hfirst := @toNat_imageByteSize_writeByte s (by omega) b
    rw [List.foldl_cons, ih (by omega), hfirst, List.length_cons, List.range'_succ, writeByte,
      List.append_assoc, List.singleton_append]

/-- The bytes of the loop follow each other. -/
theorem take_foldl (bytes : List UInt8)
    (fits : s.imageByteSize.toNat + bytes.length ≤ ppmImageMaxByteSize) :
    (bytes.foldl writeByte s).imageData.toList.take (s.imageByteSize.toNat + bytes.length) =
      s.imageData.toList.take s.imageByteSize.toNat ++ bytes := by
  have htake := @take_foldl_write _ _ _ _ writeByte (fun _ => True)
    (fun s => s.imageByteSize.toNat) imageData id (fun _ _ _ => trivial)
    (fun s b _ below => ?_) (fun _ _ _ => rfl) s trivial bytes fits
  · rwa [List.map_id] at htake
  · refine toNat_imageByteSize_writeByte ?_ b
    rw [ppmImageMaxByteSize] at below
    omega

end Loop

/-! ## A call -/

section Call

variable {s : PpmCreatorImageData} {image : PpmImage}

theorem ppmImageHeader_eq (xSize ySize : UInt32) :
    ppmImageHeader xSize ySize =
      Pixmap.header xSize.toNat ySize.toNat ppmImageHeaderMaxVal.toNat := by
  simp [ppmImageHeader, Pixmap.header, Pixmap.magic]

theorem length_ppmImageHeader (xSize ySize : UInt32) :
    (ppmImageHeader xSize ySize).length =
      9 + (decimal xSize.toNat).length + (decimal ySize.toNat).length := by
  have hmax : (decimal ppmImageHeaderMaxVal.toNat).length = 3 := rfl
  simp only [ppmImageHeader, List.length_append, List.length_cons, List.length_nil, hmax]
  omega

theorem length_ppmImageHeader_le (xSize ySize : UInt32) :
    (ppmImageHeader xSize ySize).length ≤ 29 := by
  have hdigits (n : UInt32) : (decimal n.toNat).length ≤ 10 :=
    (length_decimal_le_iff (by decide)).mpr (n.toNat_lt.trans (by decide))
  have hx := hdigits xSize
  have hy := hdigits ySize
  rw [length_ppmImageHeader]
  omega

theorem length_raster (image : PpmImage) :
    (Pixmap.raster image.pixmap.pixels).length = 3 * (image.xSize.toNat * image.ySize.toNat) := by
  rw [Pixmap.length_raster, image.pixmap.count]
  rfl

/-- A call writes the header, and the bytes of the pixels. -/
theorem step_eq (s : PpmCreatorImageData) (image : PpmImage) :
    s.step image = (Pixmap.raster image.pixmap.pixels).foldl writeByte
      (s.writeHeader image.xSize image.ySize) := by
  have hbounded := image.bounded
  have hsize : (image.xSize * image.ySize).toNat = image.buf.length := by
    rw [UInt32.toNat_mul, image.whole]
    rw [ppmImageMaxByteSize] at hbounded
    exact Nat.mod_eq_of_lt (by omega)
  rw [step, createGrayscaleImage, hsize, List.take_length]
  exact foldl_writePixel _ _

theorem toNat_imageByteSize_writeHeader (inside : s.imageByteSize.toNat ≤ ppmImageMaxByteSize)
    (xSize ySize : UInt32) :
    (s.writeHeader xSize ySize).imageByteSize.toNat =
      s.imageByteSize.toNat + (ppmImageHeader xSize ySize).length := by
  have hheader := length_ppmImageHeader_le xSize ySize
  rw [ppmImageMaxByteSize] at inside
  rw [writeHeader, UInt32.toNat_add, UInt32.toNat_ofNat']
  omega

theorem toNat_imageByteSize_step (inside : s.imageByteSize.toNat ≤ ppmImageMaxByteSize) :
    (s.step image).imageByteSize.toNat =
      s.imageByteSize.toNat + (ppmImageHeader image.xSize image.ySize).length +
        3 * (image.xSize.toNat * image.ySize.toNat) := by
  have hheader := length_ppmImageHeader_le image.xSize image.ySize
  have hsize := toNat_imageByteSize_writeHeader inside image.xSize image.ySize
  have hbounded := image.bounded
  rw [step_eq, toNat_imageByteSize_foldl, hsize, length_raster]
  rw [hsize, length_raster]
  rw [ppmImageMaxByteSize] at inside hbounded
  omega

theorem written_step (inside : s.imageByteSize.toNat ≤ ppmImageMaxByteSize) :
    (s.step image).written =
      s.written ++ List.range ((ppmImageHeader image.xSize image.ySize).length + 1) ++
        List.range' (s.imageByteSize.toNat + (ppmImageHeader image.xSize image.ySize).length)
          (3 * (image.xSize.toNat * image.ySize.toNat)) := by
  have hheader := length_ppmImageHeader_le image.xSize image.ySize
  have hsize := toNat_imageByteSize_writeHeader inside image.xSize image.ySize
  have hbounded := image.bounded
  rw [step_eq, written_foldl, hsize, length_raster]
  · rfl
  · rw [hsize, length_raster]
    rw [ppmImageMaxByteSize] at inside hbounded
    omega

/-- The bytes of the pixels stand behind those that were there. -/
theorem take_step
    (fits : s.imageByteSize.toNat + (ppmImageHeader image.xSize image.ySize).length +
      3 * (image.xSize.toNat * image.ySize.toNat) ≤ ppmImageMaxByteSize) :
    (s.step image).imageData.toList.take (s.step image).imageByteSize.toNat =
      (s.writeHeader image.xSize image.ySize).imageData.toList.take
          (s.imageByteSize.toNat + (ppmImageHeader image.xSize image.ySize).length) ++
        Pixmap.raster image.pixmap.pixels := by
  have hinside : s.imageByteSize.toNat ≤ ppmImageMaxByteSize := by omega
  have hsize := toNat_imageByteSize_writeHeader hinside image.xSize image.ySize
  have htake := @take_foldl (s.writeHeader image.xSize image.ySize)
    (Pixmap.raster image.pixmap.pixels) (by rw [hsize, length_raster]; exact fits)
  rw [hsize, length_raster] at htake
  rw [toNat_imageByteSize_step hinside, step_eq, htake]

/-- The header is at the front. -/
theorem take_writeHeader (s : PpmCreatorImageData) (xSize ySize : UInt32) :
    (s.writeHeader xSize ySize).imageData.toList.take (ppmImageHeader xSize ySize).length =
      ppmImageHeader xSize ySize := by
  have hheader := length_ppmImageHeader_le xSize ySize
  have hfits : Block.Fits ppmImageMaxByteSize 0 (ppmImageHeader xSize ySize ++ [0]) := by
    rw [Block.Fits, List.length_append, List.length_singleton, ppmImageMaxByteSize]
    omega
  rw [writeHeader, Block.toList_write _ hfits, List.take_zero, List.nil_append, List.append_assoc,
    List.take_left]

end Call

/-! ## Bounds -/

/-- The last byte of the pixels is the one that may be out of bounds. -/
theorem inBounds_zeroed_iff (image : PpmImage) :
    (zeroed.step image).InBounds ↔
      (ppmImageHeader image.xSize image.ySize).length +
        3 * (image.xSize.toNat * image.ySize.toNat) ≤ ppmImageMaxByteSize := by
  have hheader := length_ppmImageHeader_le image.xSize image.ySize
  have hbounded := image.bounded
  have hzero : zeroed.imageByteSize.toNat = 0 := rfl
  have hwritten : zeroed.written = [] := rfl
  rw [InBounds, written_step (by rw [hzero]; exact Nat.zero_le _), hzero, hwritten, List.nil_append,
    Nat.zero_add, List.forall_mem_append]
  simp only [List.mem_range, List.mem_range'_1]
  generalize (ppmImageHeader image.xSize image.ySize).length = header at *
  generalize 3 * (image.xSize.toNat * image.ySize.toNat) = pixels at *
  rw [ppmImageMaxByteSize] at *
  constructor
  · rintro ⟨-, hpixels⟩
    rcases Nat.eq_zero_or_pos pixels with rfl | hpos
    · omega
    · have hlast := hpixels (header + pixels - 1) (by omega)
      omega
  · intro fits
    exact ⟨fun i hi => by omega, fun i hi => by omega⟩

/-- **A call stays inside the array** of a structure of zeros exactly if the header fits as
well. -/
theorem inBounds_step_iff (image : PpmImage) :
    (zeroed.step image).InBounds ↔
      9 + (decimal image.xSize.toNat).length + (decimal image.ySize.toNat).length +
        3 * (image.xSize.toNat * image.ySize.toNat) ≤ ppmImageMaxByteSize := by
  rw [inBounds_zeroed_iff, length_ppmImageHeader]

/-- The largest image has no room for its header. -/
theorem not_inBounds_step :
    ¬(zeroed.step ⟨2048, 2048, .replicate (2048 * 2048) 0,
      by rw [List.length_replicate]; rfl, Nat.le_of_eq rfl⟩).InBounds := by
  rw [inBounds_zeroed_iff]
  decide

/-! ## Pixmaps -/

section Pixmaps

variable {s : PpmCreatorImageData}

/-- A call on an empty structure leaves the pixmap of its image. -/
theorem lawful_of_empty (empty : s.imageByteSize = 0) (image : PpmFittingImage) :
    s.Lawful image := by
  have hzero : s.imageByteSize.toNat = 0 := congrArg UInt32.toNat empty
  have hfits := image.fits
  refine ⟨?_, ?_⟩
  · rw [toNat_imageByteSize_step (by omega), hzero]
    omega
  · rw [take_step (by omega), hzero, Nat.zero_add, take_writeHeader, ppmImageHeader_eq]
    have hmaximum : image.pixmap.maximum = 255 := rfl
    have hround : Pixmap.decode image.pixmap.encode = some image.pixmap :=
      Pixmap.decode_encode (by rw [hmaximum]; decide) (by rw [hmaximum]; decide)
    exact hround

/-- A call on any other structure leaves more than that. -/
theorem not_lawful_of_used (inside : s.imageByteSize.toNat ≤ ppmImageMaxByteSize)
    (used : 0 < s.imageByteSize.toNat) (image : PpmFittingImage) : ¬s.Lawful image := by
  rintro ⟨hinside, hdecodes⟩
  have hsize := @toNat_imageByteSize_step s image.toPpmImage inside
  rw [hsize] at hinside
  -- the header is at the front, and what was there before is between it and the pixels
  set file := (s.step image.toPpmImage).imageData.toList.take
    (s.step image.toPpmImage).imageByteSize.toNat with hfile
  have hheader : file.take (ppmImageHeader image.xSize image.ySize).length =
      ppmImageHeader image.xSize image.ySize := by
    have hroom : (ppmImageHeader image.xSize image.ySize).length ≤ ppmImageMaxByteSize := by omega
    rw [hfile, take_step hinside, List.take_append_of_le_length, List.take_take,
      Nat.min_eq_left (Nat.le_add_left _ _), take_writeHeader]
    rw [List.length_take, List.Vector.toList_length]
    omega
  have hlength : file.length = (s.step image.toPpmImage).imageByteSize.toNat := by
    rw [hfile, List.length_take, List.Vector.toList_length, hsize]
    exact Nat.min_eq_left hinside
  have hsplit := List.take_append_drop (ppmImageHeader image.xSize image.ySize).length file
  rw [hheader, ppmImageHeader_eq] at hsplit
  rw [← hsplit] at hdecodes
  have hpixels := Pixmap.length_of_decode hdecodes
  rw [List.length_drop, hlength, hsize, ← ppmImageHeader_eq] at hpixels
  omega

/-- **The structure holds the pixmap** behind every call of a sequence exactly if the sequence
is a single call. -/
theorem along_lawful_iff (images : List PpmFittingImage) :
    Along (fun s image => step s image.toPpmImage) Lawful zeroed images ↔ images.length ≤ 1 := by
  match images with
  | [] => exact iff_of_true trivial (Nat.zero_le 1)
  | [image] => exact iff_of_true ⟨lawful_of_empty rfl image, trivial⟩ (Nat.le_refl 1)
  | first :: second :: images =>
    refine iff_of_false ?_ (by simp)
    rintro ⟨hfirst, hsecond, -⟩
    have hsize := @toNat_imageByteSize_step zeroed first.toPpmImage (Nat.zero_le _)
    have hheader := length_ppmImageHeader first.xSize first.ySize
    exact not_lawful_of_used hfirst.inside (by omega) second hsecond

/-- Two calls for images of one pixel. -/
theorem not_along_lawful :
    ¬Along (fun s image => step s image.toPpmImage) Lawful zeroed
      [⟨⟨1, 1, [0], rfl, by decide⟩, by decide⟩, ⟨⟨1, 1, [255], rfl, by decide⟩, by decide⟩] := by
  rintro ⟨hfirst, hsecond, -⟩
  refine not_lawful_of_used hfirst.inside ?_ _ hsecond
  rw [toNat_imageByteSize_step (Nat.zero_le _)]
  decide

end Pixmaps

end PpmCreatorImageData

end PiVision
