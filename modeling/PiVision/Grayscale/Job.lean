import PiVision.Data
import Mathlib.Tactic.Common

/-!
# The grayscale job

`PiVisionGrayscaleImageJob` turns a colour image payload into a grayscale payload: a
pixel is the average of three channel bytes, kept between two limits, and the pixels
are appended to a buffer whose capacity the image's own dimensions determine. The
accumulator is not cleared between pixels, so each pixel's value enters the average of
the next.

The grayscale payload carries no header: its first bytes are the first pixels.
-/

namespace PiVision

namespace GrayscaleImageJob

/-- `ExtractImageProperties`: two little-endian 16-bit words at the front. -/
def extractImageProperties (colorImage : PiVisionData) : ℕ × ℕ :=
  (colorImage.getWord 0 2, colorImage.getWord 2 2)

def upperLimit : ℕ := 254

def lowerLimit : ℕ := 1

/-- The locals of the pixel loop. `colorIntensity` never exceeds `1019`, so the 16-bit
variable of the source does not wrap. -/
structure JobState where
  colorIndex : ℕ
  colorIntensity : ℕ
  grayscaleImage : PiVisionData

/-- Averaging three channels, with both limits applied in turn. -/
def averageWithinLimits (colorIntensity : ℕ) : ℕ :=
  let average := colorIntensity / 3
  -- the second test sees the result of the first
  let capped := if upperLimit < average then upperLimit else average
  if capped < lowerLimit then lowerLimit else capped

/-- One round of the pixel loop, for the channel byte it reads. -/
def jobStep (s : JobState) (channel : UInt8) : JobState :=
  let colorIntensity := s.colorIntensity + channel.toNat
  let colorIndex := s.colorIndex + 1
  -- the source assigns the average to the sum it goes on adding to
  if 2 < colorIndex then
    let pixel := averageWithinLimits colorIntensity
    { colorIndex := 0
      colorIntensity := pixel
      grayscaleImage := s.grayscaleImage.append [UInt8.ofNat pixel] }
  else { s with colorIndex := colorIndex, colorIntensity := colorIntensity }

/-- The capacity of the grayscale image. -/
def imageCapacity (colorImage : PiVisionData) : ℕ :=
  let (xSize, ySize) := extractImageProperties colorImage
  xSize * ySize

/-- `Execute`: the payload raised on `PIVISION_BW_IMAGE_SERVICE_TX`. -/
def execute (colorImage : PiVisionData) : PiVisionData :=
  ((List.range (colorImage.size - 4)).foldl
    (fun s i => jobStep s (colorImage.getElementAt (4 + i)))
    ⟨0, 0, .new (imageCapacity colorImage)⟩).grayscaleImage

/-! ## The pixels of the grayscale image -/

/-- The sums of the channels of each complete pixel. -/
def channelSums : List UInt8 → List ℕ
  | r :: g :: b :: rest => (r.toNat + g.toNat + b.toNat) :: channelSums rest
  | _ => []

/-- The gray pixels that the sums become, each value carried over into the next. -/
def grayFrom : ℕ → List ℕ → List UInt8
  | _, [] => []
  | carry, sum :: sums =>
    UInt8.ofNat (averageWithinLimits (carry + sum)) ::
      grayFrom (averageWithinLimits (carry + sum)) sums

/-- The channel sums of the pixels that the image's dimensions leave room for. -/
def imageSums (colorImage : PiVisionData) : List ℕ :=
  (channelSums (colorImage.bytes.drop 4)).take (imageCapacity colorImage)

theorem averageWithinLimits_eq (colorIntensity : ℕ) :
    averageWithinLimits colorIntensity = max 1 (min 254 (colorIntensity / 3)) := by
  have hupper : upperLimit = 254 := rfl
  have hlower : lowerLimit = 1 := rfl
  simp only [averageWithinLimits]
  by_cases hcap : upperLimit < colorIntensity / 3
  · rw [if_pos hcap, if_neg (by decide)]
    omega
  · rw [if_neg hcap]
    split <;> omega

theorem averageWithinLimits_mem (colorIntensity : ℕ) :
    1 ≤ averageWithinLimits colorIntensity ∧ averageWithinLimits colorIntensity ≤ 254 := by
  rw [averageWithinLimits_eq]
  omega

/-- Strictly between the limits, the pixel is the rounded-down average. -/
theorem averageWithinLimits_eq_iff {colorIntensity pixel : ℕ} (above : 1 < pixel)
    (below : pixel < 254) :
    averageWithinLimits colorIntensity = pixel ↔
      3 * pixel ≤ colorIntensity ∧ colorIntensity ≤ 3 * pixel + 2 := by
  rw [averageWithinLimits_eq]
  omega

theorem grayFrom_take (carry : ℕ) (sums : List ℕ) (n : ℕ) :
    (grayFrom carry sums).take n = grayFrom carry (sums.take n) := by
  induction sums generalizing carry n with
  | nil => simp [grayFrom]
  | cons sum sums ih =>
    cases n with
    | zero => simp [grayFrom]
    | succ n => simp only [grayFrom, List.take_succ_cons, ih]

@[simp] theorem length_grayFrom (carry : ℕ) (sums : List ℕ) :
    (grayFrom carry sums).length = sums.length := by
  induction sums generalizing carry with
  | nil => rfl
  | cons sum sums ih => simp [grayFrom, ih]

/-- The dimensions are 16-bit numbers, so their product leaves room in 32 bits. -/
theorem imageCapacity_lt (colorImage : PiVisionData) :
    imageCapacity colorImage + 1 < uint32Range := by
  have hword : ∀ start, colorImage.getWord start 2 ≤ 65535 := by
    intro start
    have hlt := LittleEndian.leValue_lt
      ((List.range 2).map fun i => colorImage.getElementAt (i + start))
    rw [PiVisionData.getWord, LittleEndian.orBytes_eq_leValue]
    simp only [List.length_map, List.length_range] at hlt
    omega
  -- the two dimensions are two bytes each
  have hmul := Nat.mul_le_mul (hword 0) (hword 2)
  have hcapacity : imageCapacity colorImage ≤ 65535 * 65535 := hmul
  calc imageCapacity colorImage + 1 ≤ 65535 * 65535 + 1 := by omega
    _ < uint32Range := by decide

/-- Three rounds of the loop append one pixel. -/
theorem foldl_jobStep_three (carry : ℕ) (image : PiVisionData) (r g b : UInt8)
    (rest : List UInt8) :
    (r :: g :: b :: rest).foldl jobStep ⟨0, carry, image⟩ =
      rest.foldl jobStep
        ⟨0, averageWithinLimits (carry + (r.toNat + g.toNat + b.toNat)),
          image.append [UInt8.ofNat
            (averageWithinLimits (carry + (r.toNat + g.toNat + b.toNat)))]⟩ := by
  simp [jobStep, Nat.add_assoc]

/-- A round that completes no pixel leaves the image as it is. -/
theorem foldl_jobStep_short {channels : List UInt8} (short : channels.length < 3) (carry : ℕ)
    (image : PiVisionData) :
    (channels.foldl jobStep ⟨0, carry, image⟩).grayscaleImage = image := by
  match channels with
  | [] => rfl
  | [r] => simp [jobStep]
  | [r, g] => simp [jobStep]
  | r :: g :: b :: rest => simp at short; omega

/-- **What the loop appends.** The pixels in order, as far as there is room. -/
theorem bytes_foldl_jobStep (channels : List UInt8) (carry : ℕ) (image : PiVisionData)
    (room : image.size ≤ image.capacity) (range : image.capacity + 1 < uint32Range) :
    (channels.foldl jobStep ⟨0, carry, image⟩).grayscaleImage.bytes =
      image.bytes ++
        (grayFrom carry (channelSums channels)).take (image.capacity - image.size) := by
  -- three channels at a time, as the loop completes its pixels
  fun_induction channelSums channels generalizing carry image with
  | case1 r g b rest ih =>
    rw [foldl_jobStep_three, grayFrom]
    generalize averageWithinLimits (carry + (r.toNat + g.toNat + b.toNat)) = pixel
    have hone : [UInt8.ofNat pixel].length = 1 := rfl
    by_cases hfits : image.size + [UInt8.ofNat pixel].length ≤ image.capacity
    -- there is room for the pixel, and for one less behind it
    · have hbytes := PiVisionData.bytes_append hfits (by omega)
      have hsize := PiVisionData.size_append hfits (by omega)
      rw [hone] at hfits
      obtain ⟨n, hn⟩ : ∃ n, image.capacity - image.size = n + 1 :=
        ⟨image.capacity - image.size - 1, by omega⟩
      have hleft : image.capacity - (image.size + 1) = n := by omega
      rw [ih pixel _ (by rw [hsize, PiVisionData.capacity_append]; exact hfits)
        (by rw [PiVisionData.capacity_append]; exact range)]
      rw [hbytes, hsize, PiVisionData.capacity_append, hone, hleft, hn, List.take_succ_cons,
        List.append_assoc, List.singleton_append]
    · -- no room: this append and all later ones are refused
      have hfull := PiVisionData.append_of_full (not_le.mp hfits) (by rw [hone]; omega)
      rw [hone] at hfits
      have hzero : image.capacity - image.size = 0 := by omega
      rw [hfull, ih pixel image room range, hzero, List.take_zero, List.take_zero]
  | case2 channels hshort =>
    have hlength : channels.length < 3 := by
      match channels with
      | [] | [r] | [r, g] => simp
      | r :: g :: b :: rest => exact absurd rfl (hshort r g b rest)
    rw [foldl_jobStep_short hlength, grayFrom, List.take_nil, List.append_nil]

/-- **Specification of the job.** The payload raised is the list of the gray pixels. -/
theorem bytes_execute (colorImage : PiVisionData) :
    (execute colorImage).bytes = grayFrom 0 (imageSums colorImage) := by
  -- the loop starts behind the dimensions, and not at all if even they are not there
  have hchannels : (List.range (colorImage.size - 4)).map
      (fun i => colorImage.getElementAt (4 + i)) = colorImage.bytes.drop 4 := by
    by_cases hsize : 4 ≤ colorImage.size
    · rw [PiVisionData.map_getElementAt colorImage (by omega)]
      apply List.take_of_length_le
      simp
    · have hzero : colorImage.size - 4 = 0 := by omega
      rw [hzero, List.drop_of_length_le (by simp; omega)]
      rfl
  have hrun := bytes_foldl_jobStep (colorImage.bytes.drop 4) 0
    (.new (imageCapacity colorImage)) (Nat.zero_le _) (imageCapacity_lt colorImage)
  rw [← hchannels, List.foldl_map] at hrun
  rw [execute, hrun, hchannels, PiVisionData.bytes_new, List.nil_append, grayFrom_take,
    PiVisionData.capacity_new, PiVisionData.size_new, Nat.sub_zero, imageSums]

end GrayscaleImageJob

end PiVision
