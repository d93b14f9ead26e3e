import PiVision.EthTerm.Connection
import PiVision.Grayscale.Job
import PiVision.Lib.Triples

/-!
# The gray payload

The gray payload has a byte for each whole pixel that the payload holds and that the
declared dimensions leave room for, whatever these say. Its bytes are the averages of the
channels only where the value carried over into a sum does not change its average.
-/

namespace PiVision

open LittleEndian Triples

/-- The events that the job raises. -/
inductive JobEvent
  | bwImageServiceTx (connType : ConnectionType) (data : PiVisionData)
  | grayscaleJobCompleteInd
  deriving DecidableEq

namespace GrayscaleImageJob

/-- The locals after some rounds of the pixel loop. -/
def stateAfter (colorImage : PiVisionData) (rounds : ℕ) : JobState :=
  (List.range rounds).foldl (fun s i => jobStep s (colorImage.getElementAt (4 + i)))
    ⟨0, 0, .new (imageCapacity colorImage)⟩

/-- `Execute`: the events raised behind the loop, in order. -/
def raisedEvents (colorImage : PiVisionData) : List JobEvent :=
  [.bwImageServiceTx .server (stateAfter colorImage (colorImage.size - 4)).grayscaleImage,
    .grayscaleJobCompleteInd]

theorem raisedEvents_eq (colorImage : PiVisionData) :
    raisedEvents colorImage =
      [.bwImageServiceTx .server (execute colorImage), .grayscaleJobCompleteInd] := rfl

/-! ## The intended bytes -/

/-- The number of pixels that the first four bytes of a payload declare. -/
def declaredSize (p : List UInt8) : ℕ := leValue (p.take 2) * leValue ((p.drop 2).take 2)

/-- The number of whole pixels of a payload that are declared. -/
def pixelCount (p : List UInt8) : ℕ := min (declaredSize p) ((p.length - 4) / 3)

/-- The sum of the channels of a pixel. -/
def channelSum (p : List UInt8) (i : ℕ) : ℕ :=
  (p.getD (4 + 3 * i) 0).toNat + (p.getD (5 + 3 * i) 0).toNat + (p.getD (6 + 3 * i) 0).toNat

/-- The average of the channels of a pixel, between the limits. -/
def grayIntensity (p : List UInt8) (i : ℕ) : ℕ := max 1 (min 254 (channelSum p i / 3))

/-! ## The room of the image -/

theorem imageCapacity_eq (colorImage : PiVisionData) :
    imageCapacity colorImage = declaredSize colorImage.bytes := by
  rw [imageCapacity, extractImageProperties, PiVisionData.getWord_eq, PiVisionData.getWord_eq,
    List.drop_zero]
  rfl

/-- An append writes inside the capacity or nothing, if one byte more is in the range of
the size. -/
theorem length_buf_append_le {d : PiVisionData} (inside : d.buf.length ≤ d.capacity)
    (range : d.capacity + 1 < uint32Range) (byte : UInt8) :
    (d.append [byte]).buf.length ≤ d.capacity := by
  have hsize := d.size_le
  have hone : [byte].length = 1 := rfl
  by_cases hfits : (d.size + [byte].length) % uint32Range ≤ d.capacity
  · have hmod : (d.size + [byte].length) % uint32Range = d.size + 1 := Nat.mod_eq_of_lt (by omega)
    rw [PiVisionData.append, if_pos hfits]
    simp only [List.length_append, List.length_take, List.length_drop, hone]
    omega
  · rw [PiVisionData.append, if_neg hfits]
    exact inside

/-- The image stays inside its capacity. -/
def JobState.Inside (s : JobState) (capacity : ℕ) : Prop :=
  s.grayscaleImage.capacity = capacity ∧ s.grayscaleImage.buf.length ≤ capacity

theorem jobStep_inside {s : JobState} {capacity : ℕ} (range : capacity + 1 < uint32Range)
    (inside : s.Inside capacity) (channel : UInt8) : (jobStep s channel).Inside capacity := by
  obtain ⟨rfl, hlength⟩ := inside
  by_cases hpixel : 2 < s.colorIndex + 1
  · simp only [jobStep, hpixel, if_true, JobState.Inside, PiVisionData.capacity_append, true_and]
    exact length_buf_append_le hlength range _
  · simp only [jobStep, hpixel, if_false]
    exact ⟨rfl, hlength⟩

theorem stateAfter_inside (colorImage : PiVisionData) (rounds : ℕ) :
    (stateAfter colorImage rounds).Inside (declaredSize colorImage.bytes) := by
  have hrange := imageCapacity_lt colorImage
  rw [stateAfter, imageCapacity_eq] at *
  induction rounds with
  | zero => exact ⟨rfl, Nat.zero_le _⟩
  | succ rounds ih =>
    rw [List.range_succ, List.foldl_append]
    exact jobStep_inside hrange ih _

/-! ## The bytes of the image -/

theorem channelSums_eq_map (channels : List UInt8) :
    channelSums channels =
      (triples channels).map fun t => t.1.toNat + t.2.1.toNat + t.2.2.toNat := by
  fun_induction triples channels with
  | case1 r g b rest ih => rw [channelSums, ih, List.map_cons]
  | case2 channels short =>
    have hlength := length_lt_three short
    rcases channels with _ | ⟨r, _ | ⟨g, _ | ⟨b, rest⟩⟩⟩
    · rfl
    · rfl
    · rfl
    · simp only [List.length_cons] at hlength
      omega

theorem length_imageSums (colorImage : PiVisionData) :
    (imageSums colorImage).length = pixelCount colorImage.bytes := by
  rw [imageSums, channelSums_eq_map, List.length_take, List.length_map, length_triples,
    List.length_drop, imageCapacity_eq, pixelCount]

theorem getD_imageSums (colorImage : PiVisionData) {i : ℕ}
    (inside : i < pixelCount colorImage.bytes) :
    (imageSums colorImage).getD i 0 = channelSum colorImage.bytes i := by
  have hcapacity : i < imageCapacity colorImage := by
    rw [imageCapacity_eq]
    exact Nat.lt_of_lt_of_le inside (Nat.min_le_left _ _)
  have hlength : i < (colorImage.bytes.length - 4) / 3 :=
    Nat.lt_of_lt_of_le inside (Nat.min_le_right _ _)
  have hinside : 3 * i + 2 < (colorImage.bytes.drop 4).length := by
    rw [List.length_drop]
    omega
  have hsecond : 4 + (3 * i + 1) = 5 + 3 * i := by omega
  have hthird : 4 + (3 * i + 2) = 6 + 3 * i := by omega
  rw [List.getD_eq_getElem?_getD, imageSums, channelSums_eq_map,
    List.getElem?_take_of_lt hcapacity, List.getElem?_map, getElem_triples _ hinside]
  simp only [Option.map_some, Option.getD_some, List.getElem_drop, hsecond, hthird]
  rw [channelSum, List.getD_eq_getElem _ _ (by omega), List.getD_eq_getElem _ _ (by omega),
    List.getD_eq_getElem _ _ (by omega)]

theorem toNat_ofNat_average (colorIntensity : ℕ) :
    (UInt8.ofNat (averageWithinLimits colorIntensity)).toNat =
      averageWithinLimits colorIntensity := by
  have hmem := averageWithinLimits_mem colorIntensity
  rw [UInt8.toNat_ofNat']
  exact Nat.mod_eq_of_lt (by omega)

theorem getD_grayFrom_zero (carry : ℕ) {sums : List ℕ} (nonempty : 0 < sums.length) :
    ((grayFrom carry sums).getD 0 0).toNat = averageWithinLimits (carry + sums.getD 0 0) := by
  cases sums with
  | nil => exact absurd nonempty (Nat.lt_irrefl 0)
  | cons sum sums => exact toNat_ofNat_average (carry + sum)

/-- A byte of the image enters the sum of the next one. -/
theorem getD_grayFrom_succ (carry : ℕ) {sums : List ℕ} {i : ℕ} (inside : i + 1 < sums.length) :
    ((grayFrom carry sums).getD (i + 1) 0).toNat =
      averageWithinLimits (((grayFrom carry sums).getD i 0).toNat + sums.getD (i + 1) 0) := by
  induction sums generalizing carry i with
  | nil => exact absurd inside (Nat.not_lt_zero _)
  | cons sum sums ih =>
    rw [List.length_cons] at inside
    rw [grayFrom, List.getD_cons_succ, List.getD_cons_succ]
    cases i with
    | zero =>
      rw [List.getD_cons_zero, toNat_ofNat_average]
      exact getD_grayFrom_zero _ (by omega)
    | succ i =>
      rw [List.getD_cons_succ]
      exact ih _ (by omega)

/-- An intensity carried over does not change the average of a sum. -/
theorem average_add_eq_iff {carry sum : ℕ} (carries : 1 ≤ carry) (bounded : carry ≤ 254) :
    averageWithinLimits (carry + sum) = max 1 (min 254 (sum / 3)) ↔
      carry + sum % 3 < 3 ∨ carry + sum ≤ 5 ∨ 762 ≤ sum := by
  rw [averageWithinLimits_eq]
  omega

theorem size_execute (colorImage : PiVisionData) :
    (execute colorImage).size = pixelCount colorImage.bytes := by
  rw [← PiVisionData.length_bytes, bytes_execute, length_grayFrom, length_imageSums]

theorem getD_execute_zero (colorImage : PiVisionData) (inside : 0 < pixelCount colorImage.bytes) :
    ((execute colorImage).bytes.getD 0 0).toNat = grayIntensity colorImage.bytes 0 := by
  have hlength := length_imageSums colorImage
  rw [bytes_execute, getD_grayFrom_zero 0 (by omega), getD_imageSums colorImage inside,
    Nat.zero_add, averageWithinLimits_eq, grayIntensity]

/-- Every byte behind the first one is the average of the byte before it and its pixel. -/
theorem getD_execute_succ (colorImage : PiVisionData) {i : ℕ}
    (inside : i + 1 < pixelCount colorImage.bytes) :
    ((execute colorImage).bytes.getD (i + 1) 0).toNat =
      averageWithinLimits (((execute colorImage).bytes.getD i 0).toNat +
        channelSum colorImage.bytes (i + 1)) := by
  have hlength := length_imageSums colorImage
  rw [bytes_execute, getD_grayFrom_succ 0 (by omega), getD_imageSums colorImage inside]

theorem grayIntensity_mem (bytes : List UInt8) (i : ℕ) :
    1 ≤ grayIntensity bytes i ∧ grayIntensity bytes i ≤ 254 := by
  rw [grayIntensity]
  omega

/-- **The gray payload.** Its length, its room and the events are as intended for every
payload; its bytes are if and only if no average changes the next one. -/
theorem execute_eq_intended_iff (colorImage : PiVisionData) :
    ((execute colorImage).size = pixelCount colorImage.bytes ∧
      (∀ rounds, (stateAfter colorImage rounds).Inside (declaredSize colorImage.bytes)) ∧
      raisedEvents colorImage =
        [.bwImageServiceTx .server (execute colorImage), .grayscaleJobCompleteInd]) ∧
    ((∀ i < pixelCount colorImage.bytes,
        ((execute colorImage).bytes.getD i 0).toNat = grayIntensity colorImage.bytes i) ↔
      ∀ i, i + 1 < pixelCount colorImage.bytes →
        grayIntensity colorImage.bytes i + channelSum colorImage.bytes (i + 1) % 3 < 3 ∨
          grayIntensity colorImage.bytes i + channelSum colorImage.bytes (i + 1) ≤ 5 ∨
          762 ≤ channelSum colorImage.bytes (i + 1)) := by
  refine ⟨⟨size_execute colorImage, stateAfter_inside colorImage, raisedEvents_eq colorImage⟩, ?_⟩
  constructor
  · intro hall i hi
    obtain ⟨hcarries, hbounded⟩ := grayIntensity_mem colorImage.bytes i
    have hsame := getD_execute_succ colorImage hi
    rw [hall i (by omega), hall (i + 1) hi] at hsame
    exact (average_add_eq_iff hcarries hbounded).mp hsame.symm
  -- by induction on the place: each byte is carried into the next one
  · intro hsettled i
    induction i with
    | zero => exact getD_execute_zero colorImage
    | succ i ih =>
      intro hi
      obtain ⟨hcarries, hbounded⟩ := grayIntensity_mem colorImage.bytes i
      rw [getD_execute_succ colorImage hi, ih (by omega)]
      exact (average_add_eq_iff hcarries hbounded).mpr (hsettled i hi)

/-- Of two pixels of intensity ten the first carries over into the second, which becomes
thirteen. -/
theorem execute_not_intended :
    ¬∀ i < pixelCount [2, 0, 1, 0, 10, 10, 10, 10, 10, 10],
      ((execute (.ofBytes [2, 0, 1, 0, 10, 10, 10, 10, 10, 10])).bytes.getD i 0).toNat =
        grayIntensity [2, 0, 1, 0, 10, 10, 10, 10, 10, 10] i := by
  decide

end GrayscaleImageJob

end PiVision
