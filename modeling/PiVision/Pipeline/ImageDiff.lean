import PiVision.Pipeline.Normalizer
import PiVision.Lib.Run

/-!
# Change detection

`IMGDIFFALGO_exec` compares its input with the input of the call before. Its loop runs over
the bytes of both; with every third byte it writes a pixel, white where the channels have
changed by more than a threshold and gray elsewhere, and puts its accumulators back. The
first call has nothing to compare with and writes nothing.
-/

namespace PiVision

open Machine Triples

/-- The statics of `PiVisImageDiffAlgo.c`. -/
structure ImageDiffState where
  receivedFirstImage : Bool
  prevBuffer : ColorImage
  imageToSend : GrayscaleImage

/-- The local variables of `IMGDIFFALGO_exec`. -/
structure DiffLocals where
  bufIndex : ℕ
  colorIndex : ℕ
  diff : ℕ
  numDiffs : ℕ
  toSendPixelIndex : ℕ
  colorIntensity : ℕ

/-- A channel of a pixel. -/
def channel (frame : ColorImage) (i : Fin grayscaleImageSize) (k : Fin 3) : UInt8 :=
  frame.get ⟨3 * i + k, by
    have hsize : colorImageSize = 3 * grayscaleImageSize := by decide
    omega⟩

namespace ImageDiffState

/-- The statics of a new process. -/
def init : ImageDiffState := ⟨false, .replicate _ 0, .replicate _ 0⟩

/-- The local variables before the loop. -/
def locals : DiffLocals := ⟨0, 0, 0, 0, 0, 0⟩

/-- `abs` of the difference of two bytes. -/
def absDiff (prev input : UInt8) : ℕ := Int.natAbs (prev.toNat - input.toNat)

/-- The body of the loop, for the bytes of both images at `bufIndex`. -/
def diffBody (s : DiffLocals × GrayscaleImage) (bytes : UInt8 × UInt8) :
    DiffLocals × GrayscaleImage :=
  let diff := s.1.diff + absDiff bytes.1 bytes.2
  let colorIndex := s.1.colorIndex + 1
  let colorIntensity := s.1.colorIntensity + bytes.2.toNat
  if colorIndex > 2 then
    -- the changes are counted, and the count is not used
    if diff > 100 then
      (⟨s.1.bufIndex + 1, 0, 0, s.1.numDiffs + 1, s.1.toSendPixelIndex + 1, 0⟩,
        Block.write s.2 s.1.toSendPixelIndex [255])
    else
      (⟨s.1.bufIndex + 1, 0, 0, s.1.numDiffs, s.1.toSendPixelIndex + 1, 0⟩,
        Block.write s.2 s.1.toSendPixelIndex [UInt8.ofNat (colorIntensity / 3)])
  else
    (⟨s.1.bufIndex + 1, colorIndex, diff, s.1.numDiffs, s.1.toSendPixelIndex, colorIntensity⟩,
      s.2)

/-- `IMGDIFFALGO_exec`: the statics after a call. Its output is `imageToSend`. -/
def exec (s : ImageDiffState) (inputData : ColorImage) : ImageDiffState where
  receivedFirstImage := true
  prevBuffer := inputData
  imageToSend :=
    if s.receivedFirstImage then
      ((s.prevBuffer.toList.zip inputData.toList).foldl diffBody (locals, s.imageToSend)).2
    else s.imageToSend

/-! ## The pixels -/

/-- By how much the channels of a pixel have changed. -/
def pixelDiff (prev cur : UInt8 × UInt8 × UInt8) : ℕ :=
  absDiff prev.1 cur.1 + absDiff prev.2.1 cur.2.1 + absDiff prev.2.2 cur.2.2

/-- What is written for a pixel. -/
def diffPixel (prev cur : UInt8 × UInt8 × UInt8) : UInt8 :=
  if pixelDiff prev cur > 100 then 255 else NormalizerState.grayPixel cur

@[simp] theorem absDiff_self (byte : UInt8) : absDiff byte byte = 0 := by simp [absDiff]

/-- A pixel that has not changed is gray. -/
theorem diffPixel_self (cur : UInt8 × UInt8 × UInt8) :
    diffPixel cur cur = NormalizerState.grayPixel cur := by
  simp [diffPixel, pixelDiff]

/-- The group of pairs of channels, as two groups. -/
def unzipPixel (t : (UInt8 × UInt8) × (UInt8 × UInt8) × UInt8 × UInt8) :
    (UInt8 × UInt8 × UInt8) × (UInt8 × UInt8 × UInt8) :=
  ((t.1.1, t.2.1.1, t.2.2.1), (t.1.2, t.2.1.2, t.2.2.2))

/-- Three rounds of the loop that begin with the accumulators at zero write a pixel, and
put them back. -/
theorem diffBody_three {s : DiffLocals × GrayscaleImage}
    (ready : s.1.colorIndex = 0 ∧ s.1.diff = 0 ∧ s.1.colorIntensity = 0)
    (t : (UInt8 × UInt8) × (UInt8 × UInt8) × UInt8 × UInt8) :
    ∃ numDiffs, diffBody (diffBody (diffBody s t.1) t.2.1) t.2.2 =
      (⟨s.1.bufIndex + 3, 0, 0, numDiffs, s.1.toSendPixelIndex + 1, 0⟩,
        Block.write s.2 s.1.toSendPixelIndex
          [diffPixel (unzipPixel t).1 (unzipPixel t).2]) := by
  obtain ⟨⟨bufIndex, colorIndex, diff, numDiffs, pixel, colorIntensity⟩, image⟩ := s
  obtain ⟨rfl, rfl, rfl⟩ := ready
  obtain ⟨⟨p₁, c₁⟩, ⟨p₂, c₂⟩, ⟨p₃, c₃⟩⟩ := t
  by_cases hchanged : absDiff p₁ c₁ + absDiff p₂ c₂ + absDiff p₃ c₃ > 100
  · refine ⟨numDiffs + 1, ?_⟩
    simp [diffBody, diffPixel, pixelDiff, unzipPixel, hchanged]
  · refine ⟨numDiffs, ?_⟩
    simp [diffBody, diffPixel, pixelDiff, unzipPixel, hchanged, NormalizerState.grayPixel]

/-- **The image of a call** behind the first one. -/
theorem toList_imageToSend_exec {s : ImageDiffState} (received : s.receivedFirstImage = true)
    (inputData : ColorImage) :
    (s.exec inputData).imageToSend.toList =
      (triples (s.prevBuffer.toList.zip inputData.toList)).map fun t =>
        diffPixel (unzipPixel t).1 (unzipPixel t).2 := by
  have hsize : colorImageSize = 3 * grayscaleImageSize := by decide
  have hlength : (s.prevBuffer.toList.zip inputData.toList).length = colorImageSize := by
    rw [List.length_zip, s.prevBuffer.toList_length, inputData.toList_length, Nat.min_self]
  rw [exec, if_pos received, foldl_triples diffBody _ (by rw [hlength, hsize]; omega)]
  refine toList_foldl_write
    (fun s => s.1.colorIndex = 0 ∧ s.1.diff = 0 ∧ s.1.colorIntensity = 0)
    (fun s => s.1.toSendPixelIndex) Prod.snd
    (fun t => diffPixel (unzipPixel t).1 (unzipPixel t).2)
    (fun s t ready => ?_) (fun s t ready => ?_) (fun s t ready => ?_) ⟨rfl, rfl, rfl⟩ rfl ?_
  · obtain ⟨numDiffs, hthree⟩ := diffBody_three ready t
    rw [hthree]
    exact ⟨rfl, rfl, rfl⟩
  · obtain ⟨numDiffs, hthree⟩ := diffBody_three ready t
    rw [hthree]
  · obtain ⟨numDiffs, hthree⟩ := diffBody_three ready t
    rw [hthree]
  · rw [length_triples, hlength, hsize, Nat.mul_div_cancel_left _ (by decide)]

/-! ## The last two frames -/

/-- By how much a pixel differs between two frames. -/
def difference (prev last : ColorImage) (i : Fin grayscaleImageSize) : ℕ :=
  absDiff (channel prev i 0) (channel last i 0) + absDiff (channel prev i 1) (channel last i 1) +
    absDiff (channel prev i 2) (channel last i 2)

/-- The sum of the channels of a pixel. -/
def intensity (frame : ColorImage) (i : Fin grayscaleImageSize) : ℕ :=
  (channel frame i 0).toNat + (channel frame i 1).toNat + (channel frame i 2).toNat

/-- Every call keeps its frame for the next one. -/
theorem run_concat (s : ImageDiffState) (frames : List ColorImage) (prev : ColorImage) :
    (run exec s (frames ++ [prev])).receivedFirstImage = true ∧
      (run exec s (frames ++ [prev])).prevBuffer = prev := by
  rw [run_append]
  exact ⟨rfl, rfl⟩

/-- The image behind a run is that of its last two frames. -/
theorem toList_imageToSend_run (frames : List ColorImage) (prev last : ColorImage) :
    (run exec init (frames ++ [prev, last])).imageToSend.toList =
      (triples (prev.toList.zip last.toList)).map fun t =>
        diffPixel (unzipPixel t).1 (unzipPixel t).2 := by
  obtain ⟨hreceived, hprev⟩ := run_concat init frames prev
  have hsplit : frames ++ [prev, last] = (frames ++ [prev]) ++ [last] := by simp
  have hlast := toList_imageToSend_exec hreceived last
  rw [hprev] at hlast
  rw [hsplit, run_append]
  exact hlast

/-- The group at a place of two frames. -/
theorem getElem_triples_zip (prev last : ColorImage) (i : Fin grayscaleImageSize) :
    (triples (prev.toList.zip last.toList))[(i : ℕ)]? =
      some ((channel prev i 0, channel last i 0), (channel prev i 1, channel last i 1),
        (channel prev i 2, channel last i 2)) := by
  have hsize : colorImageSize = 3 * grayscaleImageSize := by decide
  have hprev := prev.toList_length
  have hlast := last.toList_length
  have hinside : 3 * (i : ℕ) + 2 < (prev.toList.zip last.toList).length := by
    rw [List.length_zip, hprev, hlast]
    omega
  rw [getElem_triples _ hinside, List.getElem_zip, List.getElem_zip, List.getElem_zip]
  simp only [channel, List.Vector.get_eq_get_toList, List.get_eq_getElem, Fin.val_cast]
  rfl

/-- The pixel behind a run, at its place. -/
theorem get_imageToSend_run (frames : List ColorImage) (prev last : ColorImage)
    (i : Fin grayscaleImageSize) :
    (run exec init (frames ++ [prev, last])).imageToSend.get i =
      diffPixel (channel prev i 0, channel prev i 1, channel prev i 2)
        (channel last i 0, channel last i 1, channel last i 2) := by
  have hpixel : (run exec init (frames ++ [prev, last])).imageToSend.toList[(i : ℕ)]? =
      some (diffPixel (channel prev i 0, channel prev i 1, channel prev i 2)
        (channel last i 0, channel last i 1, channel last i 2)) := by
    rw [toList_imageToSend_run, List.getElem?_map, getElem_triples_zip]
    rfl
  rw [List.Vector.get_eq_get_toList, List.get_eq_getElem]
  exact (List.getElem?_eq_some_iff.mp hpixel).2

/-- A frame that has not changed is shown as the grayscale image of it. -/
theorem imageToSend_run_self (frames : List ColorImage) (frame : ColorImage)
    (image : GrayscaleImage) :
    (run exec init (frames ++ [frame, frame])).imageToSend =
      NormalizerState.createGrayscaleImage image frame := by
  apply List.Vector.eq
  have hzip : frame.toList.zip frame.toList = frame.toList.map fun byte => (byte, byte) := by
    rw [List.zip, List.zipWith_self]
  rw [toList_imageToSend_run, hzip, triples_map, List.map_map,
    NormalizerState.toList_createGrayscaleImage]
  apply List.map_congr_left
  intro t _
  exact diffPixel_self t

/-- **Change detection** depends on the last two frames alone, and shows a frame that has
not changed as the grayscale image of it. -/
theorem imageToSend_eq (frames : List ColorImage) (prev last : ColorImage) :
    (∀ i, ((run exec init (frames ++ [prev, last])).imageToSend.get i).toNat =
        if 100 < difference prev last i then 255 else intensity last i / 3) ∧
      (prev = last → ∀ image, (run exec init (frames ++ [prev, last])).imageToSend =
        NormalizerState.createGrayscaleImage image last) := by
  refine ⟨fun i => ?_, ?_⟩
  · rw [get_imageToSend_run, diffPixel]
    by_cases hchanged : 100 < difference prev last i
    · rw [if_pos hchanged]
      exact congrArg UInt8.toNat (if_pos hchanged)
    · rw [if_neg hchanged]
      exact (congrArg UInt8.toNat (if_neg hchanged)).trans (NormalizerState.toNat_grayPixel _)
  · rintro rfl image
    exact imageToSend_run_self frames prev image

end ImageDiffState

end PiVision
