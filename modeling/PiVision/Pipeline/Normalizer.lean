import PiVision.Camera.Stream
import PiVision.Lib.Triples
import Mathlib.Data.Vector.Basic
import Mathlib.Algebra.BigOperators.Group.List.Basic
import Mathlib.Algebra.Order.BigOperators.Group.List

/-!
# The normalizer

`IMGNORMALGO_exec` makes a grayscale image of its input, byte by byte, and rescales it
in four passes. Its working memory is static: `maxIntensity` and `minIntensity` are put
back at the end of a call, while `averageIntensity`, which the first pass adds to, keeps
the average of the call before. The arithmetic of the passes is that of 32-bit words; a
division by zero has no outcome.
-/

namespace PiVision

open Triples

/-- One byte a pixel. -/
abbrev GrayscaleImage := List.Vector UInt8 grayscaleImageSize

def imageFilterHigh : UInt8 := 240

def imageFilterLow : UInt8 := 20

/-- The statics of `PiVisImageNormalizerAlgo.c`. -/
structure NormalizerState where
  grayscaleImage : GrayscaleImage
  normalizedImage : GrayscaleImage
  maxIntensity : UInt32
  minIntensity : UInt32
  averageIntensity : UInt32
  standardDeviation : UInt32

/-- The local variables of `createGrayscaleImage`. -/
structure GrayscaleLocals where
  bufIndex : ℕ
  colorIndex : ℕ
  colorIntensity : ℕ
  grayscalePixelIndex : ℕ

namespace NormalizerState

/-- The statics of a new process. -/
def init : NormalizerState where
  grayscaleImage := .replicate _ 0
  normalizedImage := .replicate _ 0
  maxIntensity := 0
  minIntensity := 255
  averageIntensity := 0
  standardDeviation := 0

/-- The local variables before the loop of `createGrayscaleImage`. -/
def locals : GrayscaleLocals := ⟨0, 0, 0, 0⟩

/-- The body of the loop of `createGrayscaleImage`, for the byte at `bufIndex`. -/
def grayscaleBody (s : GrayscaleLocals × GrayscaleImage) (byte : UInt8) :
    GrayscaleLocals × GrayscaleImage :=
  let colorIntensity := s.1.colorIntensity + byte.toNat
  let colorIndex := s.1.colorIndex + 1
  -- the last channel of a pixel: unlike the C++ job, the sum is put back to zero
  if colorIndex > 2 then
    (⟨s.1.bufIndex + 1, 0, 0, s.1.grayscalePixelIndex + 1⟩,
      Block.write s.2 s.1.grayscalePixelIndex [UInt8.ofNat (colorIntensity / 3)])
  else (⟨s.1.bufIndex + 1, colorIndex, colorIntensity, s.1.grayscalePixelIndex⟩, s.2)

/-- `createGrayscaleImage`: `grayscaleImage` after it. -/
def createGrayscaleImage (grayscaleImage : GrayscaleImage) (colorImage : ColorImage) :
    GrayscaleImage :=
  (colorImage.toList.foldl grayscaleBody (locals, grayscaleImage)).2

/-- What the first pass of `normalizeImage` stores for an intensity. -/
def filterIntensity (colorIntensity : UInt8) : UInt8 :=
  if colorIntensity > imageFilterHigh then imageFilterHigh
  else if colorIntensity < imageFilterLow then imageFilterLow
  else colorIntensity

/-- A division of the source. -/
def divide (a b : UInt32) : Option UInt32 := if b = 0 then none else some (a / b)

/-- The sum of the first pass, which starts from what `averageIntensity` holds, divided
by the number of pixels. -/
def average (averageIntensity : UInt32) (filtered : GrayscaleImage) : UInt32 :=
  filtered.toList.foldl (fun sum c => sum + c.toUInt32) averageIntensity /
    UInt32.ofNat grayscaleImageSize

/-- The second pass. -/
def deviation (averageIntensity : UInt32) (filtered grayscaleImage : GrayscaleImage) : UInt32 :=
  let products := List.zipWith
    (fun f g => (f.toUInt32 - averageIntensity) * (g.toUInt32 - averageIntensity))
    filtered.toList grayscaleImage.toList
  let imageVariance := products.foldl (· + ·) 0 / UInt32.ofNat grayscaleImageSize
  UInt32.ofNat imageVariance.toNat.sqrt

/-- What the third pass stores for an intensity. -/
def scaleIntensity (averageIntensity standardDeviation : UInt32) (c : UInt8) : Option UInt8 :=
  if c.toUInt32 > averageIntensity then
    (divide (c.toUInt32 - averageIntensity) standardDeviation).map UInt32.toUInt8
  else some c

/-- What the fourth pass stores for an intensity. -/
def stretchIntensity (minIntensity normalizingFactor : UInt32) (c : UInt8) : UInt8 :=
  if c.toUInt32 > minIntensity then ((c.toUInt32 - minIntensity) * normalizingFactor).toUInt8
  else c

/-- The passes behind the first one, with its average. -/
def normalizeWith (grayscaleImage : GrayscaleImage)
    (maxIntensity minIntensity averageIntensity : UInt32) : Option NormalizerState := do
  let filtered := grayscaleImage.map filterIntensity
  let standardDeviation := deviation averageIntensity filtered grayscaleImage
  let scaled ← filtered.mmap (scaleIntensity averageIntensity standardDeviation)
  -- the extremes are taken over from before the pass, not from its first pixel
  let maxIntensity := scaled.toList.foldl
    (fun max c => if c.toUInt32 > max then c.toUInt32 else max) maxIntensity
  let minIntensity := scaled.toList.foldl
    (fun min c => if c.toUInt32 < min then c.toUInt32 else min) minIntensity
  let normalizingFactor ← divide 255 (maxIntensity - minIntensity)
  let normalizedImage := scaled.map (stretchIntensity minIntensity normalizingFactor)
  return ⟨grayscaleImage, normalizedImage, maxIntensity, minIntensity, averageIntensity,
    standardDeviation⟩

/-- `normalizeImage`. -/
def normalizeImage (s : NormalizerState) : Option NormalizerState :=
  normalizeWith s.grayscaleImage s.maxIntensity s.minIntensity
    (average s.averageIntensity (s.grayscaleImage.map filterIntensity))

/-- What `IMGNORMALGO_exec` does behind `normalizeImage`, apart from its context. -/
def resetExtremes (s : NormalizerState) : NormalizerState :=
  { s with maxIntensity := 0, minIntensity := 255 }

/-- `IMGNORMALGO_exec`: the statics after a call. Its output is `normalizedImage`. -/
def exec (s : NormalizerState) (inputData : ColorImage) : Option NormalizerState :=
  (normalizeImage { s with
    grayscaleImage := createGrayscaleImage s.grayscaleImage inputData }).map resetExtremes

/-- The output for a frame, from a process whose `averageIntensity` is the given one. -/
def outputOf (averageIntensity : UInt32) (frame : ColorImage) : Option GrayscaleImage :=
  (exec { init with averageIntensity := averageIntensity } frame).map normalizedImage

/-! ## The grayscale image is that of the input -/

/-- Every round of the loop of `createGrayscaleImage` reads the next byte. -/
theorem bufIndex_foldl (bytes : List UInt8) (s : GrayscaleLocals × GrayscaleImage) :
    (bytes.foldl grayscaleBody s).1.bufIndex = s.1.bufIndex + bytes.length := by
  induction bytes generalizing s with
  | nil => rfl
  | cons byte bytes ih =>
    have hnext : (grayscaleBody s byte).1.bufIndex = s.1.bufIndex + 1 := by
      by_cases hlast : s.1.colorIndex + 1 > 2
      · simp only [grayscaleBody, hlast, if_true]
      · simp only [grayscaleBody, hlast, if_false]
    rw [List.foldl_cons, ih, hnext, List.length_cons]
    omega

/-- The pixel that three channels make. -/
def grayPixel (channels : UInt8 × UInt8 × UInt8) : UInt8 :=
  UInt8.ofNat ((channels.1.toNat + channels.2.1.toNat + channels.2.2.toNat) / 3)

/-- The average of three channels is that of a byte. -/
theorem toNat_grayPixel (channels : UInt8 × UInt8 × UInt8) :
    (grayPixel channels).toNat =
      (channels.1.toNat + channels.2.1.toNat + channels.2.2.toNat) / 3 := by
  have hfirst := channels.1.toNat_lt
  have hsecond := channels.2.1.toNat_lt
  have hthird := channels.2.2.toNat_lt
  rw [grayPixel, UInt8.toNat_ofNat']
  exact Nat.mod_eq_of_lt (by omega)

/-- Three rounds of the loop that begin with the accumulators at zero write a pixel, and
put them back. -/
theorem grayscaleBody_three (bufIndex pixel : ℕ) (image : GrayscaleImage) (r g b : UInt8) :
    grayscaleBody (grayscaleBody (grayscaleBody (⟨bufIndex, 0, 0, pixel⟩, image) r) g) b =
      (⟨bufIndex + 3, 0, 0, pixel + 1⟩, Block.write image pixel [grayPixel (r, g, b)]) := by
  simp [grayscaleBody, grayPixel]

/-- **The grayscale image.** A pixel is the average of the three channels at its place. -/
theorem toList_createGrayscaleImage (image : GrayscaleImage) (frame : ColorImage) :
    (createGrayscaleImage image frame).toList = (triples frame.toList).map grayPixel := by
  have hsize : colorImageSize = 3 * grayscaleImageSize := by decide
  have hlength := frame.toList_length
  have hthree (s : GrayscaleLocals × GrayscaleImage) (t : UInt8 × UInt8 × UInt8)
      (ready : s.1.colorIndex = 0 ∧ s.1.colorIntensity = 0) :
      grayscaleBody (grayscaleBody (grayscaleBody s t.1) t.2.1) t.2.2 =
        (⟨s.1.bufIndex + 3, 0, 0, s.1.grayscalePixelIndex + 1⟩,
          Block.write s.2 s.1.grayscalePixelIndex [grayPixel t]) := by
    obtain ⟨⟨bufIndex, colorIndex, colorIntensity, pixel⟩, written⟩ := s
    obtain ⟨rfl, rfl⟩ := ready
    exact grayscaleBody_three bufIndex pixel written t.1 t.2.1 t.2.2
  rw [createGrayscaleImage, foldl_triples grayscaleBody _ (by rw [hlength, hsize]; omega)]
  refine toList_foldl_write (fun s => s.1.colorIndex = 0 ∧ s.1.colorIntensity = 0)
    (fun s => s.1.grayscalePixelIndex) Prod.snd grayPixel (fun s t ready => ?_)
    (fun s t ready => ?_) (fun s t ready => ?_) ⟨rfl, rfl⟩ rfl ?_
  · rw [hthree s t ready]
    exact ⟨rfl, rfl⟩
  · rw [hthree s t ready]
  · rw [hthree s t ready]
  · rw [length_triples, hlength, hsize, Nat.mul_div_cancel_left _ (by decide)]

/-- The grayscale image does not depend on the one before. -/
theorem createGrayscaleImage_congr (frame : ColorImage) (image image' : GrayscaleImage) :
    createGrayscaleImage image frame = createGrayscaleImage image' frame := by
  apply List.Vector.eq
  rw [toList_createGrayscaleImage, toList_createGrayscaleImage]

/-! ## The average -/

/-- The sum of the intensities that the first pass stores for a frame. -/
def brightness (frame : ColorImage) : ℕ :=
  (((createGrayscaleImage init.grayscaleImage frame).map filterIntensity).toList.map
    UInt8.toNat).sum

/-- The sum of the first pass, as a number. -/
theorem toNat_foldl_add (cs : List UInt8) (start : UInt32) :
    (cs.foldl (fun sum c => sum + c.toUInt32) start).toNat =
      (start.toNat + (cs.map UInt8.toNat).sum) % 2 ^ 32 := by
  induction cs generalizing start with
  | nil =>
    have hlt := start.toNat_lt
    simp only [List.foldl_nil, List.map_nil, List.sum_nil, Nat.add_zero]
    exact (Nat.mod_eq_of_lt hlt).symm
  | cons c cs ih =>
    rw [List.foldl_cons, ih, UInt32.toNat_add, UInt8.toNat_toUInt32, List.map_cons, List.sum_cons]
    omega

theorem sum_toNat_le (cs : List UInt8) : (cs.map UInt8.toNat).sum ≤ 255 * cs.length := by
  induction cs with
  | nil => simp
  | cons c cs ih =>
    have hc := c.toNat_lt
    rw [List.map_cons, List.sum_cons, List.length_cons]
    omega

/-- What is left in `averageIntensity` is too little to change the next average. -/
def LeavesAverage (averageIntensity : UInt32) (frame : ColorImage) : Prop :=
  averageIntensity.toNat + brightness frame % grayscaleImageSize < grayscaleImageSize

theorem average_of_leavesAverage {averageIntensity : UInt32} {frame : ColorImage}
    (leaves : LeavesAverage averageIntensity frame) :
    average averageIntensity
        ((createGrayscaleImage init.grayscaleImage frame).map filterIntensity) =
      average 0 ((createGrayscaleImage init.grayscaleImage frame).map filterIntensity) := by
  have hsum := sum_toNat_le
    ((createGrayscaleImage init.grayscaleImage frame).map filterIntensity).toList
  rw [List.Vector.toList_length] at hsum
  have hsize : grayscaleImageSize = 307200 := by decide
  unfold LeavesAverage brightness at leaves
  apply UInt32.toNat_inj.mp
  rw [average, average, UInt32.toNat_div, UInt32.toNat_div, toNat_foldl_add, toNat_foldl_add,
    UInt32.toNat_ofNat', UInt32.toNat_zero]
  generalize (List.map UInt8.toNat _).sum = total at leaves hsum ⊢
  generalize grayscaleImageSize = size at leaves hsum hsize ⊢
  subst hsize
  have hdiv := Nat.div_add_mod total 307200
  -- no sum comes near the range of a word, so both quotients are those of numbers
  rw [Nat.zero_add, Nat.mod_eq_of_lt (show 307200 < 2 ^ 32 by omega),
    Nat.mod_eq_of_lt (show total < 2 ^ 32 by omega),
    Nat.mod_eq_of_lt (show averageIntensity.toNat + total < 2 ^ 32 by omega)]
  omega

/-- **Two frames apart.** A frame whose average is left alone is treated as the first
frame of a process. -/
theorem outputOf_eq {averageIntensity : UInt32} {frame : ColorImage}
    (leaves : LeavesAverage averageIntensity frame) :
    outputOf averageIntensity frame = outputOf 0 frame := by
  have haverage := average_of_leavesAverage leaves
  unfold init at haverage
  simp only [outputOf, exec, normalizeImage, init, haverage]

/-- The output of a call is that of the frame and of what `averageIntensity` holds. -/
theorem normalizeImage_outputOf {s : NormalizerState} {frame : ColorImage}
    {image : GrayscaleImage} (gray : s.grayscaleImage = createGrayscaleImage image frame)
    (hmax : s.maxIntensity = 0) (hmin : s.minIntensity = 255) :
    (normalizeImage s).map normalizedImage = outputOf s.averageIntensity frame := by
  rw [createGrayscaleImage_congr frame image init.grayscaleImage] at gray
  rw [outputOf, exec, Option.map_map]
  simp only [normalizeImage, gray, hmax, hmin]
  rfl

end NormalizerState

end PiVision
