import PiVision.Lib.Decimal
import PiVision.Lib.Triples

/-!
# Portable pixmaps

The binary form of the format: `P6`, the width, the height and the maximum value in decimal,
each behind white space, one more character of white space, and the pixels, three bytes each.
Nothing stands between these parts or behind them. Comments, and samples of two bytes, are
left out.
-/

namespace Pixmap

open Decimal Triples

abbrev Pixel := UInt8 × UInt8 × UInt8

structure Image where
  width : ℕ
  height : ℕ
  maximum : ℕ
  pixels : List Pixel
  count : pixels.length = width * height
  deriving DecidableEq, Repr

/-- `P6`. -/
def magic : List UInt8 := [80, 54]

/-- The header as it is mostly written: blanks in front of the numbers, a line end behind them. -/
def header (width height maximum : ℕ) : List UInt8 :=
  magic ++ 32 :: (decimal width ++ 32 :: (decimal height ++ 32 :: (decimal maximum ++ [10])))

/-- The bytes of pixels. -/
def raster (pixels : List Pixel) : List UInt8 := pixels.flatMap fun p => [p.1, p.2.1, p.2.2]

def Image.encode (image : Image) : List UInt8 :=
  header image.width image.height image.maximum ++ raster image.pixels

/-- A number behind white space, and what follows it. -/
def number (s : List UInt8) : Option (ℕ × List UInt8) :=
  let digits := (s.dropWhile isSpace).takeWhile isDigit
  if (s.head?.map isSpace).getD false ∧ digits ≠ [] then
    some (value digits, (s.dropWhile isSpace).dropWhile isDigit)
  else none

/-- The image behind the numbers. -/
def image (width height maximum : ℕ) : List UInt8 → Option Image
  | [] => none
  | b :: bytes =>
    if h : isSpace b ∧ (0 < maximum ∧ maximum < 256) ∧ bytes.length = 3 * (width * height) then
      some ⟨width, height, maximum, triples bytes, by
        rw [length_triples, h.2.2, Nat.mul_div_cancel_left _ (by decide)]⟩
    else none

def decode (file : List UInt8) : Option Image :=
  if file.take magic.length = magic then
    (number (file.drop magic.length)).bind fun width =>
      (number width.2).bind fun height =>
        (number height.2).bind fun maximum => image width.1 height.1 maximum.1 maximum.2
  else none

/-! ## The parts -/

theorem triples_raster (pixels : List Pixel) : triples (raster pixels) = pixels := by
  induction pixels with
  | nil => rfl
  | cons p pixels ih =>
    rw [raster, List.flatMap_cons]
    exact congrArg (p :: ·) ih

theorem length_raster (pixels : List Pixel) : (raster pixels).length = 3 * pixels.length := by
  induction pixels with
  | nil => rfl
  | cons p pixels ih =>
    rw [raster, List.flatMap_cons, List.length_append, ← raster, ih, List.length_cons]
    exact Nat.add_comm _ _

/-- A number is read if something else than a digit follows it. -/
theorem number_decimal (n : ℕ) {b : UInt8} (s : List UInt8) (stops : isDigit b = false) :
    number (32 :: (decimal n ++ b :: s)) = some (n, b :: s) := by
  have hdigit : ∀ d ∈ decimal n, isDigit d = true := fun d => isDigit_of_mem_decimal
  have hstop : ∀ d, (b :: s).head? = some d → isDigit d = false := fun d hd =>
    Option.some.inj hd ▸ stops
  obtain ⟨d, ds, hds⟩ := List.exists_cons_of_ne_nil (decimal_ne_nil n)
  have hblank : isSpace d = false :=
    isSpace_eq_false_of_isDigit (hdigit d (hds ▸ List.mem_cons_self))
  have hspace : (32 :: (decimal n ++ b :: s)).dropWhile isSpace = decimal n ++ b :: s := by
    rw [hds, List.cons_append]
    refine (List.dropWhile_cons_of_pos rfl).trans (List.dropWhile_cons_of_neg ?_)
    rw [hblank]
    exact Bool.false_ne_true
  simp only [number, hspace, takeWhile_append_of_stop hdigit hstop,
    dropWhile_append_of_stop hdigit hstop, value_decimal]
  exact if_pos ⟨rfl, decimal_ne_nil n⟩

/-- The header says what is behind it. -/
theorem decode_header (width height maximum : ℕ) (bytes : List UInt8) :
    decode (header width height maximum ++ bytes) = image width height maximum (10 :: bytes) := by
  have hfile : header width height maximum ++ bytes =
      magic ++ 32 :: (decimal width ++ 32 :: (decimal height ++ 32 :: (decimal maximum ++
        10 :: bytes))) := by
    simp [header]
  rw [hfile, decode, List.take_left, if_pos rfl, List.drop_left, number_decimal width _ rfl,
    Option.bind_some, number_decimal height _ rfl, Option.bind_some, number_decimal maximum _ rfl,
    Option.bind_some]

/-- **Round trip**: the encoding of an image decodes to it. -/
theorem decode_encode {image : Image} (pos : 0 < image.maximum) (max : image.maximum < 256) :
    decode image.encode = some image := by
  obtain ⟨width, height, maximum, pixels, count⟩ := image
  have hlength : (raster pixels).length = 3 * (width * height) := by
    rw [length_raster, count]
  rw [Image.encode, decode_header, Pixmap.image, dif_pos ⟨rfl, ⟨pos, max⟩, hlength⟩]
  simp only [triples_raster]

/-- What decodes has nothing behind its pixels. -/
theorem length_of_decode {width height maximum : ℕ} {bytes : List UInt8} {image : Image}
    (decodes : decode (header width height maximum ++ bytes) = some image) :
    bytes.length = 3 * (width * height) := by
  rw [decode_header, Pixmap.image] at decodes
  split at decodes
  · rename_i h
    exact h.2.2
  · cases decodes

end Pixmap
