import PiVision.Lib.Framing
import PiVision.Pipeline.Client

/-!
# What the camera writes

`PiVisCamera.run` puts the resolution in front of the captured pixels and gives both to
`PiVisServer.send`, which puts their length in front. So each image is behind eight
header bytes, as many as the client collects before it reads pixels.
-/

namespace PiVision

open LittleEndian

/-- The pixels of a captured image, three bytes each. -/
abbrev ColorImage := List.Vector UInt8 colorImageSize

/-- `PiVisServer.send`: what it puts on a connection. -/
def PiVisServer.send (data : List UInt8) : List UInt8 := Framing.encodeFrame 4 data

/-- `PiVisCamera.run`: what it gives to `PiVisServer.send`. -/
def PiVisCamera.run (image : ColorImage) : List UInt8 :=
  leBytes 2 imageXSize ++ leBytes 2 imageYSize ++ image.toList

namespace PiVisCamera

/-- The bytes on the connection for one image. -/
def written (image : ColorImage) : List UInt8 := PiVisServer.send (run image)

/-- The bytes on the connection for the images, in order. -/
def stream (images : List ColorImage) : List UInt8 := images.flatMap written

/-- What stands in front of the pixels of each image. -/
def header : List UInt8 :=
  leBytes 4 (colorImageSize + 4) ++ leBytes 2 imageXSize ++ leBytes 2 imageYSize

/-- The bytes an image takes on the connection. -/
def writtenSize : ℕ := cameraBufHeaderSize + colorImageSize

theorem length_header : header.length = cameraBufHeaderSize := by simp [header, cameraBufHeaderSize]

theorem written_eq (image : ColorImage) : written image = header ++ image.toList := by
  have hlen : (run image).length = colorImageSize + 4 := by
    simp only [run, List.length_append, length_leBytes, image.toList_length]
    omega
  rw [written, PiVisServer.send, Framing.encodeFrame, hlen, run, header]
  simp only [List.append_assoc]

@[simp] theorem length_written (image : ColorImage) : (written image).length = writtenSize := by
  rw [written_eq, List.length_append, length_header, image.toList_length, writtenSize]

@[simp] theorem stream_nil : stream [] = [] := rfl

theorem stream_cons (image : ColorImage) (images : List ColorImage) :
    stream (image :: images) = header ++ (image.toList ++ stream images) := by
  simp only [stream, List.flatMap_cons, written_eq, List.append_assoc]

theorem length_stream (images : List ColorImage) :
    (stream images).length = images.length * writtenSize := by
  induction images with
  | nil => simp
  | cons image images ih =>
    have hcons : stream (image :: images) = written image ++ stream images := rfl
    rw [hcons, List.length_append, length_written, ih, List.length_cons, Nat.succ_mul,
      Nat.add_comm]

end PiVisCamera

end PiVision
